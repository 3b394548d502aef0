import HangAnalyzer.Lib.Layout
import HangAnalyzer.Lib.Buffer
import HangAnalyzer.Lib.Brackets
import HangAnalyzer.Lib.Memory
import HangAnalyzer.Lib.SharedStores
import HangAnalyzer.Lib.SharedCounter
import HangAnalyzer.Lib.SeqLock
import HangAnalyzer.Lib.Runs
import HangAnalyzer.Lib.WordCopy
import HangAnalyzer.Lib.LiveRead
import HangAnalyzer.Lib.OrderedDict
import HangAnalyzer.Lib.TextFile
import HangAnalyzer.Lib.Utf8
import HangAnalyzer.Lib.DepthFirst
import HangAnalyzer.Lib.SearchDepth
import HangAnalyzer.Lib.Contraction
import HangAnalyzer.Lib.Ownership
import HangAnalyzer.Lib.Claims
import HangAnalyzer.Lib.Shares
import HangAnalyzer.Lib.StoreOrder
import HangAnalyzer.Lib.Scanner
import HangAnalyzer.Lib.Json
import HangAnalyzer.Lib.JsonText
import HangAnalyzer.Lib.JsonChars
import HangAnalyzer.Lib.Lines
import HangAnalyzer.Lib.JsonLines
import HangAnalyzer.Recorder.Ring
import HangAnalyzer.Recorder.Format
import HangAnalyzer.Recorder.Checked
import HangAnalyzer.Recorder.Family
import HangAnalyzer.Analyzer.Rank
import HangAnalyzer.Analyzer.Streams
import HangAnalyzer.Analyzer.Analyze
import HangAnalyzer.Analyzer.Outputs
import HangAnalyzer.Checkpoint.Pool
import HangAnalyzer.Checkpoint.Life
import HangAnalyzer.Checkpoint.Session
import HangAnalyzer.Capture.Monitors
import HangAnalyzer.Capture.Machine
import HangAnalyzer.Capture.Log
import HangAnalyzer.Mspti.Worker
import HangAnalyzer.Mspti.Deployed
import HangAnalyzer.Mspti.Ring
import HangAnalyzer.Mspti.Format
import HangAnalyzer.Mspti.Checked
import HangAnalyzer.Mspti.Report
import HangAnalyzer.Mspti.Buffers
import HangAnalyzer.Mspti.Recording
import HangAnalyzer.Watchdog.Loop
import HangAnalyzer.Proofs.Recorder.File
import HangAnalyzer.Proofs.Recorder.Stores
import HangAnalyzer.Proofs.Recorder.Sequential
import HangAnalyzer.Proofs.Recorder.RoundTrip
import HangAnalyzer.Proofs.Recorder.Interleaved
import HangAnalyzer.Proofs.Recorder.Lapped
import HangAnalyzer.Proofs.Recorder.LiveCopy
import HangAnalyzer.Proofs.Analyzer.Edges
import HangAnalyzer.Proofs.Analyzer.Scan
import HangAnalyzer.Proofs.Analyzer.Cycles
import HangAnalyzer.Proofs.Analyzer.Collectives
import HangAnalyzer.Proofs.Analyzer.Scopes
import HangAnalyzer.Proofs.Analyzer.Progress
import HangAnalyzer.Proofs.Analyzer.Polling
import HangAnalyzer.Proofs.Analyzer.FileOrder
import HangAnalyzer.Proofs.Analyzer.Merge
import HangAnalyzer.Proofs.Analyzer.Search
import HangAnalyzer.Proofs.Analyzer.Nesting
import HangAnalyzer.Proofs.Analyzer.FullGraph
import HangAnalyzer.Proofs.Checkpoint.Steps
import HangAnalyzer.Proofs.Checkpoint.Refines
import HangAnalyzer.Proofs.Checkpoint.Calls
import HangAnalyzer.Proofs.Checkpoint.Scan
import HangAnalyzer.Proofs.Checkpoint.Coherent
import HangAnalyzer.Proofs.Checkpoint.Fairness
import HangAnalyzer.Proofs.Checkpoint.Chronicle
import HangAnalyzer.Proofs.Checkpoint.LifeCycle
import HangAnalyzer.Proofs.Checkpoint.Events
import HangAnalyzer.Proofs.Checkpoint.Order
import HangAnalyzer.Proofs.Checkpoint.Keys
import HangAnalyzer.Proofs.Checkpoint.Balance
import HangAnalyzer.Proofs.Checkpoint.Separate
import HangAnalyzer.Proofs.Checkpoint.Apart
import HangAnalyzer.Proofs.Checkpoint.Device
import HangAnalyzer.Checkpoint.Poller
import HangAnalyzer.Proofs.Checkpoint.WaitFree
import HangAnalyzer.Proofs.Checkpoint.Poller
import HangAnalyzer.Proofs.Checkpoint.Destroy
import HangAnalyzer.Proofs.Checkpoint.StopPoller
import HangAnalyzer.Proofs.Capture.Truthful
import HangAnalyzer.Proofs.Capture.Threads
import HangAnalyzer.Proofs.Capture.Accounting
import HangAnalyzer.Proofs.Capture.Log
import HangAnalyzer.Proofs.Mspti.Governed
import HangAnalyzer.Proofs.Mspti.File
import HangAnalyzer.Proofs.Mspti.Slot
import HangAnalyzer.Proofs.Mspti.Live
import HangAnalyzer.Proofs.Mspti.Untorn
import HangAnalyzer.Proofs.Mspti.RoundTrip
import HangAnalyzer.Proofs.Mspti.Start
import HangAnalyzer.Proofs.Mspti.Switched
import HangAnalyzer.Proofs.Mspti.Retried
import HangAnalyzer.Proofs.Mspti.OpenCalls
import HangAnalyzer.Proofs.Mspti.Buffers
import HangAnalyzer.Proofs.Mspti.Recording
import HangAnalyzer.Proofs.Mspti.Delivered
import HangAnalyzer.Proofs.Mspti.Activities
import HangAnalyzer.Proofs.Watchdog.Evidence
import HangAnalyzer.Proofs.Readers
import HangAnalyzer.Proofs.Watermark
import HangAnalyzer.Proofs.Recorder.LastTime
import HangAnalyzer.Proofs.Watchdog.Stalls
import HangAnalyzer.Proofs.Mspti.Deployed
import HangAnalyzer.Proofs.Recorder.Family
import HangAnalyzer.Proofs.Sampler.Summary
import HangAnalyzer.Proofs.Sampler.Usages
