import HangAnalyzer.Analyzer.Analyze

/-!
# `HangAnalyzer.Analyzer.Outputs`: the merged event lists

The model of the part of `write_outputs` that reads the files again. `mergeFile`
is the body of its loop over the paths. `traceEvents` are the entries of
`trace.json`, and `eventSections` the sections of `events.txt`.

Times stay integers: an entry has the nanoseconds that the source divides by
1000, and a row those that it divides by 1e6 and pads.
-/

set_option autoImplicit false

namespace HangAnalyzer.Analyzer

open HangAnalyzer.Lib
open HangAnalyzer.Recorder (Event sortBySeq)

/-- `report["ranks"].get(rank)`. -/
def Report.rank? (report : Report) (rank : Nat) : Option RankReport :=
  (report.ranks.find? fun item => item.1 = rank).map Prod.snd

/-- `old.update({e["seq"]: e for e in events})`. -/
def updateBySeq (old : Dict Nat Event) (events : List Event) : Dict Nat Event :=
  events.foldl (fun d e => d.set e.seq e) old

/-- The events of a rank after one more file. -/
def mergeEvents (merged events : List Event) : List Event :=
  let old := updateBySeq .empty merged
  sortBySeq (updateBySeq old events).values

/-- The body of the loop over the paths: a file that cannot be read or is not of
the reported process is skipped. -/
def mergeFile (report : Report) (full : Dict Nat (List Event)) (file : File) :
    Dict Nat (List Event) :=
  match readFile file with
  | .error _ => full
  | .ok data =>
      match report.rank? data.header.rank with
      | none => full
      | some d =>
          -- A file of another process with the same rank is left out.
          if data.header.pid = d.pid then
            full.set data.header.rank
              (mergeEvents ((full.get? data.header.rank).getD []) data.events)
          else full

/-- `full`: for each rank the events of all files of the reported process. -/
def fullEvents (report : Report) (files : List File) : Dict Nat (List Event) :=
  files.foldl (mergeFile report) .empty

/-- `full.get(rank, d["last_events"])`. -/
def eventsOf (full : Dict Nat (List Event)) (item : Nat × RankReport) : List Event :=
  (full.get? item.1).getD item.2.lastEvents

/-- An entry of `trace.json`. -/
structure TraceEvent where
  name : String
  ph : String
  s : String
  tsNs : Nat
  pid : Nat
  tid : Nat
  stream : Nat
  correlationId : Nat
  seq : Nat
  deriving Repr, DecidableEq

/-- The entry of an event. -/
def traceEvent (rank : Nat) (e : Event) : TraceEvent where
  name := e.type.name
  ph := "i"
  s := "t"
  tsNs := e.timestampNs
  pid := rank
  tid := e.tid
  stream := e.stream
  correlationId := e.correlationId
  seq := e.seq

/-- The entries of `trace.json`. -/
def traceEvents (report : Report) (files : List File) : List TraceEvent :=
  report.ranks.flatMap fun item =>
    (eventsOf (fullEvents report files) item).map (traceEvent item.1)

/-- A row of `events.txt`. -/
structure EventRow where
  seq : Nat
  sinceFirstNs : Int
  stream : Nat
  type : String
  correlationId : Nat
  arg0 : Nat
  arg1 : Nat
  deriving Repr, DecidableEq

/-- The row of an event, where `first` is the time of the first one. -/
def eventRow (first : Nat) (e : Event) : EventRow where
  seq := e.seq
  sinceFirstNs := e.timestampNs - first
  stream := e.stream
  type := e.type.name
  correlationId := e.correlationId
  arg0 := e.arg0
  arg1 := e.arg1

/-- A section of `events.txt`: its heading and its rows. -/
structure EventSection where
  rank : Nat
  heading : String
  rows : List EventRow
  deriving Repr, DecidableEq

/-- The section of a rank. -/
def eventSection (full : Dict Nat (List Event)) (item : Nat × RankReport) : EventSection :=
  let events := eventsOf full item
  let first := (events.head?.map Event.timestampNs).getD 0
  { rank := item.1
    heading := "RANK " ++ toString item.1 ++ " pid=" ++ toString item.2.pid ++ " events="
      ++ toString events.length
    rows := events.map (eventRow first) }

/-- The sections of `events.txt`. -/
def eventSections (report : Report) (files : List File) : List EventSection :=
  (report.ranks.mergeSort fun a b => a.1 ≤ b.1).map (eventSection (fullEvents report files))

end HangAnalyzer.Analyzer
