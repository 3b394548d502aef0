import Mathlib.Data.Finset.Sort
import HangAnalyzer.Analyzer.Streams

/-!
# `HangAnalyzer.Analyzer.Analyze`: the offline report

The model of `analyze` in `flightrecorder/analyzer.py`. A file is its path and
its bytes, or the text of the `OSError` that reading it raises. `selectRanks`
keeps one file for each rank, `scanRanks` runs the loop of
`HangAnalyzer.Analyzer.Rank` over them, and `analyze` puts the sections of the
report together.
-/

set_option autoImplicit false

namespace HangAnalyzer.Analyzer

open HangAnalyzer.Lib
open HangAnalyzer.Recorder (EventType Event Snapshot readEvents)

/-- A path with what reading the file gives: its bytes, or an error text. -/
abbrev File := String × Except String (List UInt8)

/-- `read_events(path)`, with the text of the `OSError` or `ValueError`. -/
def readFile (file : File) : Except String Snapshot := do
  let raw ← file.2
  readEvents file.1 raw

/-- The body of the loop over the paths. -/
def selectFile (acc : Dict Nat Snapshot × List String) (file : File) :
    Dict Nat Snapshot × List String :=
  let (ranks, errors) := acc
  match readFile file with
  | .error text => (ranks, errors ++ [text])
  | .ok data =>
      match ranks.get? data.header.rank with
      | none => (ranks.set data.header.rank data, errors)
      | some old =>
          -- Of two files of a rank the one with more events wins, and the first one of equals.
          if old.header.writeSeq < data.header.writeSeq then
            (ranks.set data.header.rank data, errors)
          else (ranks, errors)

/-- The latest file of each rank, and the errors. -/
def selectRanks (files : List File) : Dict Nat Snapshot × List String :=
  files.foldl selectFile (.empty, [])

/-- `sorted(d.items())` for a dictionary with distinct numbers as keys. -/
def sortedItems {α : Type} (d : Dict Nat α) : List (Nat × α) :=
  d.items.mergeSort fun a b => a.1 ≤ b.1

/-- The body of the loop over the ranks. -/
def scanNext (acc : Scan × List (Nat × RankReport)) (item : Nat × Snapshot) :
    Scan × List (Nat × RankReport) :=
  let scan := scanRank acc.1 item.1 item.2.events
  (scan, acc.2 ++ [(item.1, rankReport item.2 scan)])

/-- The loop over the ranks. -/
def scanRanks (ranks : Dict Nat Snapshot) : Scan × List (Nat × RankReport) :=
  (sortedItems ranks).foldl scanNext (.init, [])

/-- An entry of `report["collectives"]`. -/
structure Collective where
  communicatorId : Nat
  operationId : Nat
  entered : List Nat
  missingExpected : List Int
  types : List Nat
  typeMismatch : Bool
  endObserved : List Nat
  deriving Repr, DecidableEq

/-- The lexicographic order of communicator and operation. -/
def groupLe (a b : Nat × Nat) : Bool := a.1 < b.1 || (a.1 = b.1 && a.2 ≤ b.2)

/-- A rank's events contain the end of an operation. -/
def endsIn (comm op : Nat) (events : List Event) : Bool :=
  events.any fun e => e.type = .hcclEnd && e.arg0 = comm && e.correlationId = op

/-- The entry of a group. -/
def collective (ranks : Dict Nat Snapshot) (expectedRanks : Option (Finset Int))
    (group : (Nat × Nat) × Dict Nat Event) : Collective :=
  let ((comm, op), entered) := group
  let types := (entered.values.map Event.arg1).toFinset
  { communicatorId := comm
    operationId := op
    entered := entered.keys.mergeSort (· ≤ ·)
    missingExpected :=
      match expectedRanks with
      -- `sorted(expected - entered.keys())`
      | some expected =>
          (expected \ (entered.keys.map Int.ofNat).toFinset).sort (· ≤ ·)
      | none => []
    types := types.sort (· ≤ ·)
    typeMismatch := decide (1 < types.card)
    endObserved :=
      ((ranks.items.filter fun item => endsIn comm op item.2.events).map Prod.fst).mergeSort
        (· ≤ ·) }

/-- The collectives, restricted to one communicator if one is given. -/
def collectives (ranks : Dict Nat Snapshot) (groups : Dict (Nat × Nat) (Dict Nat Event))
    (expectedRanks : Option (Finset Int)) (communicatorId : Option Int) : List Collective :=
  ((groups.items.mergeSort fun a b => groupLe a.1 b.1).filter fun group =>
    communicatorId.all fun id => (group.1.1 : Int) = id).map (collective ranks expectedRanks)

/-- `report["limitations"]`. -/
def LIMITATIONS : List String :=
  ["All events are host observations unless DEVICE_CONFIRMED is explicitly emitted after a verified device completion.",
    "A stream dependency cycle is a candidate only; EventRecord placement and device completion require validation.",
    "A missing collective requires explicit expected ranks and a shared communicator/operation id."]

/-- The report of `analyze`. -/
structure Report where
  ranks : List (Nat × RankReport)
  collectives : List Collective
  dependencies : List Dependency
  streamCyclesCandidate : List (List String)
  errors : List String
  limitations : List String

/-- The edges `analyze` collects from all ranks. -/
def rankEdges (ranks : Dict Nat Snapshot) (scan : Scan) : Edges :=
  dependencyEdges (ranks.items.map fun item => (item.1, item.2.events)) scan.eventProducers
    scan.waits

/-- The graph `analyze` gives to `find_cycles`. -/
def streamGraph (order : SetOrder String) (ranks : Dict Nat Snapshot) (scan : Scan) :
    Graph String :=
  edgeGraph order (rankEdges ranks scan)

/-- `analyze`. The search for cycles has all the nesting it asks for. -/
def analyze (order : SetOrder String) (files : List File)
    (expectedRanks : Option (Finset Int)) (communicatorId : Option Int) : Report :=
  let (ranks, errors) := selectRanks files
  let (scan, reports) := scanRanks ranks
  { ranks := reports
    collectives := collectives ranks scan.groups expectedRanks communicatorId
    dependencies := scan.waits.map (dependency scan.eventProducers)
    streamCyclesCandidate := findCycles (streamGraph order ranks scan)
    errors := errors
    limitations := LIMITATIONS }

/-- The default of `sys.getrecursionlimit()`. -/
def RECURSION_LIMIT : Nat := 1000

/-- `analyze` with at most `limit` nested calls of `visit`. It has no result when
the search needs more: nothing handles the `RecursionError`. -/
def analyzeWithin (limit : Nat) (order : String → SetOrder String) (files : List File)
    (expectedRanks : Option (Finset Int)) (communicatorId : Option Int) : Option Report :=
  let (ranks, _) := selectRanks files
  let (scan, _) := scanRanks ranks
  (findCyclesWithin (orderedGraph order (rankEdges ranks scan)) limit).map fun cycles =>
    { analyze default files expectedRanks communicatorId with streamCyclesCandidate := cycles }

end HangAnalyzer.Analyzer
