import HangAnalyzer.Lib.DepthFirst
import HangAnalyzer.Analyzer.Rank

/-!
# `HangAnalyzer.Analyzer.Streams`: event dependencies between streams

The model of the dependency part of `analyze`. The nodes of the graph are the
strings of the source, one for each `EVENT_WAIT` and `EVENT_RECORD`. A record
has an edge to each earlier wait of its own stream, and a wait to the record
that `event_producers` holds for its event.

The successors of a node are a Python set, whose iteration order differs from
process to process. `SetOrder` stands for that order.
-/

set_option autoImplicit false

namespace HangAnalyzer.Analyzer

open HangAnalyzer.Lib
open HangAnalyzer.Recorder (EventType Event)

/-- The order in which a set iterates: some order of its elements. -/
structure SetOrder (α : Type) where
  iter : List α → List α
  perm : ∀ l, (iter l).Perm l

/-- Sets that iterate in insertion order. -/
def SetOrder.insertion (α : Type) : SetOrder α := ⟨id, List.Perm.refl⟩

instance (α : Type) : Inhabited (SetOrder α) := ⟨.insertion α⟩

/-- The successor sets of the graph. -/
abbrev Edges := Dict String (List String)

/-- `edges[a].add(b)`. -/
def addEdge (edges : Edges) (a b : String) : Edges :=
  edges.update a [] fun dests => if b ∈ dests then dests else dests ++ [b]

/-- `r{rank}:s{stream}:{kind}:{seq}`. -/
def nodeName (kind : String) (rank : Nat) (e : Event) : String :=
  "r" ++ toString rank ++ (":s" ++ toString e.stream ++ (":" ++ kind ++ (":" ++ toString e.seq)))

def waitNode (rank : Nat) (e : Event) : String := nodeName "wait" rank e

def recordNode (rank : Nat) (e : Event) : String := nodeName "record" rank e

/-- The body of the loop that makes a record depend on the earlier waits of its
stream. -/
def recordEdge (rank : Nat) (acc : Dict Nat (List Event) × Edges) (e : Event) :
    Dict Nat (List Event) × Edges :=
  let (priorWaits, edges) := acc
  if e.type = .eventWait then (priorWaits.update e.stream [] fun l => l ++ [e], edges)
  else if e.type = .eventRecord then
    (priorWaits, ((priorWaits.get? e.stream).getD []).foldl
      (fun edges previous => addEdge edges (recordNode rank e) (waitNode rank previous)) edges)
  else acc

/-- The edges from the records of all ranks. -/
def recordEdges (ranks : List (Nat × List Event)) : Edges :=
  ranks.foldl (fun edges (rank, events) =>
    (events.foldl (recordEdge rank) (.empty, edges)).2) .empty

/-- An entry of `report["dependencies"]`. -/
structure Dependency where
  rank : Nat
  eventId : Nat
  waitingStream : Nat
  producerStream : Option Nat
  producerObserved : Bool
  deriving Repr, DecidableEq

/-- The record a wait depends on. -/
def producerOf (producers : Dict (Nat × Nat) Event) (wait : Event) : Option Event :=
  producers.get? (wait.rank, wait.correlationId)

/-- The entry of a wait. -/
def dependency (producers : Dict (Nat × Nat) Event) (wait : Event) : Dependency where
  rank := wait.rank
  eventId := wait.correlationId
  waitingStream := wait.stream
  producerStream := (producerOf producers wait).map Event.stream
  producerObserved := (producerOf producers wait).isSome

/-- The body of the loop that makes a wait depend on its producer. -/
def waitEdge (producers : Dict (Nat × Nat) Event) (edges : Edges) (wait : Event) : Edges :=
  match producerOf producers wait with
  | some producer => addEdge edges (waitNode wait.rank wait) (recordNode wait.rank producer)
  | none          => edges

/-- The edges given to `find_cycles`. -/
def dependencyEdges (ranks : List (Nat × List Event)) (producers : Dict (Nat × Nat) Event)
    (waits : List Event) : Edges :=
  waits.foldl (waitEdge producers) (recordEdges ranks)

/-- The successors of a node. -/
def successors (edges : Edges) (a : String) : List String := (edges.get? a).getD []

/-- The graph as `find_cycles` iterates over it. -/
def edgeGraph (order : SetOrder String) (edges : Edges) : Graph String where
  keys := edges.keys
  succ a := order.iter (successors edges a)
  mem_keys a b hb := by
    rw [(order.perm _).mem_iff, successors] at hb
    cases hget : edges.get? a with
    | none => simp [hget] at hb
    | some dests => exact Dict.mem_keys.mpr ⟨dests, hget⟩

/-- The graph in which the successor set of each node has an order of its own. -/
def orderedGraph (order : String → SetOrder String) (edges : Edges) : Graph String where
  keys := edges.keys
  succ a := (edgeGraph (order a) edges).succ a
  mem_keys a := (edgeGraph (order a) edges).mem_keys a

end HangAnalyzer.Analyzer
