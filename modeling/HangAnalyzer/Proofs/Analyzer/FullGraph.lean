import HangAnalyzer.Lib.Contraction
import HangAnalyzer.Proofs.Analyzer.Nesting

/-!
# `HangAnalyzer.Proofs.Analyzer.FullGraph`: all dependencies between operations

In the full graph an operation on a stream depends on every earlier operation of
the stream, and a wait on its producer. `analyze` keeps only the edges from a
record to the earlier waits of its stream, and those from waits to producers.
That is the contraction of `HangAnalyzer.Lib.Contraction`: a producer edge ends at
a record and starts at a wait. So no cycle is lost
(`streamCyclesCandidate_ne_nil_iff`).

The nodes are the names that `analyze` gives the operations.
-/

set_option autoImplicit false

namespace HangAnalyzer.Analyzer

open HangAnalyzer.Lib
open HangAnalyzer.Recorder

/-- An operation of the dependency graph: `EVENT_WAIT` or `EVENT_RECORD`. -/
def IsOp (e : Event) : Prop := e.type = .eventWait ∨ e.type = .eventRecord

/-- `x` is an operation and `y` an earlier one of the same rank and stream. -/
def OrderEdge (ranks : Dict Nat Snapshot) (x y : String) : Prop :=
  ∃ rank data later earlier, ranks.get? rank = some data ∧
    later ∈ data.events ∧ IsOp later ∧ earlier ∈ data.events ∧ IsOp earlier ∧
    earlier.stream = later.stream ∧ earlier.seq < later.seq ∧
    x = opNode rank later ∧ y = opNode rank earlier

/-- `x` is a wait and `y` the record that `analyze` selects for it: the last one of its event
in the log of the rank that the wait names. -/
def ProducerEdge (ranks : Dict Nat Snapshot) (x y : String) : Prop :=
  ∃ rank data wait producer, ranks.get? rank = some data ∧ wait ∈ data.events ∧
    wait.type = .eventWait ∧
    lastRecord (logOf ranks wait.rank) wait.correlationId = some producer ∧
    x = waitNode wait.rank wait ∧ y = recordNode wait.rank producer

/-- The edges of the full graph. -/
def FullEdge (ranks : Dict Nat Snapshot) (x y : String) : Prop :=
  OrderEdge ranks x y ∨ ProducerEdge ranks x y

section
variable {rank rank' : Nat} {e e' : Event}

/-- The node of a wait. -/
theorem opNode_wait (h : e.type = .eventWait) : opNode rank e = waitNode rank e := if_pos h

/-- The node of a record. -/
theorem opNode_record (h : e.type = .eventRecord) : opNode rank e = recordNode rank e := by
  rw [opNode, if_neg (by simp [h])]

/-- The name of an operation determines its rank and its number. -/
theorem opNode_inj (h : opNode rank e = opNode rank' e') : rank = rank' ∧ e.seq = e'.seq := by
  unfold opNode at h
  split at h
  · split at h
    · exact ⟨(waitNode_inj h).1, (waitNode_inj h).2.2⟩
    · exact absurd h (waitNode_ne_recordNode _ _ _ _)
  · split at h
    · exact absurd h.symm (waitNode_ne_recordNode _ _ _ _)
    · exact ⟨(recordNode_inj h).1, (recordNode_inj h).2.2⟩

/-- The name of a wait is given to waits only. -/
theorem type_of_opNode_eq_waitNode (h : opNode rank e = waitNode rank' e') :
    e.type = .eventWait := by
  by_contra hne
  rw [opNode, if_neg hne] at h
  exact waitNode_ne_recordNode _ _ _ _ h.symm

/-- The name of a record is given to no wait. -/
theorem type_of_opNode_eq_recordNode (hop : IsOp e) (h : opNode rank e = recordNode rank' e') :
    e.type = .eventRecord := by
  rcases hop with hwait | hrecord
  · rw [opNode_wait hwait] at h
    exact absurd h (waitNode_ne_recordNode _ _ _ _)
  · exact hrecord

end

section
variable {ranks : Dict Nat Snapshot}

/-- The order of a stream is transitive. -/
theorem OrderEdge.trans {x y z : String} (hxy : OrderEdge ranks x y) (hyz : OrderEdge ranks y z) :
    OrderEdge ranks x z := by
  obtain ⟨rank, data, later, middle, hdata, hlater, hlaterOp, hmiddle, -, hstream, hlt, rfl, rfl⟩ :=
    hxy
  obtain ⟨rank', data', middle', earlier, hdata', hmiddle', -, hearlier, hearlierOp, hstream', hlt',
    hname, rfl⟩ := hyz
  -- The middle event is the same one, for its node determines it.
  obtain ⟨rfl, hseq⟩ := opNode_inj hname
  obtain rfl := Option.some.inj (hdata.symm.trans hdata')
  obtain rfl := eq_of_seq hmiddle hmiddle' hseq
  exact ⟨rank, data, later, earlier, hdata, hlater, hlaterOp, hearlier, hearlierOp,
    hstream'.trans hstream, hlt'.trans hlt, rfl, rfl⟩

/-- No operation is before itself. -/
theorem OrderEdge.irrefl (x : String) : ¬ OrderEdge ranks x x := by
  rintro ⟨rank, data, later, earlier, -, -, -, -, -, -, hlt, hlater, hearlier⟩
  have hseq := (opNode_inj (hlater.symm.trans hearlier)).2
  exact absurd hlt (hseq ▸ Nat.lt_irrefl _)

/-- The edges that the loop over the waits adds. -/
theorem producerEdge_iff {x y : String} :
    ProducerEdge ranks x y ↔ ∃ wait ∈ (scanRanks ranks).1.waits,
      WaitEdge (scanRanks ranks).1.eventProducers wait x y := by
  -- The scan collects the waits of all logs, with their last records.
  constructor
  · rintro ⟨rank, data, wait, producer, hdata, hwait, htype, hproducer, hx, hy⟩
    refine ⟨wait, mem_waits.mpr ⟨rank, data, hdata, hwait, htype⟩, producer, ?_, hx, hy⟩
    rw [producerOf, eventProducers_eq, hproducer]
  · rintro ⟨wait, hmem, producer, hproducer, hx, hy⟩
    obtain ⟨rank, data, hdata, hwait, htype⟩ := mem_waits.mp hmem
    rw [producerOf, eventProducers_eq] at hproducer
    exact ⟨rank, data, wait, producer, hdata, hwait, htype, hproducer, hx, hy⟩

/-- The edges that `analyze` collects are edges of the full graph. -/
theorem fullEdge_of_edge {order : SetOrder String} {x y : String}
    (h : (streamGraph order ranks (scanRanks ranks).1).Edge x y) : FullEdge ranks x y := by
  rw [mem_streamGraph] at h
  -- A record and an earlier wait of its stream are two operations in order.
  rcases h with ⟨item, hitem, pre, record, post, hsplit, hrecord, wait, hwait, hwaitType, hstream,
    rfl, rfl⟩ | hproducer
  · obtain ⟨⟨rank, data⟩, hmem, rfl⟩ := List.mem_map.mp hitem
    obtain ⟨hin, hlt⟩ := (mem_pre_iff hsplit).mp hwait
    have hself : record ∈ data.events := by
      show record ∈ (rank, data.events).2
      rw [hsplit]
      exact List.mem_append_right _ List.mem_cons_self
    exact Or.inl ⟨rank, data, record, wait, Dict.mem_items.mp hmem, hself, Or.inr hrecord, hin,
      Or.inl hwaitType, hstream, hlt, (opNode_record hrecord).symm, (opNode_wait hwaitType).symm⟩
  · exact Or.inr (producerEdge_iff.mpr hproducer)

/-- The edges of the contraction are edges that `analyze` collects. -/
theorem edge_of_contracted {order : SetOrder String} {x y : String}
    (h : Contracted (OrderEdge ranks) (ProducerEdge ranks) x y) :
    (streamGraph order ranks (scanRanks ranks).1).Edge x y := by
  rw [mem_streamGraph]
  rcases h with hproducer | ⟨horder, ⟨p, hto⟩, ⟨q, hfrom⟩⟩
  · exact Or.inr (producerEdge_iff.mp hproducer)
  · -- A producer edge ends at `x`, so `x` is a record; one starts at `y`, so `y` is a wait.
    obtain ⟨rank, data, later, earlier, hdata, hlater, hlaterOp, hearlier, -, hstream, hlt,
      rfl, rfl⟩ := horder
    obtain ⟨_, _, _, _, _, _, _, _, _, hrecordName⟩ := hto
    obtain ⟨_, _, _, _, _, _, _, _, hwaitName, _⟩ := hfrom
    have hrecord := type_of_opNode_eq_recordNode hlaterOp hrecordName
    have hwait := type_of_opNode_eq_waitNode hwaitName
    obtain ⟨pre, post, hsplit⟩ := List.append_of_mem hlater
    exact Or.inl ⟨(rank, data.events), List.mem_map.mpr ⟨_, Dict.mem_items.mpr hdata, rfl⟩, pre,
      later, post, hsplit, hrecord, earlier, (mem_pre_iff hsplit).mpr ⟨hearlier, hlt⟩, hwait,
      hstream, opNode_record hrecord, opNode_wait hwait⟩

/-- The graph of `analyze` has a cycle exactly when the full graph has one. -/
theorem acyclic_streamGraph_iff_full (order : SetOrder String) :
    (streamGraph order ranks (scanRanks ranks).1).Acyclic ↔
      ∀ x, ¬ Relation.TransGen (FullEdge ranks) x x := by
  -- A cycle of all edges can be contracted to one that alternates between the two kinds.
  have hcontraction : (∃ x, Relation.TransGen (FullEdge ranks) x x) ↔
      ∃ x, Relation.TransGen (Contracted (OrderEdge ranks) (ProducerEdge ranks)) x x :=
    cycle_iff_contracted (fun _ _ _ => OrderEdge.trans) OrderEdge.irrefl
  constructor
  · intro hacyclic x hcycle
    obtain ⟨y, hcontracted⟩ := hcontraction.mp ⟨x, hcycle⟩
    exact hacyclic y (Relation.TransGen.mono (fun _ _ => edge_of_contracted) y y hcontracted)
  · intro hacyclic x hcycle
    exact hacyclic x (Relation.TransGen.mono (fun _ _ => fullEdge_of_edge) x x hcycle)

end

/-- **No deadlock is lost.** A stream cycle is reported exactly when the full graph
has a cycle. -/
theorem streamCyclesCandidate_ne_nil_iff (order : SetOrder String) (files : List File)
    (expectedRanks : Option (Finset Int)) (communicatorId : Option Int) :
    (analyze order files expectedRanks communicatorId).streamCyclesCandidate ≠ [] ↔
      ∃ x, Relation.TransGen (FullEdge (selectRanks files).1) x x := by
  have hnil : (analyze order files expectedRanks communicatorId).streamCyclesCandidate = [] ↔
      ∀ x, ¬ Relation.TransGen (FullEdge (selectRanks files).1) x x :=
    (streamCycles_eq_nil_iff _ _ _ _).trans (acyclic_streamGraph_iff_full order)
  refine (not_congr hnil).trans ?_
  push Not
  rfl

/-- The streams 1 and 2, of which each waits for a record that comes after the wait of the
other one. Stream 1 makes another record before. -/
def deadlock : List Call :=
  [⟨18, 2, 11, 0, 0, 0, 10, 101⟩, ⟨18, 1, 22, 0, 0, 0, 11, 101⟩, ⟨17, 1, 33, 0, 0, 0, 12, 101⟩,
    ⟨17, 1, 11, 0, 0, 0, 13, 101⟩, ⟨17, 2, 22, 0, 0, 0, 14, 101⟩]

/-- The full graph of this log has a cycle through all five operations, and `analyze` reports
one. -/
theorem deadlock_reported :
    ∃ r', recordCalls (some ⟨initRing 0 0 16 ⟨none, none, none, 100, 5, 7⟩, 16, 100⟩) 100 deadlock
        = some r' ∧
      (analyze (.insertion String) [("r0.flight", .ok r'.file)] none none).streamCyclesCandidate
        ≠ [] := by
  have hinit : flightInit none (some "r0.flight") 0 0 16 ⟨none, none, none, 100, 5, 7⟩
      = .ok ⟨initRing 0 0 16 ⟨none, none, none, 100, 5, 7⟩, 16, 100⟩ := rfl
  obtain ⟨r', s, hr', -, hget, hevents⟩ := selectRanks_recordCalls hinit deadlock "r0.flight"
  have hdata : (selectRanks [("r0.flight", .ok r'.file)]).1.get? 0 = some s := by
    rw [hget]
    rfl
  have hlog : logOf (selectRanks [("r0.flight", .ok r'.file)]).1 0 = s.events := by
    rw [logOf, hdata]
    rfl
  let wait₁ : Event := ⟨10, 1, 100, 101, 0, 0, 2, .eventWait, 0, 11, 0, 0⟩
  let wait₂ : Event := ⟨11, 2, 100, 101, 0, 0, 1, .eventWait, 0, 22, 0, 0⟩
  let other : Event := ⟨12, 3, 100, 101, 0, 0, 1, .eventRecord, 0, 33, 0, 0⟩
  let record₁ : Event := ⟨13, 4, 100, 101, 0, 0, 1, .eventRecord, 0, 11, 0, 0⟩
  let record₂ : Event := ⟨14, 5, 100, 101, 0, 0, 2, .eventRecord, 0, 22, 0, 0⟩
  have hs : s.events = [wait₁, wait₂, other, record₁, record₂] := by
    rw [hevents]
    decide
  -- Every two operations of a stream are in order.
  have horder : ∀ later ∈ s.events, ∀ earlier ∈ s.events, earlier.stream = later.stream →
      earlier.seq < later.seq → FullEdge (selectRanks [("r0.flight", .ok r'.file)]).1
        (opNode 0 later) (opNode 0 earlier) := by
    have hop : ∀ e ∈ s.events, IsOp e := by
      simp [hs, IsOp, wait₁, wait₂, other, record₁, record₂]
    exact fun later hlater earlier hearlier hstream hlt => .inl ⟨0, s, later, earlier, hdata,
      hlater, hop later hlater, hearlier, hop earlier hearlier, hstream, hlt, rfl, rfl⟩
  -- Every wait waits for the last record of its event.
  have hproducer : ∀ wait ∈ s.events, wait.rank = 0 → wait.type = .eventWait → ∀ producer,
      lastRecord s.events wait.correlationId = some producer →
        FullEdge (selectRanks [("r0.flight", .ok r'.file)]).1
          (waitNode 0 wait) (recordNode 0 producer) := by
    intro wait hwait hrank htype producer hlast
    refine .inr ⟨0, s, wait, producer, hdata, hwait, htype, ?_, ?_, ?_⟩
    · rw [hrank, hlog]
      exact hlast
    all_goals rw [hrank]
  rw [hs] at horder hproducer
  have hother := horder record₁ (by simp) other (by simp) rfl (by decide)
  have hwait₂ := horder other (by simp) wait₂ (by simp) rfl (by decide)
  have hrecord₂ := hproducer wait₂ (by simp) rfl rfl record₂ (by decide)
  have hwait₁ := horder record₂ (by simp) wait₁ (by simp) rfl (by decide)
  have hrecord₁ := hproducer wait₁ (by simp) rfl rfl record₁ (by decide)
  exact ⟨r', hr', (streamCyclesCandidate_ne_nil_iff _ _ _ _).mpr ⟨opNode 0 record₁,
    .head hother (.head hwait₂ (.head hrecord₂ (.head hwait₁ (.single hrecord₁))))⟩⟩

end HangAnalyzer.Analyzer
