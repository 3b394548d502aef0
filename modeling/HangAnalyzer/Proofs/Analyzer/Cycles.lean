import HangAnalyzer.Proofs.Analyzer.Edges
import HangAnalyzer.Proofs.Analyzer.Scan
import HangAnalyzer.Proofs.Recorder.RoundTrip

/-!
# `HangAnalyzer.Proofs.Analyzer.Cycles`: when a stream cycle is reported

A reported cycle goes from a wait to the record its event got last, from there
to an earlier wait of the same stream, and so on. `Awaits` is two such steps
seen from the waits alone. `streamCyclesCandidate_eq_nil_iff` says that the
report is empty exactly when no wait awaits itself in this sense.

The record that `analyze` takes for a wait is the last one of the whole log,
also when it comes after the wait. So a hand-off between two streams that is
repeated with the same event ids looks circular (`repeated_handoff_reported`),
although each wait of it has its record before it.
-/

set_option autoImplicit false

namespace HangAnalyzer.Analyzer

open HangAnalyzer.Lib
open HangAnalyzer.Recorder

/-! ### Events of one rank -/

/-- The events of every rank carry its number, as `flight_record` writes it. -/
def OwnRank (ranks : Dict Nat Snapshot) : Prop :=
  ∀ rank data, ranks.get? rank = some data → ∀ e ∈ data.events, e.rank = rank

/-- A snapshot holds one event for each number. -/
theorem eq_of_seq {data : Snapshot} {e e' : Event} (he : e ∈ data.events) (he' : e' ∈ data.events)
    (h : e.seq = e'.seq) : e = e' := by
  have hne : data.events.Pairwise fun a b => a.seq ≠ b.seq :=
    data.sorted.imp fun hab => Nat.ne_of_lt hab
  have : Std.Symm fun a b : Event => a.seq ≠ b.seq := ⟨fun _ _ hab => hab.symm⟩
  by_contra hdiff
  exact hne.forall he he' hdiff h

/-- In the order of a snapshot, before means with a smaller number. -/
theorem mem_pre_iff {data : Snapshot} {pre post : List Event} {record wait : Event}
    (h : data.events = pre ++ record :: post) :
    wait ∈ pre ↔ wait ∈ data.events ∧ wait.seq < record.seq := by
  have hsorted := data.sorted
  rw [h, List.pairwise_append, List.pairwise_cons] at hsorted
  obtain ⟨-, ⟨hpost, -⟩, hpre⟩ := hsorted
  rw [h]
  constructor
  · exact fun hwait => ⟨List.mem_append_left _ hwait, hpre wait hwait record List.mem_cons_self⟩
  · -- The sequence number tells on which side of the record the wait is.
    rintro ⟨hwait, hlt⟩
    rcases List.mem_append.mp hwait with hpre' | hrest
    · exact hpre'
    · rcases List.mem_cons.mp hrest with rfl | hpost'
      · exact absurd hlt (Nat.lt_irrefl _)
      · exact absurd hlt (Nat.lt_asymm (hpost wait hpost'))

/-- The last record of an event id is one of the events. -/
theorem mem_of_lastRecord {events : List Event} {id : Nat} {e : Event}
    (h : lastRecord events id = some e) : e ∈ events ∧ e.type = .eventRecord := by
  have hmem := List.mem_of_getLast? h
  simp only [List.mem_filter, Bool.and_eq_true, decide_eq_true_eq] at hmem
  exact ⟨hmem.1, hmem.2.1⟩

/-! ### The edges between operations -/

/-- The edges of the dependency graph, by operation. -/
inductive OpEdge (ranks : Dict Nat Snapshot) : String → String → Prop where
  | record {rank : Nat} {data : Snapshot} {record wait : Event}
      (hdata : ranks.get? rank = some data) (hrecord : record ∈ data.events)
      (hrecordType : record.type = .eventRecord) (hwait : wait ∈ data.events)
      (hwaitType : wait.type = .eventWait) (hstream : wait.stream = record.stream)
      (hlt : wait.seq < record.seq) :
      OpEdge ranks (recordNode rank record) (waitNode rank wait)
  | wait {rank : Nat} {data : Snapshot} {wait producer : Event}
      (hdata : ranks.get? rank = some data) (hwait : wait ∈ data.events)
      (hwaitType : wait.type = .eventWait)
      (hproducer : lastRecord data.events wait.correlationId = some producer) :
      OpEdge ranks (waitNode rank wait) (recordNode rank producer)

/-- The edges of the graph given to `find_cycles` are those that the two loops add. -/
theorem mem_streamGraph {order : SetOrder String} {ranks : Dict Nat Snapshot} {scan : Scan}
    {x y : String} :
    (streamGraph order ranks scan).Edge x y ↔
      (∃ item ∈ ranks.items.map fun item => (item.1, item.2.events),
        RecordEdge item.1 item.2 x y) ∨
      ∃ wait ∈ scan.waits, WaitEdge scan.eventProducers wait x y := by
  rw [Graph.Edge, streamGraph, edgeGraph, (order.perm _).mem_iff, rankEdges, mem_dependencyEdges]

/-- The graph given to `find_cycles` has these edges, whatever the order of its
sets. -/
theorem edge_streamGraph (order : SetOrder String) {ranks : Dict Nat Snapshot}
    (hrank : OwnRank ranks) {x y : String} :
    (streamGraph order ranks (scanRanks ranks).1).Edge x y ↔ OpEdge ranks x y := by
  rw [mem_streamGraph]
  constructor
  · -- An edge of the graph is one of the two kinds.
    rintro (⟨item, hitem, pre, record, post, hsplit, hrecord, wait, hwait, hwaitType, hstream,
      rfl, rfl⟩ | ⟨wait, hwait, producer, hproducer, rfl, rfl⟩)
    · obtain ⟨⟨rank, data⟩, hmem, rfl⟩ := List.mem_map.mp hitem
      obtain ⟨hin, hlt⟩ := (mem_pre_iff hsplit).mp hwait
      have hself : record ∈ data.events := by
        show record ∈ (rank, data.events).2
        rw [hsplit]
        exact List.mem_append_right _ List.mem_cons_self
      exact .record (Dict.mem_items.mp hmem) hself hrecord hin hwaitType hstream hlt
    · obtain ⟨rank, data, hdata, hmem, htype⟩ := mem_waits.mp hwait
      have hr := hrank rank data hdata wait hmem
      rw [producerOf, hr, get?_eventProducers hdata] at hproducer
      rw [hr]
      exact .wait hdata hmem htype hproducer
  · -- Both kinds of edges are found by the scan.
    rintro (⟨hdata, hrecord, hrecordType, hwait, hwaitType, hstream, hlt⟩ |
      ⟨hdata, hwait, hwaitType, hproducer⟩)
    · rename_i rank data record wait
      obtain ⟨pre, post, hsplit⟩ := List.append_of_mem hrecord
      exact Or.inl ⟨(rank, data.events), List.mem_map.mpr ⟨_, Dict.mem_items.mpr hdata, rfl⟩,
        pre, record, post, hsplit, hrecordType, wait, (mem_pre_iff hsplit).mpr ⟨hwait, hlt⟩,
        hwaitType, hstream, rfl, rfl⟩
    · rename_i rank data wait producer
      have hr := hrank rank data hdata wait hwait
      refine Or.inr ⟨wait, mem_waits.mpr ⟨rank, data, hdata, hwait, hwaitType⟩, producer, ?_⟩
      rw [producerOf, hr, get?_eventProducers hdata]
      exact ⟨hproducer, rfl, rfl⟩

section
variable {ranks : Dict Nat Snapshot} {rank : Nat} {data : Snapshot}

/-- An edge from a wait leads to the record its event got last. -/
theorem OpEdge.of_waitNode {wait : Event} {y : String} (hdata : ranks.get? rank = some data)
    (hwait : wait ∈ data.events) (h : OpEdge ranks (waitNode rank wait) y) :
    wait.type = .eventWait ∧ ∃ producer, lastRecord data.events wait.correlationId = some producer ∧
      y = recordNode rank producer := by
  generalize hx : waitNode rank wait = x at h
  -- The node of a wait determines the rank and the event.
  cases h with
  | record => exact absurd hx (waitNode_ne_recordNode _ _ _ _)
  | wait hdata' hwait' htype hproducer =>
      obtain ⟨rfl, -, hseq⟩ := waitNode_inj hx
      obtain rfl := Option.some.inj (hdata.symm.trans hdata')
      obtain rfl := eq_of_seq hwait hwait' hseq
      exact ⟨htype, _, hproducer, rfl⟩

/-- An edge from a record leads to an earlier wait of its stream. -/
theorem OpEdge.of_recordNode {record : Event} {y : String} (hdata : ranks.get? rank = some data)
    (hrecord : record ∈ data.events) (h : OpEdge ranks (recordNode rank record) y) :
    ∃ wait ∈ data.events, wait.type = .eventWait ∧ wait.stream = record.stream ∧
      wait.seq < record.seq ∧ y = waitNode rank wait := by
  generalize hx : recordNode rank record = x at h
  -- The node of a record determines them as well.
  cases h with
  | record hdata' hrecord' _ hwait hwaitType hstream hlt =>
      obtain ⟨rfl, -, hseq⟩ := recordNode_inj hx
      obtain rfl := Option.some.inj (hdata.symm.trans hdata')
      obtain rfl := eq_of_seq hrecord hrecord' hseq
      exact ⟨_, hwait, hwaitType, hstream, hlt, rfl⟩
  | wait => exact absurd hx.symm (waitNode_ne_recordNode _ _ _ _)

end

/-! ### Waits that await waits -/

/-- The last record of the event of `wait` comes after the wait `earlier` on its
stream, so `wait` cannot return before `earlier` does. -/
def Awaits (events : List Event) (wait earlier : Event) : Prop :=
  wait ∈ events ∧ wait.type = .eventWait ∧ earlier ∈ events ∧ earlier.type = .eventWait ∧
    ∃ record, lastRecord events wait.correlationId = some record ∧
      earlier.stream = record.stream ∧ earlier.seq < record.seq

/-- On no rank does a wait await itself, be it through other waits. -/
def Untangled (ranks : Dict Nat Snapshot) : Prop :=
  ∀ rank data, ranks.get? rank = some data →
    ∀ wait, ¬ Relation.TransGen (Awaits data.events) wait wait

/-- Every wait comes after a record of its event, on its own rank. -/
def WaitsRecorded (ranks : Dict Nat Snapshot) : Prop :=
  ∀ rank data, ranks.get? rank = some data → ∀ wait ∈ data.events, wait.type = .eventWait →
    ∃ record ∈ data.events, record.type = .eventRecord ∧
      record.correlationId = wait.correlationId ∧ record.seq < wait.seq

section
variable {order : SetOrder String} {ranks : Dict Nat Snapshot} {rank : Nat} {data : Snapshot}

/-- An awaited wait is two edges away. -/
theorem Awaits.edges (hrank : OwnRank ranks) (hdata : ranks.get? rank = some data)
    {wait earlier : Event} (h : Awaits data.events wait earlier) :
    Relation.TransGen (streamGraph order ranks (scanRanks ranks).1).Edge
      (waitNode rank wait) (waitNode rank earlier) := by
  obtain ⟨hwait, hwaitType, hearlier, hearlierType, record, hrecord, hstream, hlt⟩ := h
  obtain ⟨hmem, hrecordType⟩ := mem_of_lastRecord hrecord
  have hfirst := OpEdge.wait hdata hwait hwaitType hrecord
  have hsecond := OpEdge.record hdata hmem hrecordType hearlier hearlierType hstream hlt
  exact .tail (.single ((edge_streamGraph order hrank).mpr hfirst))
    ((edge_streamGraph order hrank).mpr hsecond)

/-- The operations a walk from `wait` passes: records that the waits awaited so
far got last, and the waits awaited. -/
inductive Passed (rank : Nat) (events : List Event) (wait : Event) : String → Prop where
  | record {w record : Event} (hw : Relation.ReflTransGen (Awaits events) wait w)
      (hmem : w ∈ events) (htype : w.type = .eventWait)
      (hrecord : lastRecord events w.correlationId = some record) :
      Passed rank events wait (recordNode rank record)
  | wait {w : Event} (hmem : w ∈ events) (hw : Relation.TransGen (Awaits events) wait w) :
      Passed rank events wait (waitNode rank w)

/-- Every walk from a wait passes such operations only. -/
theorem passed_of_walk (hdata : ranks.get? rank = some data) {wait : Event}
    (hwait : wait ∈ data.events) {x : String}
    (h : Relation.TransGen (OpEdge ranks) (waitNode rank wait) x) :
    Passed rank data.events wait x := by
  induction h with
  | single hedge =>
      obtain ⟨htype, record, hrecord, rfl⟩ := hedge.of_waitNode hdata hwait
      exact .record .refl hwait htype hrecord
  -- From a wait the walk goes to its record, and from a record to an earlier wait.
  | tail _ hedge ih =>
      cases ih with
      | record hw hmem htype hrecord =>
          obtain ⟨hmemRecord, -⟩ := mem_of_lastRecord hrecord
          obtain ⟨earlier, hearlier, hearlierType, hstream, hlt, rfl⟩ :=
            hedge.of_recordNode hdata hmemRecord
          exact .wait hearlier
            (.tail' hw ⟨hmem, htype, hearlier, hearlierType, _, hrecord, hstream, hlt⟩)
      | wait hmem hw =>
          obtain ⟨htype, record, hrecord, rfl⟩ := hedge.of_waitNode hdata hmem
          exact .record hw.to_reflTransGen hmem htype hrecord

/-- A closed walk passes a wait. -/
theorem wait_of_closed_walk {x : String} (h : Relation.TransGen (OpEdge ranks) x x) :
    ∃ rank data wait, ranks.get? rank = some data ∧ wait ∈ data.events ∧
      Relation.TransGen (OpEdge ranks) (waitNode rank wait) (waitNode rank wait) := by
  obtain ⟨y, hedge, hrest⟩ := Relation.TransGen.head'_iff.mp h
  cases hedge with
  | record hdata hrecord hrecordType hwait hwaitType hstream hlt =>
      exact ⟨_, _, _, hdata, hwait,
        .tail' hrest (.record hdata hrecord hrecordType hwait hwaitType hstream hlt)⟩
  | wait hdata hwait hwaitType hproducer => exact ⟨_, _, _, hdata, hwait, h⟩

/-- The dependency graph has a cycle exactly when a wait awaits itself. -/
theorem acyclic_streamGraph_iff (order : SetOrder String) (hrank : OwnRank ranks) :
    (streamGraph order ranks (scanRanks ranks).1).Acyclic ↔ Untangled ranks := by
  constructor
  · -- A wait that awaits itself is a closed walk of the graph.
    intro hacyclic rank data hdata wait hself
    have hlift : ∀ w w', Relation.TransGen (Awaits data.events) w w' →
        Relation.TransGen (streamGraph order ranks (scanRanks ranks).1).Edge
          (waitNode rank w) (waitNode rank w') := by
      intro w w' h
      induction h with
      | single h => exact h.edges hrank hdata
      | tail _ h ih => exact ih.trans (h.edges hrank hdata)
    exact hacyclic _ (hlift wait wait hself)
  · -- A closed walk passes through some wait, which then awaits itself.
    intro huntangled x hcycle
    have hops : Relation.TransGen (OpEdge ranks) x x :=
      Relation.TransGen.mono (fun _ _ h => (edge_streamGraph order hrank).mp h) x x hcycle
    obtain ⟨rank, data, wait, hdata, hwait, hwalk⟩ := wait_of_closed_walk hops
    have hpassed := passed_of_walk hdata hwait hwalk
    generalize hx : waitNode rank wait = y at hpassed
    cases hpassed with
    | record => exact absurd hx (waitNode_ne_recordNode _ _ _ _)
    | wait hmem hw =>
        obtain rfl := eq_of_seq hwait hmem (waitNode_inj hx).2.2
        exact huntangled rank data hdata _ hw

end

/-- A wait that comes after the last record of its event awaits only waits
before itself, so a log in which all waits do is untangled. -/
theorem untangled_of_records_before {ranks : Dict Nat Snapshot}
    (h : ∀ rank data, ranks.get? rank = some data → ∀ wait ∈ data.events,
      wait.type = .eventWait → ∀ record, lastRecord data.events wait.correlationId = some record →
        record.seq < wait.seq) : Untangled ranks := by
  intro rank data hdata wait hself
  -- Each wait comes before the one it awaits is recorded, so the numbers go down.
  have hlt : ∀ w w', Relation.TransGen (Awaits data.events) w w' → w'.seq < w.seq := by
    intro w w' hw
    induction hw with
    | single hstep =>
        obtain ⟨hmem, htype, -, -, record, hrecord, -, hbefore⟩ := hstep
        exact hbefore.trans (h rank data hdata _ hmem htype record hrecord)
    | tail _ hstep ih =>
        obtain ⟨hmem, htype, -, -, record, hrecord, -, hbefore⟩ := hstep
        exact (hbefore.trans (h rank data hdata _ hmem htype record hrecord)).trans ih
  exact Nat.lt_irrefl _ (hlt wait wait hself)

/-! ### The report -/

/-- The reported cycles are those of the stream graph, so there are none exactly when it has
no closed walk. -/
theorem streamCycles_eq_nil_iff (order : SetOrder String) (files : List File)
    (expectedRanks : Option (Finset Int)) (communicatorId : Option Int) :
    (analyze order files expectedRanks communicatorId).streamCyclesCandidate = [] ↔
      (streamGraph order (selectRanks files).1 (scanRanks (selectRanks files).1).1).Acyclic :=
  findCycles_eq_nil_iff _

/-- **The report of stream cycles.** It is empty exactly when no wait awaits
itself. -/
theorem streamCyclesCandidate_eq_nil_iff (order : SetOrder String) (files : List File)
    (expectedRanks : Option (Finset Int)) (communicatorId : Option Int)
    (hrank : OwnRank (selectRanks files).1) :
    (analyze order files expectedRanks communicatorId).streamCyclesCandidate = [] ↔
      Untangled (selectRanks files).1 := by
  have hacyclic := acyclic_streamGraph_iff order hrank
  exact (streamCycles_eq_nil_iff order files expectedRanks communicatorId).trans hacyclic

/-! ### Files of a recorder -/

/-- Events that carry the rank of their file's header carry the rank they are
selected for. -/
theorem ownRank_of_files {files : List File}
    (h : ∀ file ∈ files, ∀ data, readFile file = .ok data →
      ∀ e ∈ data.events, e.rank = data.header.rank) : OwnRank (selectRanks files).1 := by
  intro rank data hdata e he
  obtain ⟨file, hfile, hread, hrank⟩ := exists_of_selectRanks hdata
  rw [h file hfile data hread e he, hrank]

/-- The file of a new recorder after any number of calls, as `analyze` selects
it. -/
theorem selectRanks_recordCalls {current : Option RecorderState} {path : Option String}
    {rank device : UInt16} {capacity : UInt64} {env : InitEnv} {r : RecorderState}
    (h : flightInit current path rank device capacity env = .ok r) (calls : List Call)
    (name : String) :
    ∃ r' s, recordCalls (some r) env.getpid calls = some r' ∧
      OwnRank (selectRanks [(name, .ok r'.file)]).1 ∧
      (∀ k, (selectRanks [(name, .ok r'.file)]).1.get? k
        = if k = rank.toNat then some s else none) ∧
      s.events = (Ring.events ⟨env.getpid.toNat, rank.toNat, device.toNat⟩ calls).drop
        (calls.length - Ring.retained capacity.toNat calls.length) := by
  obtain ⟨r', s, hr', -, hread, hheader, hevents⟩ := readEvents_recordCalls h calls name
  have hrank : s.header.rank = rank.toNat := by rw [hheader]
  have hfile : readFile (name, .ok r'.file) = .ok s := by rw [readFile_ok, hread]
  refine ⟨r', s, hr', ownRank_of_files ?_, ?_, hevents⟩
  · intro file hmem data hdata e he
    obtain rfl := List.mem_singleton.mp hmem
    obtain rfl := Except.ok.inj (hfile.symm.trans hdata)
    rw [hevents] at he
    obtain ⟨k, hk, rfl⟩ := List.mem_mapIdx.mp (List.mem_of_mem_drop he)
    exact hrank.symm
  · intro k
    have hnone : ∀ j, (selectRanks []).1.get? j = none := fun _ => rfl
    rw [← List.nil_append [_], selectRanks_new hfile (hnone _), Dict.get?_set, hrank, hnone]

/-- A hand-off between the streams 1 and 2: stream 1 records event 11 and
stream 2 waits for it, then stream 2 records event 22 and stream 1 waits for
it. -/
def handoff : List Call :=
  [⟨17, 1, 11, 0, 0, 0, 10, 101⟩, ⟨18, 2, 11, 0, 0, 0, 11, 101⟩,
    ⟨17, 2, 22, 0, 0, 0, 12, 101⟩, ⟨18, 1, 22, 0, 0, 0, 13, 101⟩]

/-- One hand-off is reported as no cycle. -/
theorem handoff_not_reported :
    ∃ r', recordCalls (some ⟨initRing 0 0 16 ⟨none, none, none, 100, 5, 7⟩, 16, 100⟩) 100 handoff
        = some r' ∧
      (analyze (.insertion String) [("r0.flight", .ok r'.file)] none none).streamCyclesCandidate
        = [] := by
  have hinit : flightInit none (some "r0.flight") 0 0 16 ⟨none, none, none, 100, 5, 7⟩
      = .ok ⟨initRing 0 0 16 ⟨none, none, none, 100, 5, 7⟩, 16, 100⟩ := rfl
  obtain ⟨r', s, hr', hown, hget, hevents⟩ := selectRanks_recordCalls hinit handoff "r0.flight"
  refine ⟨r', hr', (streamCyclesCandidate_eq_nil_iff _ _ _ _ hown).mpr ?_⟩
  refine untangled_of_records_before fun rank data hdata => ?_
  rw [hget] at hdata
  split at hdata
  · obtain rfl := Option.some.inj hdata
    rw [hevents]
    decide
  · cases hdata

/-- The same hand-off made twice is reported as a cycle, although each wait of it
comes after a record of its event. -/
theorem repeated_handoff_reported :
    ∃ r r', flightInit none (some "r0.flight") 0 0 16 ⟨none, none, none, 100, 5, 7⟩ = .ok r ∧
      recordCalls (some r) 100 (handoff ++ handoff) = some r' ∧
      WaitsRecorded (selectRanks [("r0.flight", .ok r'.file)]).1 ∧
      (analyze (.insertion String) [("r0.flight", .ok r'.file)] none none).streamCyclesCandidate
        ≠ [] := by
  have hinit : flightInit none (some "r0.flight") 0 0 16 ⟨none, none, none, 100, 5, 7⟩
      = .ok ⟨initRing 0 0 16 ⟨none, none, none, 100, 5, 7⟩, 16, 100⟩ := rfl
  obtain ⟨r', s, hr', hown, hget, hevents⟩ :=
    selectRanks_recordCalls hinit (handoff ++ handoff) "r0.flight"
  refine ⟨_, r', rfl, hr', ?_, fun hnil => ?_⟩
  · intro rank data hdata
    rw [hget] at hdata
    split at hdata
    · obtain rfl := Option.some.inj hdata
      rw [hevents]
      decide
    · cases hdata
  · -- The waits of the first hand-off await each other.
    have hacyclic := (streamCycles_eq_nil_iff _ _ _ _).mp hnil
    have huntangled := (acyclic_streamGraph_iff (.insertion String) hown).mp hacyclic
    have hdata : (selectRanks [("r0.flight", .ok r'.file)]).1.get? 0 = some s := by
      rw [hget]
      rfl
    refine huntangled 0 s hdata ⟨11, 2, 100, 101, 0, 0, 2, .eventWait, 0, 11, 0, 0⟩ ?_
    rw [hevents]
    refine .tail (b := ⟨13, 4, 100, 101, 0, 0, 1, .eventWait, 0, 22, 0, 0⟩) (.single ?_) ?_
    · refine ⟨by decide, rfl, by decide, rfl, ?_⟩
      exact ⟨⟨10, 5, 100, 101, 0, 0, 1, .eventRecord, 0, 11, 0, 0⟩, by decide⟩
    · refine ⟨by decide, rfl, by decide, rfl, ?_⟩
      exact ⟨⟨12, 7, 100, 101, 0, 0, 2, .eventRecord, 0, 22, 0, 0⟩, by decide⟩

end HangAnalyzer.Analyzer
