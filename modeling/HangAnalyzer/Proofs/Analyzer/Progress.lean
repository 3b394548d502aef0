import Mathlib.Data.List.Sort
import Mathlib.Order.Bounds.Basic
import HangAnalyzer.Proofs.Analyzer.Collectives

/-!
# `HangAnalyzer.Proofs.Analyzer.Progress`: the progress of the streams

`Describes` says what the section of a stream should contain, with the position
of the last checkpoint that has an exact confirmation, or `-1`.
`describes_streamProgress` proves it of the comprehensions of `analyze`, and
`streamProgress_congr` says what the section depends on: whether and where each
of the stream's own checkpoints is confirmed. `progress_exact` puts the two
together for a report.
-/

set_option autoImplicit false

namespace HangAnalyzer.Analyzer

open HangAnalyzer.Lib
open HangAnalyzer.Recorder

/-! ### What a log says about a stream -/

/-- The event submits a checkpoint. -/
def submits (e : Event) : Bool := e.type = .checkpoint && hasFlag e CHECKPOINT_SUBMITTED

/-- The checkpoints submitted on a stream, in the order of the log. -/
def submittedOn (stream : Nat) (events : List Event) : List Event :=
  (events.filter submits).filter fun e => e.stream = stream

/-- The event confirms the checkpoint of a key. -/
def confirms (key : CheckpointKey) (e : Event) : Bool :=
  e.type = .deviceConfirmed && e.arg1 != 0 && checkpointKey e = key

/-- The log confirms the checkpoint exactly. -/
def Confirmed (events : List Event) (c : Event) : Prop :=
  ∃ e ∈ events, confirms (checkpointKey c) e = true

/-- The section of a stream with the checkpoints `cs`, where `last` is the
position of the last one with an exact confirmation. -/
structure Describes (events cs : List Event) (last : Int) (p : Progress) : Prop where
  greatest : IsGreatest (insert (-1)
    {i : Int | ∃ (k : Nat) (c : Event), i = k ∧ cs[k]? = some c ∧ Confirmed events c}) last
  mappings : p.checkpointMappings.length = cs.length
  mapping (i : Nat) (c : Event) (m : Mapping) (hc : cs[i]? = some c)
    (hm : p.checkpointMappings[i]? = some m) :
    m.submittedSeq = c.arg0 ∧ m.checkpointId = c.correlationId ∧ m.generation = c.arg1 ∧
      (m.status = .confirmedExact ↔ Confirmed events c) ∧
      (m.status = .confirmedByLaterCheckpoint ↔ ¬ Confirmed events c ∧ (i : Int) < last) ∧
      (m.status = .unconfirmed ↔ last < i)
  submitted : p.submittedCount = cs.length
  nothing (h : last = -1) : p.completedSeq = 0 ∧ p.confirmedThrough = none
  completed (k : Nat) (c : Event) (h : last = k) (hc : cs[k]? = some c) :
    p.completedSeq = c.arg0 ∧ p.confirmedThrough = some c
  first : p.firstUnconfirmed = (cs.drop (last + 1).toNat).head?
  final : p.lastUnconfirmed = (cs.drop (last + 1).toNat).getLast?
  count : p.unconfirmedCount = (cs.drop (last + 1).toNat).length

/-! ### The dictionaries -/

/-- The exact confirmation of a key is the last event that confirms it. -/
theorem get?_exactConfirmations (events : List Event) (key : CheckpointKey) :
    (exactConfirmations (events.filter fun e => e.type = .deviceConfirmed)).get? key
      = events.reverse.find? (confirms key) := by
  rw [exactConfirmations, Dict.get?_foldl_set, ← List.filter_reverse, ← List.filter_reverse,
    List.find?_filter, List.find?_filter]
  refine congrArg (fun p => List.find? p events.reverse) (funext fun e => ?_)
  rw [Bool.eq_iff_iff]
  simp only [confirms, Bool.and_eq_true, decide_eq_true_eq]
  tauto

/-- A checkpoint is found among the confirmations when it was confirmed. -/
theorem isSome_exactConfirmations {events : List Event} {c : Event} :
    ((exactConfirmations (events.filter fun e => e.type = .deviceConfirmed)).get?
      (checkpointKey c)).isSome ↔ Confirmed events c := by
  rw [get?_exactConfirmations, List.find?_isSome]
  simp only [List.mem_reverse, Confirmed]

/-- The checkpoints of a stream, as the loop collects them. -/
theorem get?_byStream (events : List Event) (stream : Nat) :
    (byStream (events.filter submits)).get? stream
      = if submittedOn stream events = [] then none else some (submittedOn stream events) :=
  Dict.get?_foldl_collect Event.stream _ stream

/-! ### The section of a stream -/

/-- Events in the order of their numbers are sorted. -/
theorem sortBySeq_eq_self {l : List Event} (h : l.Pairwise (·.seq < ·.seq)) : sortBySeq l = l :=
  List.mergeSort_of_pairwise (h.imp fun hab => decide_eq_true (Nat.le_of_lt hab))

/-- The positions of the confirmed checkpoints. -/
theorem mem_confirmedIndices {exact : Dict CheckpointKey Event} {cs : List Event} {i : Nat} :
    i ∈ confirmedIndices exact cs ↔
      ∃ c, cs[i]? = some c ∧ (exact.get? (checkpointKey c)).isSome := by
  rw [confirmedIndices, List.mem_filter, List.mem_range]
  -- The indices are filtered by what the confirmations have.
  constructor
  · rintro ⟨hi, hsome⟩
    rw [List.getElem?_eq_getElem hi] at hsome ⊢
    exact ⟨_, rfl, hsome⟩
  · rintro ⟨c, hc, hsome⟩
    have hi : i < cs.length := (List.getElem?_eq_some_iff.mp hc).1
    rw [hc]
    exact ⟨hi, hsome⟩

/-- The value of `last_index`. -/
def lastPosition : Option Nat → Int
  | some i => i
  | none   => -1

section
variable {events cs : List Event} {exact : Dict CheckpointKey Event}
  (hexact : ∀ c, (exact.get? (checkpointKey c)).isSome ↔ Confirmed events c)
include hexact

/-- The last position is that of the last confirmed checkpoint, or `-1`. -/
theorem isGreatest_lastPosition :
    IsGreatest (insert (-1)
      {i : Int | ∃ (k : Nat) (c : Event), i = k ∧ cs[k]? = some c ∧ Confirmed events c})
      (lastPosition (confirmedIndices exact cs).max?) := by
  -- The greatest index is minus one when nothing is confirmed.
  cases hmax : (confirmedIndices exact cs).max? with
  | none =>
      rw [List.max?_eq_none_iff] at hmax
      refine ⟨Or.inl rfl, ?_⟩
      rintro i (rfl | ⟨k, c, rfl, hc, hconfirmed⟩)
      · exact le_refl _
      · have hmem := mem_confirmedIndices.mpr ⟨c, hc, (hexact c).mpr hconfirmed⟩
        rw [hmax] at hmem
        cases hmem
  -- It is a confirmed one, and no other is greater.
  | some last =>
      obtain ⟨hmem, hgreatest⟩ := List.max?_eq_some_iff.mp hmax
      obtain ⟨c, hc, hsome⟩ := mem_confirmedIndices.mp hmem
      refine ⟨Or.inr ⟨last, c, rfl, hc, (hexact c).mp hsome⟩, ?_⟩
      rintro i (rfl | ⟨k, d, rfl, hd, hconfirmed⟩)
      · show (-1 : Int) ≤ last
        omega
      · show (k : Int) ≤ last
        have hle := hgreatest k (mem_confirmedIndices.mpr ⟨d, hd, (hexact d).mpr hconfirmed⟩)
        omega

omit hexact in
/-- The status of a checkpoint at position `i`, if a confirmed one is not after the
last one and the last one is confirmed. -/
theorem status_iff {c : Event} {i last : Int} {exactly before : Bool}
    (hexactly : exactly = true ↔ Confirmed events c) (hbefore : before = true ↔ i ≤ last)
    (hbound : Confirmed events c → i ≤ last) (hlast : ¬ Confirmed events c → i ≠ last) :
    ((if exactly then Status.confirmedExact
        else if before then .confirmedByLaterCheckpoint else .unconfirmed) = .confirmedExact ↔
      Confirmed events c) ∧
    ((if exactly then Status.confirmedExact
        else if before then .confirmedByLaterCheckpoint else .unconfirmed)
        = .confirmedByLaterCheckpoint ↔ ¬ Confirmed events c ∧ i < last) ∧
    ((if exactly then Status.confirmedExact
        else if before then .confirmedByLaterCheckpoint else .unconfirmed) = .unconfirmed ↔
      last < i) := by
  -- The first case that holds decides, as in the code.
  cases exactly with
  | true =>
      have hconfirmed := hexactly.mp rfl
      simpa [hconfirmed] using hbound hconfirmed
  | false =>
      have hnot : ¬ Confirmed events c := fun h => Bool.false_ne_true (hexactly.mpr h)
      have hne := hlast hnot
      cases before with
      | true =>
          have hle := hbefore.mp rfl
          simp only [hnot, Bool.false_eq_true, if_false, if_true]
          simp only [reduceCtorEq, false_iff, true_iff, not_false_eq_true, true_and]
          omega
      | false =>
          have hlt : ¬ i ≤ last := fun h => Bool.false_ne_true (hbefore.mpr h)
          simp only [hnot, Bool.false_eq_true, if_false]
          simp only [reduceCtorEq, false_iff, true_iff, not_false_eq_true, true_and]
          omega

/-- **The section of a stream** is what it should be. -/
theorem describes_streamProgress (notReady : List Event) (hsorted : cs.Pairwise (·.seq < ·.seq)) :
    Describes events cs (lastPosition (confirmedIndices exact cs).max?)
      (streamProgress exact notReady cs) := by
  have hgreatest : IsGreatest _ (lastPosition (confirmedIndices exact cs).max?) :=
    isGreatest_lastPosition hexact
  have hcompleted : ∀ (k : Nat) (c : Event),
      lastPosition (confirmedIndices exact cs).max? = k → cs[k]? = some c →
      (confirmedIndices exact cs).max?.bind (fun i => cs[i]?) = some c := by
    intro k c hk hc
    cases hmax : (confirmedIndices exact cs).max? with
    | none =>
        rw [hmax] at hk
        cases hk
    | some last =>
        rw [hmax] at hk
        obtain rfl : last = k := Int.ofNat.inj hk
        exact hc
  have hnothing : lastPosition (confirmedIndices exact cs).max? = -1 →
      (confirmedIndices exact cs).max?.bind (fun i => cs[i]?) = none := by
    intro hlast
    cases hmax : (confirmedIndices exact cs).max? with
    | none => rfl
    | some last =>
        rw [hmax] at hlast
        cases hlast
  rw [streamProgress, sortBySeq_eq_self hsorted]
  refine ⟨hgreatest, List.length_mapIdx, ?_, rfl, ?_, ?_, ?_, ?_, ?_⟩
  · intro i c m hc hm
    rw [List.getElem?_mapIdx, hc, Option.map_some, Option.some.injEq] at hm
    subst hm
    refine ⟨rfl, rfl, rfl, ?_⟩
    have hle : (confirmedIndices exact cs).max?.any (fun last => decide (i ≤ last)) = true ↔
        (i : Int) ≤ lastPosition (confirmedIndices exact cs).max? := by
      cases (confirmedIndices exact cs).max? with
      | none =>
          simp [lastPosition]
          omega
      | some last => simp [lastPosition]
    -- A confirmed checkpoint is not after the last one.
    have hbound : Confirmed events c → (i : Int) ≤ lastPosition (confirmedIndices exact cs).max? :=
      fun hconfirmed => hgreatest.2 (Or.inr ⟨i, c, rfl, hc, hconfirmed⟩)
    -- The last one is confirmed.
    have hlast : ¬ Confirmed events c →
        (i : Int) ≠ lastPosition (confirmedIndices exact cs).max? := by
      intro hnot heq
      rcases hgreatest.1 with hneg | ⟨k, d, hk, hd, hconfirmed⟩
      · omega
      · obtain rfl : i = k := by omega
        obtain rfl := Option.some.inj (hc.symm.trans hd)
        exact hnot hconfirmed
    exact status_iff (hexact c) hle hbound hlast
  · intro hlast
    rw [hnothing hlast]
    exact ⟨rfl, rfl⟩
  · intro k c hk hc
    rw [hcompleted k c hk hc]
    exact ⟨rfl, rfl⟩
  all_goals cases (confirmedIndices exact cs).max? <;> rfl

end

/-- The section of a stream reads the confirmations of its own checkpoints only. -/
theorem streamProgress_congr {exact exact' : Dict CheckpointKey Event} {cs : List Event}
    (notReady : List Event)
    (h : ∀ c ∈ cs, exact.get? (checkpointKey c) = exact'.get? (checkpointKey c)) :
    streamProgress exact notReady cs = streamProgress exact' notReady cs := by
  have hsorted : ∀ c ∈ sortBySeq cs, exact.get? (checkpointKey c) = exact'.get? (checkpointKey c) :=
    fun c hc => h c (mem_sortBySeq.mp hc)
  -- Both dictionaries confirm the same submissions, and only these are asked for.
  have hindices :
      confirmedIndices exact (sortBySeq cs) = confirmedIndices exact' (sortBySeq cs) := by
    refine List.filter_congr fun i _ => ?_
    cases hget : (sortBySeq cs)[i]? with
    | none => rfl
    | some c => exact congrArg Option.isSome (hsorted c (List.mem_of_getElem? hget))
  have hmappings : ∀ last, (sortBySeq cs).mapIdx (mapping exact last)
      = (sortBySeq cs).mapIdx (mapping exact' last) := by
    intro last
    rw [List.mapIdx_eq_mapIdx_iff]
    intro i hi
    rw [mapping, mapping, hsorted _ (List.getElem_mem hi)]
  rw [streamProgress, streamProgress]
  simp only [hindices, hmappings]

/-! ### The section of a rank -/

section
variable (before : Scan) (rank : Nat) (events : List Event)

/-- The observations that a scan collects. -/
theorem notReadyObservations_scanRank :
    (scanRank before rank events).notReadyObservations
      = events.filter fun e => e.type = .checkpoint && hasFlag e CHECKPOINT_NOT_READY :=
  filter_scanRank before rank events Scan.notReadyObservations _ (fun _ _ => rfl) rfl

/-- The section of a rank, from its events alone. -/
theorem checkpointProgress_scanRank :
    checkpointProgress (scanRank before rank events)
      = (byStream (events.filter submits)).items.map fun (stream, checkpoints) =>
          (stream, streamProgress
            (exactConfirmations (events.filter fun e => e.type = .deviceConfirmed))
            (events.filter fun e => e.type = .checkpoint && hasFlag e CHECKPOINT_NOT_READY)
            checkpoints) := by
  rw [checkpointProgress, checkpointSubmitted_scanRank, confirmed_scanRank,
    notReadyObservations_scanRank]
  rfl

/-- The section has one entry for each stream with a submitted checkpoint. -/
theorem mem_checkpointProgress {stream : Nat} {p : Progress} :
    (stream, p) ∈ checkpointProgress (scanRank before rank events) ↔
      submittedOn stream events ≠ [] ∧ p = streamProgress
        (exactConfirmations (events.filter fun e => e.type = .deviceConfirmed))
        (events.filter fun e => e.type = .checkpoint && hasFlag e CHECKPOINT_NOT_READY)
        (submittedOn stream events) := by
  rw [checkpointProgress_scanRank, List.mem_map]
  -- There is one entry for each stream with a submission.
  constructor
  · rintro ⟨⟨stream', cs⟩, hmem, heq⟩
    obtain ⟨rfl, rfl⟩ := Prod.mk.inj heq
    rw [Dict.mem_items, get?_byStream] at hmem
    split at hmem
    · cases hmem
    · rename_i hne
      obtain rfl := Option.some.inj hmem
      exact ⟨hne, rfl⟩
  · rintro ⟨hne, rfl⟩
    refine ⟨(stream, submittedOn stream events), ?_, rfl⟩
    rw [Dict.mem_items, get?_byStream, if_neg hne]

end

/-- Each entry of the section describes the checkpoints of its stream, in the order of their
numbers. -/
theorem describes_checkpointProgress (before : Scan) (rank : Nat) (data : Snapshot)
    {stream : Nat} {p : Progress}
    (hp : (stream, p) ∈ checkpointProgress (scanRank before rank data.events)) :
    (submittedOn stream data.events).Pairwise (·.seq < ·.seq) ∧
      ∃ last, Describes data.events (submittedOn stream data.events) last p := by
  obtain ⟨-, rfl⟩ := (mem_checkpointProgress before rank data.events).mp hp
  have hsorted : (submittedOn stream data.events).Pairwise (·.seq < ·.seq) :=
    (data.sorted.filter _).filter _
  exact ⟨hsorted, _, describes_streamProgress (fun c => isSome_exactConfirmations) _ hsorted⟩

/-- The event has no part in the progress of the log: a confirmation of no
submitted checkpoint, or a checkpoint record that neither submits nor says that a
checkpoint is not ready, as those that only say `POOL_FULL` or `QUERY_ERROR`. -/
def Irrelevant (events : List Event) (e : Event) : Prop :=
  (e.type = .deviceConfirmed ∧
    ∀ c ∈ events, submits c = true → confirms (checkpointKey c) e = false) ∨
  (e.type = .checkpoint ∧ hasFlag e CHECKPOINT_SUBMITTED = false ∧
    hasFlag e CHECKPOINT_NOT_READY = false)

instance (events : List Event) (e : Event) : Decidable (Irrelevant events e) :=
  inferInstanceAs (Decidable (_ ∨ _))

/-- Irrelevant events can be removed. -/
theorem checkpointProgress_filter (before before' : Scan) (rank rank' : Nat) {events : List Event}
    {keep : Event → Bool} (hkeep : ∀ e ∈ events, keep e = false → Irrelevant events e) :
    checkpointProgress (scanRank before' rank' (events.filter keep))
      = checkpointProgress (scanRank before rank events) := by
  -- What the section reads is kept.
  have hfilter : ∀ p : Event → Bool, (∀ e, Irrelevant events e → p e = false) →
      (events.filter keep).filter p = events.filter p := by
    intro p hp
    rw [List.filter_filter]
    refine List.filter_congr fun e he => ?_
    cases hk : keep e with
    | true => rw [Bool.and_true]
    | false => rw [hp e (hkeep e he hk), Bool.false_and]
  have hsubmits : (events.filter keep).filter submits = events.filter submits := by
    refine hfilter submits fun e hirrelevant => ?_
    rcases hirrelevant with ⟨htype, -⟩ | ⟨-, hflag, -⟩
    · simp [submits, htype]
    · simp [submits, hflag]
  have hnotReady := hfilter
    (fun e => e.type = .checkpoint && hasFlag e CHECKPOINT_NOT_READY) fun e hirrelevant => by
      rcases hirrelevant with ⟨htype, -⟩ | ⟨-, -, hflag⟩
      · simp [htype]
      · simp [hflag]
  rw [checkpointProgress_scanRank, checkpointProgress_scanRank, hsubmits, hnotReady]
  refine List.map_congr_left fun item hitem => ?_
  obtain ⟨stream, cs⟩ := item
  refine Prod.ext rfl (streamProgress_congr _ fun c hc => ?_)
  -- A confirmation of a submitted checkpoint is kept.
  have hsubmitted : c ∈ events ∧ submits c = true := by
    rw [Dict.mem_items, get?_byStream] at hitem
    split at hitem
    · cases hitem
    · obtain rfl := Option.some.inj hitem
      exact List.mem_filter.mp (List.mem_filter.mp hc).1
  have hconfirms := hfilter (confirms (checkpointKey c)) fun e hirrelevant => by
    rcases hirrelevant with ⟨-, hnone⟩ | ⟨htype, -⟩
    · exact hnone c hsubmitted.1 hsubmitted.2
    · simp [confirms, htype]
  rw [get?_exactConfirmations, get?_exactConfirmations, ← List.getLast?_filter,
    ← List.getLast?_filter, hconfirms]

/-- **Progress.** For every rank of a report: the section has one entry for each
stream with a submitted checkpoint, the entry describes the stream's checkpoints
in the order of their numbers, and any report about a log from which irrelevant
events have been removed has the same section. -/
theorem progress_exact (order : SetOrder String) (files : List File)
    (expectedRanks : Option (Finset Int)) (communicatorId : Option Int) (rank : Nat)
    (report : RankReport)
    (hreport : (rank, report) ∈ (analyze order files expectedRanks communicatorId).ranks) :
    ∃ data, (selectRanks files).1.get? rank = some data ∧
      (report.deviceCheckpointProgress.map Prod.fst).Nodup ∧
      (∀ stream, stream ∈ report.deviceCheckpointProgress.map Prod.fst ↔
        submittedOn stream data.events ≠ []) ∧
      (∀ stream p, (stream, p) ∈ report.deviceCheckpointProgress →
        (submittedOn stream data.events).Pairwise (·.seq < ·.seq) ∧
          ∃ last, Describes data.events (submittedOn stream data.events) last p) ∧
      ∀ (files' : List File) (rank' : Nat) (report' : RankReport) (data' : Snapshot)
        (keep : Event → Bool),
        (rank', report') ∈ (analyze order files' expectedRanks communicatorId).ranks →
        (selectRanks files').1.get? rank' = some data' →
        data'.events = data.events.filter keep →
        (∀ e ∈ data.events, keep e = false → Irrelevant data.events e) →
        report'.deviceCheckpointProgress = report.deviceCheckpointProgress := by
  obtain ⟨data, before, hdata, rfl⟩ := mem_reports hreport
  have hkeys : (checkpointProgress (scanRank before rank data.events)).map Prod.fst
      = (byStream (data.events.filter submits)).keys := by
    rw [checkpointProgress_scanRank, List.map_map]
    rfl
  refine ⟨data, hdata, ?_, fun stream => ?_, fun stream p hp => ?_, ?_⟩
  · -- The entries are grouped in a dictionary, so each stream comes once.
    exact hkeys ▸ (byStream _).nodup
  · show stream ∈ (checkpointProgress (scanRank before rank data.events)).map Prod.fst ↔ _
    rw [hkeys, Dict.mem_keys]
    simp only [get?_byStream]
    split <;> simp_all
  · exact describes_checkpointProgress before rank data hp
  · -- The events that are left out were not read for this section.
    intro files' rank' report' data' keep hreport' hdata' hevents hkeep
    obtain ⟨data'', before', hdata'', rfl⟩ := mem_reports hreport'
    obtain rfl := Option.some.inj (hdata'.symm.trans hdata'')
    show checkpointProgress _ = checkpointProgress _
    rw [hevents, checkpointProgress_filter before before' rank rank' hkeep]

/-- Stream 12 submits two checkpoints and the first is confirmed. -/
def halfConfirmed : List Call :=
  [⟨23, 12, 700, 100, 1, 1, 10, 101⟩, ⟨24, 12, 700, 100, 1, 0, 11, 102⟩,
    ⟨23, 12, 701, 120, 2, 1, 12, 101⟩]

/-- A confirmation of an older generation changes nothing. -/
theorem progress_exact_stale :
    ∃ files files' report report' data, (selectRanks files).1.get? 0 = some data ∧
      (0, report) ∈ (analyze (.insertion String) files none none).ranks ∧
      (0, report') ∈ (analyze (.insertion String) files' none none).ranks ∧
      12 ∈ report.deviceCheckpointProgress.map Prod.fst ∧
      (∀ p, (12, p) ∈ report.deviceCheckpointProgress →
        ∃ last, Describes data.events (submittedOn 12 data.events) last p) ∧
      report'.deviceCheckpointProgress = report.deviceCheckpointProgress := by
  obtain ⟨files, data, report, hget, hevents, hreport⟩ :=
    exists_log (halfConfirmed ++ [⟨24, 12, 701, 120, 1, 0, 13, 102⟩])
  obtain ⟨files', data', report', hget', hevents', hreport'⟩ := exists_log halfConfirmed
  obtain ⟨data'', hget'', -, hstreams, hdescribes, hremove⟩ := progress_exact _ _ _ _ _ _ hreport
  obtain rfl := Option.some.inj (hget.symm.trans hget'')
  refine ⟨files, files', report, report', data, hget, hreport, hreport', ?_, ?_, ?_⟩
  · rw [hstreams, hevents]
    decide
  · exact fun p hp => (hdescribes 12 p hp).2
  · refine hremove files' 0 report' data' (fun e => e.seq != 4) hreport' hget' ?_ ?_
    · rw [hevents', hevents]
      decide
    · rw [hevents]
      decide

end HangAnalyzer.Analyzer
