import Mathlib.Data.List.Induction
import Mathlib.Data.List.Sort
import HangAnalyzer.Analyzer.Analyze

/-!
# `HangAnalyzer.Proofs.Analyzer.Scan`: what the loop over the ranks collects

Three variables of the loop are shared by all ranks. `shared_scanRanks` turns
each of them into a fold over one list, `taggedEvents`: all events in the order
of the loop, each with its rank. `mem_waits`, `get?_eventProducers` and
`mem_entered` are then one induction each. The variables that are local to a
rank are filters of its events.

`mem_reports` and `mem_collectives` lead from an entry of the report back to the
snapshot and the group it is made from.
-/

set_option autoImplicit false

namespace HangAnalyzer.Analyzer

open HangAnalyzer.Lib
open HangAnalyzer.Recorder (EventType Event Snapshot)

/-! ### The selected files -/

/-- A file that could be opened is decoded. -/
@[simp] theorem readFile_ok (name : String) (raw : List UInt8) :
    readFile (name, .ok raw) = Recorder.readEvents name raw := rfl

/-- One more file is selected among those before. -/
theorem selectRanks_concat (files : List File) (file : File) :
    selectRanks (files ++ [file]) = selectFile (selectRanks files) file := by
  rw [selectRanks, List.foldl_append, List.foldl_cons, List.foldl_nil, selectRanks]

/-- What one more file can do: fill its rank, or change no rank. -/
theorem selectFile_cases (acc : Dict Nat Snapshot × List String) (file : File) :
    (∃ data, readFile file = .ok data ∧
      (selectFile acc file).1 = acc.1.set data.header.rank data) ∨
    (selectFile acc file).1 = acc.1 := by
  simp only [selectFile]
  -- A file is refused, taken as the first of its rank, or taken for its greater sequence.
  split
  · exact Or.inr rfl
  · rename_i data hread
    split
    · exact Or.inl ⟨data, hread, rfl⟩
    · split
      · exact Or.inl ⟨data, hread, rfl⟩
      · exact Or.inr rfl

/-- A rank's snapshot is that of one of the files, with the rank in its header. -/
theorem exists_of_selectRanks {files : List File} {rank : Nat} {data : Snapshot}
    (h : (selectRanks files).1.get? rank = some data) :
    ∃ file ∈ files, readFile file = .ok data ∧ data.header.rank = rank := by
  induction files using List.reverseRecOn generalizing data with
  | nil => simp [selectRanks, Dict.get?, Dict.empty] at h
  | append_singleton files file ih =>
      rw [selectRanks_concat] at h
      -- The last file was taken, or an earlier one was kept.
      rcases selectFile_cases (selectRanks files) file with ⟨new, hread, heq⟩ | heq
      · rw [heq, Dict.get?_set] at h
        split at h
        · rename_i hrank
          obtain rfl := Option.some.inj h
          exact ⟨file, List.mem_append_right _ List.mem_cons_self, hread, hrank.symm⟩
        · obtain ⟨f, hf, hrest⟩ := ih h
          exact ⟨f, List.mem_append_left _ hf, hrest⟩
      · rw [heq] at h
        obtain ⟨f, hf, hrest⟩ := ih h
        exact ⟨f, List.mem_append_left _ hf, hrest⟩

/-- A readable file of a new rank fills the rank. -/
theorem selectRanks_new {files : List File} {file : File} {data : Snapshot}
    (h : readFile file = .ok data) (hnew : (selectRanks files).1.get? data.header.rank = none) :
    (selectRanks (files ++ [file])).1 = (selectRanks files).1.set data.header.rank data := by
  rw [selectRanks_concat]
  simp only [selectFile, h, hnew]

/-! ### The loop over the ranks -/

/-- Sorting a dictionary keeps its items. -/
theorem sortedItems_perm {α : Type} (d : Dict Nat α) : (sortedItems d).Perm d.items :=
  List.mergeSort_perm _ _

/-- A fold seen through a field that every step updates on its own. -/
theorem foldl_field {σ τ β : Type} (field : σ → τ) (step : σ → β → σ) (step' : τ → β → τ)
    (h : ∀ s b, field (step s b) = step' (field s) b) (l : List β) (s : σ) :
    field (l.foldl step s) = l.foldl step' (field s) := by
  induction l generalizing s with
  | nil => rfl
  | cons b l ih => rw [List.foldl_cons, List.foldl_cons, ih, h]

/-- Appending under a condition, all along a list, is filtering it. -/
theorem foldl_appendIf (c : Event → Bool) (events l : List Event) :
    events.foldl (fun l e => appendIf (c e) l e) l = l ++ events.filter c := by
  induction events generalizing l with
  | nil => simp
  | cons e events ih =>
      rw [List.foldl_cons, ih, appendIf]
      cases hc : c e <;> simp [hc]

/-! ### The variables of one rank -/

section
variable (s : Scan) (rank : Nat) (events : List Event)

/-- A list that the loop starts anew for each rank is a filter of its events. -/
theorem filter_scanRank (field : Scan → List Event) (c : Event → Bool)
    (hstep : ∀ s e, field (scanEvent rank s e) = appendIf (c e) (field s) e)
    (hstart : field s.nextRank = []) :
    field (scanRank s rank events) = events.filter c := by
  rw [scanRank, foldl_field field (scanEvent rank) (fun l e => appendIf (c e) l e) hstep,
    foldl_appendIf, hstart, List.nil_append]

/-- The confirmations that a scan collects. -/
theorem confirmed_scanRank :
    (scanRank s rank events).confirmed = events.filter fun e => e.type = .deviceConfirmed :=
  filter_scanRank s rank events Scan.confirmed _ (fun _ _ => rfl) rfl

/-- The submissions that a scan collects. -/
theorem checkpointSubmitted_scanRank :
    (scanRank s rank events).checkpointSubmitted
      = events.filter fun e => e.type = .checkpoint && hasFlag e CHECKPOINT_SUBMITTED :=
  filter_scanRank s rank events Scan.checkpointSubmitted _ (fun _ _ => rfl) rfl

/-- The open scopes are those of the rank's own events. -/
theorem pending_scanRank :
    (scanRank s rank events).pending = events.foldl scanPending .empty :=
  foldl_field Scan.pending (scanEvent rank) scanPending (fun _ _ => rfl) events s.nextRank

end

/-! ### The shared variables -/

/-- All events in the order of the loop, with their ranks. -/
def taggedEvents (items : List (Nat × Snapshot)) : List (Nat × Event) :=
  items.flatMap fun item => item.2.events.map fun e => (item.1, e)

/-- The events of the first rank come first. -/
theorem taggedEvents_cons (item : Nat × Snapshot) (items : List (Nat × Snapshot)) :
    taggedEvents (item :: items)
      = (item.2.events.map fun e => (item.1, e)) ++ taggedEvents items := by
  simp [taggedEvents]

/-- An event is tagged with the rank whose log it is in. -/
theorem mem_taggedEvents {items : List (Nat × Snapshot)} {rank : Nat} {e : Event} :
    (rank, e) ∈ taggedEvents items ↔ ∃ data, (rank, data) ∈ items ∧ e ∈ data.events := by
  simp only [taggedEvents, List.mem_flatMap, List.mem_map, Prod.mk.injEq]
  constructor
  · rintro ⟨⟨r, data⟩, hitem, e', he', rfl, rfl⟩
    exact ⟨data, hitem, he'⟩
  · rintro ⟨data, hitem, he⟩
    exact ⟨(rank, data), hitem, e, he, rfl, rfl⟩

/-- A variable that the loop keeps from rank to rank is a fold over all events. -/
theorem shared_scanRanks {τ : Type} (field : Scan → τ) (step : Nat → τ → Event → τ)
    (hstep : ∀ rank s e, field (scanEvent rank s e) = step rank (field s) e)
    (hnext : ∀ s, field s.nextRank = field s) (ranks : Dict Nat Snapshot) :
    field (scanRanks ranks).1
      = (taggedEvents (sortedItems ranks)).foldl (fun x p => step p.1 x p.2) (field .init) := by
  -- The scan of a list starts from what the ranks before it have left.
  have hall : ∀ (items : List (Nat × Snapshot)) (acc : Scan × List (Nat × RankReport)),
      field (items.foldl scanNext acc).1
        = (taggedEvents items).foldl (fun x p => step p.1 x p.2) (field acc.1) := by
    intro items
    induction items with
    | nil => exact fun acc => rfl
    | cons item items ih =>
        intro acc
        have hrank : field (scanNext acc item).1
            = item.2.events.foldl (step item.1) (field acc.1) := by
          rw [scanNext, scanRank, foldl_field field (scanEvent item.1) (step item.1)
            (hstep item.1), hnext]
        rw [List.foldl_cons, ih, hrank, taggedEvents_cons, List.foldl_append, List.foldl_map]
  exact hall _ _

/-- The waits, rank by rank. -/
theorem waits_scanRanks (ranks : Dict Nat Snapshot) :
    (scanRanks ranks).1.waits
      = (sortedItems ranks).flatMap fun item => item.2.events.filter (·.type = .eventWait) := by
  have hshared := shared_scanRanks Scan.waits
    (fun _ l e => appendIf (e.type = .eventWait) l e) (fun _ _ _ => rfl) (fun _ => rfl) ranks
  rw [hshared, ← List.foldl_map (f := Prod.snd)
    (g := fun l e => appendIf (e.type = .eventWait) l e), foldl_appendIf]
  simp [Scan.init, taggedEvents, List.map_flatMap, List.filter_flatMap, Function.comp_def]

/-- The waits are those of all ranks. -/
theorem mem_waits {ranks : Dict Nat Snapshot} {e : Event} :
    e ∈ (scanRanks ranks).1.waits ↔
      ∃ rank data, ranks.get? rank = some data ∧ e ∈ data.events ∧ e.type = .eventWait := by
  simp only [waits_scanRanks, List.mem_flatMap, List.mem_filter, Prod.exists,
    (sortedItems_perm ranks).mem_iff, Dict.mem_items, decide_eq_true_eq]

/-- The last record of an event id among a rank's events. -/
def lastRecord (events : List Event) (id : Nat) : Option Event :=
  (events.filter fun e => e.type = .eventRecord && e.correlationId = id).getLast?

/-- The last record of an event id of a rank among tagged events. -/
def lastTagged (tagged : List (Nat × Event)) (rank id : Nat) : Option Event :=
  lastRecord ((tagged.filter fun p => p.1 = rank).map Prod.snd) id

/-- A fold that keeps the producers holds the last record of each event id. -/
theorem get?_foldl_scanProducers (tagged : List (Nat × Event)) (rank id : Nat) :
    (tagged.foldl (fun d p => scanProducers p.1 d p.2) .empty).get? (rank, id)
      = lastTagged tagged rank id := by
  induction tagged using List.reverseRecOn with
  | nil => rfl
  | append_singleton tagged p ih =>
      obtain ⟨r, e⟩ := p
      rw [List.foldl_concat, lastTagged, List.filter_append, List.map_append, lastRecord,
        List.filter_append, scanProducers]
      split
      · rename_i hrecord
        simp only at hrecord
        rw [Dict.get?_set]
        -- The new record is the last one of its rank and id only.
        by_cases hr : r = rank
        · by_cases hid : e.correlationId = id
          · simp [hr, hid, hrecord]
          · have hkey : ¬ (rank, id) = (r, e.correlationId) := by
              simp [Ne.symm hid]
            rw [if_neg hkey, ih]
            simp [hr, hid, hrecord, lastTagged, lastRecord]
        · have hkey : ¬ (rank, id) = (r, e.correlationId) := by
            simp [Ne.symm hr]
          rw [if_neg hkey, ih]
          simp [hr, lastTagged, lastRecord]
      · rename_i hrecord
        rw [ih]
        by_cases hr : r = rank <;> simp [hr, hrecord, lastTagged, lastRecord]

/-- A rank without a log has no events. -/
theorem filter_taggedEvents_nil {items : List (Nat × Snapshot)} {rank : Nat}
    (h : rank ∉ items.map Prod.fst) : (taggedEvents items).filter (fun p => p.1 = rank) = [] := by
  rw [List.filter_eq_nil_iff]
  rintro ⟨r, e⟩ hmem hr
  obtain ⟨data, hitem, -⟩ := mem_taggedEvents.mp hmem
  rw [decide_eq_true_eq] at hr
  exact h (List.mem_map.mpr ⟨_, hitem, hr⟩)

/-- Among the events of distinct ranks, those tagged with a rank are its events. -/
theorem filter_taggedEvents {items : List (Nat × Snapshot)} (hnodup : (items.map Prod.fst).Nodup)
    {rank : Nat} {data : Snapshot} (hitem : (rank, data) ∈ items) :
    ((taggedEvents items).filter fun p => p.1 = rank).map Prod.snd = data.events := by
  induction items with
  | nil => simp at hitem
  | cons item items ih =>
      obtain ⟨r, d⟩ := item
      rw [List.map_cons, List.nodup_cons] at hnodup
      rw [taggedEvents_cons, List.filter_append, List.map_append]
      -- The rank is this one, and it occurs only once.
      by_cases hr : r = rank
      · subst hr
        have hdata : data = d := by
          rcases List.mem_cons.mp hitem with heq | hmem
          · exact (Prod.mk.inj heq).2
          · exact absurd (List.mem_map.mpr ⟨_, hmem, rfl⟩) hnodup.1
        rw [filter_taggedEvents_nil hnodup.1, hdata]
        simp [List.filter_map, Function.comp_def]
      · -- The rank is a later one, and nothing of this one counts.
        have htail : (rank, data) ∈ items := by
          rcases List.mem_cons.mp hitem with heq | hmem
          · exact absurd (Prod.mk.inj heq).1.symm hr
          · exact hmem
        rw [ih hnodup.2 htail]
        simp [List.filter_map, Function.comp_def, hr]

/-- The events of the log of a rank, and none if the rank has no log. -/
def logOf (ranks : Dict Nat Snapshot) (rank : Nat) : List Event :=
  ((ranks.get? rank).map Snapshot.events).getD []

/-- The producer of an event id is the last record of the id in the log of the rank. -/
theorem eventProducers_eq (ranks : Dict Nat Snapshot) (rank id : Nat) :
    (scanRanks ranks).1.eventProducers.get? (rank, id) = lastRecord (logOf ranks rank) id := by
  have hperm := sortedItems_perm ranks
  have hnodup : ((sortedItems ranks).map Prod.fst).Nodup :=
    (hperm.map Prod.fst).nodup_iff.mpr ranks.nodup
  rw [shared_scanRanks Scan.eventProducers scanProducers (fun _ _ _ => rfl) (fun _ => rfl)]
  refine (get?_foldl_scanProducers _ rank id).trans ?_
  rw [lastTagged, logOf]
  -- A rank with no log has no producer.
  cases hdata : ranks.get? rank with
  | none =>
      have hnot : rank ∉ (sortedItems ranks).map Prod.fst := by
        intro hmem
        obtain ⟨⟨r, data⟩, hitem, rfl⟩ := List.mem_map.mp hmem
        rw [Dict.mem_items.mp (hperm.mem_iff.mp hitem)] at hdata
        cases hdata
      rw [filter_taggedEvents_nil hnot]
      rfl
  | some data =>
      rw [filter_taggedEvents hnodup (hperm.mem_iff.mpr (Dict.mem_items.mpr hdata))]
      rfl

/-- **The producers.** A rank's producer of an event id is the last record of
the id in the rank's events. -/
theorem get?_eventProducers {ranks : Dict Nat Snapshot} {rank id : Nat} {data : Snapshot}
    (hdata : ranks.get? rank = some data) :
    (scanRanks ranks).1.eventProducers.get? (rank, id) = lastRecord data.events id := by
  rw [eventProducers_eq, logOf, hdata]
  rfl

/-- The ranks that have entered an operation. -/
def entered (groups : Dict (Nat × Nat) (Dict Nat Event)) (key : Nat × Nat) : List Nat :=
  ((groups.get? key).getD .empty).keys

/-- One event enters its rank into its operation, if it begins one. -/
theorem mem_entered_scanGroups {groups : Dict (Nat × Nat) (Dict Nat Event)} {key : Nat × Nat}
    {rank r : Nat} {e : Event} :
    rank ∈ entered (scanGroups r groups e) key ↔ rank ∈ entered groups key ∨
      (rank = r ∧ e.type = .hcclBegin ∧ (e.arg0, e.correlationId) = key) := by
  unfold scanGroups
  split
  · rename_i hbegin
    rw [entered, Dict.get?_update]
    -- The event belongs to this operation, or to another one.
    by_cases hkey : key = (e.arg0, e.correlationId)
    · rw [if_pos hkey, Option.getD_some, Dict.keys_set, ← hkey]
      split
      · rename_i hmem
        constructor
        · exact Or.inl
        · rintro (hr | ⟨rfl, -, -⟩)
          · exact hr
          · exact hmem
      · rw [List.mem_append, List.mem_singleton]
        simp [entered, hbegin]
    · rw [if_neg hkey]
      simp [entered, Ne.symm hkey]
  · rename_i hbegin
    simp [hbegin]

/-- A fold that keeps the collectives knows who began which operation. -/
theorem mem_entered_foldl (tagged : List (Nat × Event)) (key : Nat × Nat) (rank : Nat) :
    rank ∈ entered (tagged.foldl (fun g p => scanGroups p.1 g p.2) .empty) key ↔
      ∃ e, (rank, e) ∈ tagged ∧ e.type = .hcclBegin ∧ (e.arg0, e.correlationId) = key := by
  induction tagged using List.reverseRecOn with
  | nil =>
      have hnone : entered .empty key = [] := rfl
      simp [hnone]
  | append_singleton tagged p ih =>
      obtain ⟨r, e⟩ := p
      rw [List.foldl_concat, mem_entered_scanGroups, ih]
      -- The new event is one that entered, or changes nothing.
      simp only [List.mem_append, List.mem_singleton, Prod.mk.injEq]
      constructor
      · rintro (⟨e', hmem, hrest⟩ | ⟨rfl, hrest⟩)
        · exact ⟨e', Or.inl hmem, hrest⟩
        · exact ⟨e, Or.inr ⟨rfl, rfl⟩, hrest⟩
      · rintro ⟨e', hmem | ⟨rfl, rfl⟩, hrest⟩
        · exact Or.inl ⟨e', hmem, hrest⟩
        · exact Or.inr ⟨rfl, hrest⟩

/-- **The collectives.** A rank has entered an operation exactly when its events
contain the begin of the operation. -/
theorem mem_entered {ranks : Dict Nat Snapshot} {key : Nat × Nat} {rank : Nat} :
    rank ∈ entered (scanRanks ranks).1.groups key ↔
      ∃ data, ranks.get? rank = some data ∧ ∃ e ∈ data.events, e.type = .hcclBegin ∧
        (e.arg0, e.correlationId) = key := by
  rw [shared_scanRanks Scan.groups scanGroups (fun _ _ _ => rfl) (fun _ => rfl)]
  refine (mem_entered_foldl _ key rank).trans ?_
  -- The tagged events are those of the logs.
  simp only [mem_taggedEvents, (sortedItems_perm ranks).mem_iff, Dict.mem_items]
  constructor
  · rintro ⟨e, ⟨data, hdata, he⟩, hrest⟩
    exact ⟨data, hdata, e, he, hrest⟩
  · rintro ⟨data, hdata, e, he, hrest⟩
    exact ⟨e, ⟨data, hdata, he⟩, hrest⟩

/-! ### The entries of the report -/

/-- The loop over the ranks appends one report for each of them. -/
theorem mem_foldl_scanNext (items : List (Nat × Snapshot)) (acc : Scan × List (Nat × RankReport))
    {rank : Nat} {report : RankReport} (h : (rank, report) ∈ (items.foldl scanNext acc).2) :
    (rank, report) ∈ acc.2 ∨ ∃ data before, (rank, data) ∈ items ∧
      report = rankReport data (scanRank before rank data.events) := by
  induction items generalizing acc with
  | nil => exact Or.inl h
  | cons item items ih =>
      -- The report is an earlier one, that of the next rank, or a later one.
      rw [List.foldl_cons] at h
      rcases ih _ h with hacc | ⟨data, before, hmem, heq⟩
      · simp only [scanNext, List.mem_append, List.mem_singleton, Prod.mk.injEq] at hacc
        rcases hacc with hold | ⟨rfl, rfl⟩
        · exact Or.inl hold
        · exact Or.inr ⟨item.2, acc.1, List.mem_cons_self, rfl⟩
      · exact Or.inr ⟨data, before, List.mem_cons_of_mem _ hmem, heq⟩

/-- The ranks are reported in the order of the loop. -/
theorem map_fst_scanRanks (ranks : Dict Nat Snapshot) :
    (scanRanks ranks).2.map Prod.fst = (sortedItems ranks).map Prod.fst := by
  have hall : ∀ (items : List (Nat × Snapshot)) (acc : Scan × List (Nat × RankReport)),
      (items.foldl scanNext acc).2.map Prod.fst = acc.2.map Prod.fst ++ items.map Prod.fst := by
    intro items
    induction items with
    | nil => exact fun acc => (List.append_nil _).symm
    | cons item items ih =>
        intro acc
        rw [List.foldl_cons, ih, scanNext, List.map_append, List.append_assoc]
        rfl
  exact (hall _ _).trans (List.nil_append _)

/-- Where `analyze` takes the collectives and the sections of the ranks from. -/
theorem analyze_fields (order : SetOrder String) (files : List File)
    (expectedRanks : Option (Finset Int)) (communicatorId : Option Int) :
    (analyze order files expectedRanks communicatorId).collectives
        = collectives (selectRanks files).1 (scanRanks (selectRanks files).1).1.groups
          expectedRanks communicatorId ∧
      (analyze order files expectedRanks communicatorId).ranks
        = (scanRanks (selectRanks files).1).2 := ⟨rfl, rfl⟩

section
variable {order : SetOrder String} {files : List File} {expectedRanks : Option (Finset Int)}
  {communicatorId : Option Int} {rank : Nat}

/-- A reported rank has a snapshot, and its section is made from it. -/
theorem mem_reports {report : RankReport}
    (h : (rank, report) ∈ (analyze order files expectedRanks communicatorId).ranks) :
    ∃ data before, (selectRanks files).1.get? rank = some data ∧
      report = rankReport data (scanRank before rank data.events) := by
  rw [(analyze_fields order files expectedRanks communicatorId).2] at h
  rcases mem_foldl_scanNext _ _ h with hnil | ⟨data, before, hmem, heq⟩
  · cases hnil
  · exact ⟨data, before, Dict.mem_items.mp ((sortedItems_perm _).mem_iff.mp hmem), heq⟩

/-- No rank is reported twice. -/
theorem nodup_reports :
    ((analyze order files expectedRanks communicatorId).ranks.map Prod.fst).Nodup := by
  rw [(analyze_fields order files expectedRanks communicatorId).2, map_fst_scanRanks]
  exact ((sortedItems_perm _).map Prod.fst).nodup_iff.mpr (selectRanks files).1.nodup

/-- Every rank with a snapshot is reported. -/
theorem exists_report {data : Snapshot} (h : (selectRanks files).1.get? rank = some data) :
    ∃ before, (rank, rankReport data (scanRank before rank data.events)) ∈
      (analyze order files expectedRanks communicatorId).ranks := by
  have hkeep : ∀ (items : List (Nat × Snapshot)) (acc : Scan × List (Nat × RankReport)),
      acc.2 ⊆ (items.foldl scanNext acc).2 := by
    intro items
    induction items with
    | nil => exact fun acc => List.Subset.refl _
    | cons item items ih => exact fun acc x hx => ih _ (List.mem_append_left _ hx)
  -- The report of a rank is added when its turn comes, and no later rank removes it.
  obtain ⟨pre, post, hsplit⟩ := List.append_of_mem
    ((sortedItems_perm _).mem_iff.mpr (Dict.mem_items.mpr h))
  refine ⟨(pre.foldl scanNext (.init, [])).1, ?_⟩
  rw [(analyze_fields order files expectedRanks communicatorId).2, scanRanks, hsplit,
    List.foldl_append, List.foldl_cons]
  exact hkeep post _ (List.mem_append_right _ List.mem_cons_self)

end

/-- A listed collective is that of a group. -/
theorem mem_collectives {ranks : Dict Nat Snapshot}
    {groups : Dict (Nat × Nat) (Dict Nat Event)} {expectedRanks : Option (Finset Int)}
    {communicatorId : Option Int} {c : Collective}
    (h : c ∈ collectives ranks groups expectedRanks communicatorId) :
    ∃ key members, groups.get? key = some members ∧
      c = collective ranks expectedRanks (key, members) := by
  simp only [collectives, List.mem_map, List.mem_filter] at h
  obtain ⟨⟨key, members⟩, ⟨hmem, -⟩, rfl⟩ := h
  rw [(List.mergeSort_perm _ _).mem_iff] at hmem
  exact ⟨key, members, Dict.mem_items.mp hmem, rfl⟩

/-- An operation that a rank has entered is listed. -/
theorem exists_collective {ranks : Dict Nat Snapshot}
    {groups : Dict (Nat × Nat) (Dict Nat Event)} (expectedRanks : Option (Finset Int))
    {key : Nat × Nat} {rank : Nat} (h : rank ∈ entered groups key) :
    ∃ c ∈ collectives ranks groups expectedRanks none,
      c.communicatorId = key.1 ∧ c.operationId = key.2 := by
  cases hget : groups.get? key with
  | none =>
      rw [entered, hget, Option.getD_none] at h
      cases h
  | some members =>
      refine ⟨_, List.mem_map.mpr ⟨(key, members), List.mem_filter.mpr ⟨?_, rfl⟩, rfl⟩, rfl, rfl⟩
      rw [(List.mergeSort_perm _ _).mem_iff]
      exact Dict.mem_items.mpr hget

/-- Where `analyze` takes the dependencies from. -/
theorem dependencies_analyze (order : SetOrder String) (files : List File)
    (expectedRanks : Option (Finset Int)) (communicatorId : Option Int) :
    (analyze order files expectedRanks communicatorId).dependencies
      = (scanRanks (selectRanks files).1).1.waits.map
          (dependency (scanRanks (selectRanks files).1).1.eventProducers) := rfl

end HangAnalyzer.Analyzer
