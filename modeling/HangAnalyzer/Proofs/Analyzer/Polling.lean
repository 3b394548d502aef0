import HangAnalyzer.Proofs.Analyzer.Collectives

/-!
# `HangAnalyzer.Proofs.Analyzer.Polling`: the poller's records

The checkpoint poller writes `DEVICE_CONFIRMED` records and `CHECKPOINT` records
without the `SUBMITTED` flag. `polls_invisible` compares two analyses, one of
logs from which some of these records are deleted: the host view, the
collectives, the dependencies and the edges are the same.

The comparison goes through the logs: each of these sections is a function of
the events of the ranks (`logs`), and each fold over the events skips the
poller's records.
-/

set_option autoImplicit false

namespace HangAnalyzer.Analyzer

open HangAnalyzer.Lib
open HangAnalyzer.Recorder

/-! ### The logs of the ranks -/

/-- The ranks with their events, in the order of the files. -/
def logs (ranks : Dict Nat Snapshot) : List (Nat × List Event) :=
  ranks.items.map fun item => (item.1, item.2.events)

/-- The ranks with their events, in the order of the loop. -/
def sortedLogs (ranks : Dict Nat Snapshot) : List (Nat × List Event) :=
  (logs ranks).mergeSort fun a b => a.1 ≤ b.1

/-- The logs of the sorted ranks. -/
theorem map_sortedItems (ranks : Dict Nat Snapshot) :
    (sortedItems ranks).map (fun item => (item.1, item.2.events)) = sortedLogs ranks :=
  List.map_mergeSort fun _ _ _ _ => rfl

/-- All events in the order of the loop. -/
theorem taggedEvents_sortedItems (ranks : Dict Nat Snapshot) :
    taggedEvents (sortedItems ranks)
      = (sortedLogs ranks).flatMap fun log => log.2.map fun e => (log.1, e) := by
  rw [← map_sortedItems, List.flatMap_map]
  rfl

/-- What the report shows of the host: for each rank the last host event and the
open scopes. -/
def hostView (reports : List (Nat × RankReport)) : List (Nat × Option Event × List Event) :=
  reports.map fun item => (item.1, item.2.lastHostEvent, item.2.outstandingHostScopes)

/-- The host view of one log. -/
def logView (log : Nat × List Event) : Nat × Option Event × List Event :=
  (log.1, (log.2.filter isHostEvent).getLast?, (log.2.foldl scanPending .empty).values)

/-- What the host sees of a scan is what it sees of each log. -/
theorem hostView_scanRanks (ranks : Dict Nat Snapshot) :
    hostView (scanRanks ranks).2 = (sortedLogs ranks).map logView := by
  -- Each rank adds its own view, whatever came before.
  have hall : ∀ (items : List (Nat × Snapshot)) (acc : Scan × List (Nat × RankReport)),
      hostView (items.foldl scanNext acc).2
        = hostView acc.2 ++ items.map fun item => logView (item.1, item.2.events) := by
    intro items
    induction items with
    | nil => exact fun acc => (List.append_nil _).symm
    | cons item items ih =>
        intro acc
        rw [List.foldl_cons, ih, hostView, scanNext, List.map_append, List.append_assoc]
        show _ ++ ((_, _, (scanRank _ _ _).pending.values) :: _) = _
        rw [pending_scanRank]
        rfl
  rw [scanRanks, hall, ← map_sortedItems, List.map_map]
  rfl

/-! ### Deleting records of the poller -/

/-- The log without the deleted records of the poller. -/
def withoutPolls (keep : Nat → Event → Bool) (log : Nat × List Event) : Nat × List Event :=
  (log.1, log.2.filter fun e => isHostEvent e || keep log.1 e)

/-- The second logs are the first without some records of the poller. -/
def PollsDeleted (ranks ranks' : Dict Nat Snapshot) : Prop :=
  ∃ keep, logs ranks' = (logs ranks).map (withoutPolls keep)

/-- A fold that skips some elements does not see them deleted. -/
theorem foldl_filter_of_skip {σ α : Type} {step : σ → α → σ} {p : α → Bool}
    (h : ∀ s a, p a = false → step s a = s) (l : List α) (s : σ) :
    (l.filter p).foldl step s = l.foldl step s := by
  induction l generalizing s with
  | nil => rfl
  | cons a l ih =>
      cases hp : p a with
      | true => rw [List.filter_cons_of_pos hp, List.foldl_cons, List.foldl_cons, ih]
      | false => rw [List.filter_cons_of_neg (by simp [hp]), List.foldl_cons, h s a hp, ih]

/-- The types a record of the poller can have. -/
theorem type_of_poll {e : Event} (h : isHostEvent e = false) :
    e.type = .deviceConfirmed ∨ e.type = .checkpoint := by
  simp only [isHostEvent, Bool.not_eq_false', Bool.or_eq_true, Bool.and_eq_true,
    decide_eq_true_eq] at h
  exact h.imp id And.left

section
variable {ranks ranks' : Dict Nat Snapshot} {keep : Nat → Event → Bool}

/-- An event that is deleted is none of the host. -/
theorem host_of_deleted {rank : Nat} {e : Event} (h : (isHostEvent e || keep rank e) = false) :
    isHostEvent e = false := (Bool.or_eq_false_iff.mp h).1

/-- The sorted logs without some polls. -/
theorem sortedLogs_withoutPolls (h : logs ranks' = (logs ranks).map (withoutPolls keep)) :
    sortedLogs ranks' = (sortedLogs ranks).map (withoutPolls keep) := by
  have hmap := List.map_mergeSort (f := withoutPolls keep) (l := logs ranks)
    (r := fun a b => decide (a.1 ≤ b.1)) (s := fun a b => decide (a.1 ≤ b.1))
    fun _ _ _ _ => rfl
  rw [sortedLogs, h, sortedLogs, hmap]

/-- The events of all ranks without some polls. -/
theorem taggedEvents_withoutPolls (h : logs ranks' = (logs ranks).map (withoutPolls keep)) :
    taggedEvents (sortedItems ranks')
      = (taggedEvents (sortedItems ranks)).filter fun p => isHostEvent p.2 || keep p.1 p.2 := by
  rw [taggedEvents_sortedItems, taggedEvents_sortedItems, sortedLogs_withoutPolls h,
    List.flatMap_map, List.filter_flatMap]
  refine congrArg (fun f => List.flatMap f _) (funext fun log => ?_)
  rw [List.filter_map]
  rfl

/-- A variable that the loop keeps from rank to rank, and that records of the poller
do not change, is the same. -/
theorem shared_withoutPolls (h : logs ranks' = (logs ranks).map (withoutPolls keep)) {τ : Type}
    (field : Scan → τ) (step : Nat → τ → Event → τ)
    (hstep : ∀ rank s e, field (scanEvent rank s e) = step rank (field s) e)
    (hnext : ∀ s, field s.nextRank = field s)
    (hskip : ∀ rank x e, isHostEvent e = false → step rank x e = x) :
    field (scanRanks ranks').1 = field (scanRanks ranks).1 := by
  rw [shared_scanRanks field step hstep hnext, shared_scanRanks field step hstep hnext,
    taggedEvents_withoutPolls h]
  exact foldl_filter_of_skip (fun x p hp => hskip p.1 x p.2 (host_of_deleted hp)) _ _

/-- The polls are in no group of a collective. -/
theorem groups_withoutPolls (h : logs ranks' = (logs ranks).map (withoutPolls keep)) :
    (scanRanks ranks').1.groups = (scanRanks ranks).1.groups := by
  refine shared_withoutPolls h Scan.groups scanGroups (fun _ _ _ => rfl) (fun _ => rfl) ?_
  intro rank groups e he
  rcases type_of_poll he with htype | htype <;> simp [scanGroups, htype]

/-- The polls record no event. -/
theorem eventProducers_withoutPolls (h : logs ranks' = (logs ranks).map (withoutPolls keep)) :
    (scanRanks ranks').1.eventProducers = (scanRanks ranks).1.eventProducers := by
  refine shared_withoutPolls h Scan.eventProducers scanProducers (fun _ _ _ => rfl)
    (fun _ => rfl) ?_
  intro rank producers e he
  rcases type_of_poll he with htype | htype <;> simp [scanProducers, htype]

/-- The polls wait for no event. -/
theorem waits_withoutPolls (h : logs ranks' = (logs ranks).map (withoutPolls keep)) :
    (scanRanks ranks').1.waits = (scanRanks ranks).1.waits := by
  refine shared_withoutPolls h Scan.waits (fun _ l e => appendIf (e.type = .eventWait) l e)
    (fun _ _ _ => rfl) (fun _ => rfl) ?_
  intro rank waits e he
  rcases type_of_poll he with htype | htype <;> simp [appendIf, htype]

/-- The host sees the same without some polls. -/
theorem hostView_withoutPolls (h : logs ranks' = (logs ranks).map (withoutPolls keep)) :
    hostView (scanRanks ranks').2 = hostView (scanRanks ranks).2 := by
  rw [hostView_scanRanks, hostView_scanRanks, sortedLogs_withoutPolls h, List.map_map]
  refine List.map_congr_left fun log _ => ?_
  show (_, _, _) = (_, _, _)
  -- The polls are no host events, so the last host event is the same.
  have hlast : (log.2.filter fun e => isHostEvent e || keep log.1 e).filter isHostEvent
      = log.2.filter isHostEvent := by
    rw [List.filter_filter]
    refine List.filter_congr fun e _ => ?_
    cases isHostEvent e <;> rfl
  -- They neither open nor end a scope.
  have hpending : (log.2.filter fun e => isHostEvent e || keep log.1 e).foldl scanPending .empty
      = log.2.foldl scanPending .empty := by
    refine foldl_filter_of_skip (fun pending e he => ?_) _ _
    rcases type_of_poll (host_of_deleted he) with htype | htype <;>
      simp [scanPending, htype, opens, PAIRS, beginOf]
  rw [withoutPolls, hlast, hpending]

/-- The ranks that have ended an operation, from the logs. -/
theorem map_filter_endsIn (ranks : Dict Nat Snapshot) (comm op : Nat) :
    (ranks.items.filter fun item => endsIn comm op item.2.events).map Prod.fst
      = ((logs ranks).filter fun log => endsIn comm op log.2).map Prod.fst := by
  rw [logs, List.filter_map, List.map_map]
  rfl

/-- The report of a collective is the same without some polls. -/
theorem collective_withoutPolls (h : logs ranks' = (logs ranks).map (withoutPolls keep))
    (expectedRanks : Option (Finset Int)) :
    collective ranks' expectedRanks = collective ranks expectedRanks := by
  refine funext fun group => ?_
  obtain ⟨⟨comm, op⟩, members⟩ := group
  -- They end no collective.
  have hends : ((ranks'.items.filter fun item => endsIn comm op item.2.events).map Prod.fst)
      = (ranks.items.filter fun item => endsIn comm op item.2.events).map Prod.fst := by
    rw [map_filter_endsIn, map_filter_endsIn, h, List.filter_map, List.map_map]
    have hlog : ((fun log : Nat × List Event => endsIn comm op log.2) ∘ withoutPolls keep)
        = fun log => endsIn comm op log.2 := by
      refine funext fun log => ?_
      show (log.2.filter _).any _ = log.2.any _
      rw [List.any_filter]
      refine congrArg (fun p => List.any log.2 p) (funext fun e => ?_)
      cases hhost : isHostEvent e with
      | true => simp
      | false => rcases type_of_poll hhost with htype | htype <;> simp [htype]
    rw [hlog]
    rfl
  simp only [collective, hends]

/-- The edges from the records of one log do not see the poller's records. -/
theorem recordEdges_withoutPolls (ls : List (Nat × List Event)) :
    recordEdges (ls.map (withoutPolls keep)) = recordEdges ls := by
  rw [recordEdges, recordEdges, List.foldl_map]
  refine congrArg (fun f => List.foldl f _ ls) (funext fun edges => funext fun log => ?_)
  show ((log.2.filter _).foldl (recordEdge log.1) _).2 = _
  rw [foldl_filter_of_skip]
  rintro ⟨priorWaits, edges⟩ e he
  rcases type_of_poll (host_of_deleted he) with htype | htype <;> simp [recordEdge, htype]

end

/-- The edges depend on the logs, the producers and the waits only. -/
theorem rankEdges_eq (ranks : Dict Nat Snapshot) (scan : Scan) :
    rankEdges ranks scan = dependencyEdges (logs ranks) scan.eventProducers scan.waits := rfl

/-- **Background polling.** Two reports about logs that differ in deleted records of
the poller have the same host view, the same collectives, the same dependencies
and the same edges. -/
theorem polls_invisible (order : SetOrder String) (files files' : List File)
    (expectedRanks : Option (Finset Int)) (communicatorId : Option Int)
    (h : PollsDeleted (selectRanks files).1 (selectRanks files').1) :
    hostView (analyze order files' expectedRanks communicatorId).ranks
        = hostView (analyze order files expectedRanks communicatorId).ranks ∧
      (analyze order files' expectedRanks communicatorId).collectives
        = (analyze order files expectedRanks communicatorId).collectives ∧
      (analyze order files' expectedRanks communicatorId).dependencies
        = (analyze order files expectedRanks communicatorId).dependencies ∧
      rankEdges (selectRanks files').1 (scanRanks (selectRanks files').1).1
        = rankEdges (selectRanks files).1 (scanRanks (selectRanks files).1).1 := by
  obtain ⟨keep, hlogs⟩ := h
  obtain ⟨hcollectives, hranks⟩ := analyze_fields order files expectedRanks communicatorId
  obtain ⟨hcollectives', hranks'⟩ := analyze_fields order files' expectedRanks communicatorId
  rw [hcollectives, hranks, hcollectives', hranks', dependencies_analyze, dependencies_analyze]
  refine ⟨hostView_withoutPolls hlogs, ?_, ?_, ?_⟩
  · rw [collectives, collectives, groups_withoutPolls hlogs, collective_withoutPolls hlogs]
  · rw [eventProducers_withoutPolls hlogs, waits_withoutPolls hlogs]
  · rw [rankEdges_eq, rankEdges_eq, eventProducers_withoutPolls hlogs, waits_withoutPolls hlogs,
      hlogs, dependencyEdges, dependencyEdges, recordEdges_withoutPolls]

/-- A single selected rank makes a single log. -/
theorem logs_eq_singleton {ranks : Dict Nat Snapshot} {data : Snapshot}
    (h : ∀ k, ranks.get? k = if k = 0 then some data else none) :
    logs ranks = [(0, data.events)] := by
  -- The dictionary has the one entry.
  have hmem : ∀ item : Nat × Snapshot, item ∈ ranks.items ↔ item = (0, data) := by
    rintro ⟨k, d⟩
    rw [Dict.mem_items, h]
    split
    · rename_i hk
      simp [hk, eq_comm]
    · rename_i hk
      simp [hk]
  have hperm : ranks.items.Perm [(0, data)] :=
    (List.perm_ext_iff_of_nodup (List.Nodup.of_map _ ranks.nodup) (List.nodup_singleton _)).mpr
      fun item => by rw [hmem, List.mem_singleton]
  rw [logs, List.perm_singleton.mp hperm]
  rfl

/-- A request and a submitted checkpoint. -/
def hostCalls : List Call := [⟨1, 0, 42, 0, 0, 0, 10, 101⟩, ⟨23, 12, 700, 100, 1, 1, 11, 101⟩]

/-- Without the confirmation and the record that the checkpoint was not ready, the
report shows the same host. -/
theorem polls_invisible_confirmed :
    ∃ files files', PollsDeleted (selectRanks files).1 (selectRanks files').1 ∧
      logs (selectRanks files).1 ≠ logs (selectRanks files').1 ∧
      hostView (analyze (.insertion String) files' none none).ranks
        = hostView (analyze (.insertion String) files none none).ranks := by
  obtain ⟨run, hrank, -, -, hevents⟩ := exists_rankRun "r0.flight" 0 0 16
    ⟨none, none, none, 100, 5, 7⟩ (by decide)
    (hostCalls ++ [⟨23, 12, 700, 100, 1, 8, 12, 102⟩, ⟨24, 12, 700, 100, 1, 0, 13, 102⟩])
  obtain ⟨run', hrank', -, -, hevents'⟩ := exists_rankRun "r0.flight" 0 0 16
    ⟨none, none, none, 100, 5, 7⟩ (by decide) hostCalls
  have hlogs := logs_eq_singleton (get?_selectRanks_single hrank)
  have hlogs' := logs_eq_singleton (get?_selectRanks_single hrank')
  -- The second file has the same host calls and no polls.
  have hpolls : PollsDeleted (selectRanks [run.file]).1 (selectRanks [run'.file]).1 := by
    refine ⟨fun _ _ => false, ?_⟩
    rw [hlogs, hlogs', hevents, hevents']
    decide
  refine ⟨[run.file], [run'.file], hpolls, ?_,
    (polls_invisible (.insertion String) [run.file] [run'.file] none none hpolls).1⟩
  rw [hlogs, hlogs', hevents, hevents']
  decide

end HangAnalyzer.Analyzer
