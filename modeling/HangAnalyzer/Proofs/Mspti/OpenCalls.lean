import HangAnalyzer.Mspti.Report
import HangAnalyzer.Proofs.Readers
import HangAnalyzer.Proofs.Mspti.RoundTrip

/-!
# `HangAnalyzer.Proofs.Mspti.OpenCalls`: callbacks on a wrapped ring

`report` starts in the middle of a run. An exit it meets may belong to an enter that was
overwritten, and must not close another call with the same key.

The invariant compares the stacks of `pending` with the stack of calls of each thread, as
the thread itself has it since the start of the run. The stack of a key is the part of the
thread's stack that has the key and lies in the window (`pending_eq`). Since a thread's
calls nest, an exit without its enter finds nothing of its key in the window.
-/

set_option autoImplicit false

namespace HangAnalyzer.Mspti

open HangAnalyzer.Lib

/-- The callbacks of a thread. -/
def threadCalls (tid : Nat) (events : List Event) : List Event :=
  events.filter fun e => e.tid = tid ∧ e.callback.isSome

/-- The calls of a thread that run after the events. -/
def threadStack (tid : Nat) (events : List Event) : List Event :=
  stackOf Event.callback (threadCalls tid events)

/-- On each thread the callbacks are a prefix of a well-nested word. -/
def Nests (run : List Event) : Prop :=
  ∀ tid, ∃ rest, WellNested Event.callback (threadCalls tid run ++ rest)

/-- The stack of a key, or the empty one. -/
def stackOfKey (pending : Dict CallKey (List Event)) (key : CallKey) : List Event :=
  (pending.get? key).getD []

/-! ### Threads -/

/-- A callback is matched on its own thread. -/
theorem tid_of_callback {e : Event} {b : Bracket CallKey} (h : e.callback = some b) :
    (∃ d, b = .enter (d, e.tid, e.code)) ∨ ∃ d, b = .exit (d, e.tid, e.code) := by
  unfold Event.callback at h
  split at h
  · exact .inl ⟨_, (Option.some.inj h).symm⟩
  · exact .inl ⟨_, (Option.some.inj h).symm⟩
  · exact .inr ⟨_, (Option.some.inj h).symm⟩
  · exact .inr ⟨_, (Option.some.inj h).symm⟩
  · cases h

/-- The key of an entry has the thread of its event. -/
theorem tid_of_enter {e : Event} {key : CallKey} (h : e.callback = some (.enter key)) :
    key.2.1 = e.tid := by
  rcases tid_of_callback h with ⟨d, hkey⟩ | ⟨d, hkey⟩
  · obtain rfl := Bracket.enter.inj hkey
    rfl
  · cases hkey

/-- The key of an exit has the thread of its event. -/
theorem tid_of_exit {e : Event} {key : CallKey} (h : e.callback = some (.exit key)) :
    key.2.1 = e.tid := by
  rcases tid_of_callback h with ⟨d, hkey⟩ | ⟨d, hkey⟩
  · cases hkey
  · obtain rfl := Bracket.exit.inj hkey
    rfl

/-- A callback goes to the word of its thread. -/
theorem threadCalls_concat {a : Event} {b : Bracket CallKey} (h : a.callback = some b)
    (tid : Nat) (l : List Event) :
    threadCalls tid (l ++ [a])
      = if a.tid = tid then threadCalls tid l ++ [a] else threadCalls tid l := by
  unfold threadCalls
  rw [List.filter_append]
  by_cases htid : a.tid = tid
  · rw [if_pos htid]
    simp [htid, h]
  · rw [if_neg htid]
    simp [htid]

/-- An activity record is no word of any thread. -/
theorem threadCalls_concat_none {a : Event} (h : a.callback = none) (tid : Nat)
    (l : List Event) : threadCalls tid (l ++ [a]) = threadCalls tid l := by
  unfold threadCalls
  rw [List.filter_append]
  simp [h]

/-- The stack of a thread is a part of its events, in order. -/
theorem sublist_threadStack (tid : Nat) (l : List Event) : (threadStack tid l).Sublist l :=
  (sublist_stackOf _).trans List.filter_sublist

/-- A shorter run nests too. -/
theorem Nests.of_append {l l' : List Event} (h : Nests (l ++ l')) : Nests l := by
  intro tid
  obtain ⟨rest, hrest⟩ := h tid
  refine ⟨threadCalls tid l' ++ rest, ?_⟩
  unfold threadCalls at hrest ⊢
  rwa [List.filter_append, List.append_assoc] at hrest

/-- An enter goes on the stack of its thread. -/
theorem threadStack_enter {a : Event} {key : CallKey} (h : a.callback = some (.enter key))
    (tid : Nat) (l : List Event) :
    threadStack tid (l ++ [a])
      = if a.tid = tid then threadStack tid l ++ [a] else threadStack tid l := by
  unfold threadStack
  rw [threadCalls_concat h]
  by_cases htid : a.tid = tid
  · rw [if_pos htid, if_pos htid, stackOf_concat, pushPop_enter h]
  · rw [if_neg htid, if_neg htid]

/-- An exit takes the innermost call of its thread away, which has its key. -/
theorem threadStack_exit {a : Event} {key : CallKey} {l : List Event}
    (h : a.callback = some (.exit key)) (hnests : Nests (l ++ [a])) :
    ∃ e, e.callback = some (.enter key) ∧
      threadStack a.tid l = threadStack a.tid (l ++ [a]) ++ [e] := by
  -- The thread nests, so its exit belongs to the innermost call.
  obtain ⟨rest, hrest⟩ := hnests a.tid
  have hword := threadCalls_concat h a.tid l
  rw [if_pos rfl] at hword
  rw [hword, List.append_assoc] at hrest
  obtain ⟨s, e, hstack, henter⟩ := stackOf_exit hrest h
  refine ⟨e, henter, ?_⟩
  unfold threadStack
  rw [hword, stackOf_concat, pushPop_exit h, hstack, List.dropLast_concat]

/-- An exit leaves the other threads alone. -/
theorem threadStack_exit_of_ne {a : Event} {key : CallKey} (h : a.callback = some (.exit key))
    {tid : Nat} (htid : a.tid ≠ tid) (l : List Event) :
    threadStack tid (l ++ [a]) = threadStack tid l := by
  unfold threadStack
  rw [threadCalls_concat h, if_neg htid]

/-! ### The stacks of the report -/

/-- An update changes the stack of its key only. -/
theorem stackOfKey_update (pending : Dict CallKey (List Event)) (key key' : CallKey)
    (f : List Event → List Event) :
    stackOfKey (pending.update key [] f) key'
      = if key' = key then f (stackOfKey pending key') else stackOfKey pending key' := by
  unfold stackOfKey
  rw [Dict.get?_update]
  by_cases hkey : key' = key
  · rw [if_pos hkey, if_pos hkey, Option.getD_some, hkey]
  · rw [if_neg hkey, if_neg hkey]

/-- The part of a thread's stack that has a key and lies in the window. -/
def keptCalls (key : CallKey) (window stack : List Event) : List Event :=
  stack.filter fun e => e.callback = some (.enter key) ∧ e ∈ window

/-- What is kept of a stack, one part after the other. -/
theorem keptCalls_append (key : CallKey) (window s s' : List Event) :
    keptCalls key window (s ++ s') = keptCalls key window s ++ keptCalls key window s' :=
  List.filter_append _ _

/-- An event that is not on the stack does not change what is kept of it. -/
theorem keptCalls_concat {key : CallKey} {window stack : List Event} {a : Event}
    (h : a ∉ stack) : keptCalls key (window ++ [a]) stack = keptCalls key window stack := by
  unfold keptCalls
  refine List.filter_congr fun e he => ?_
  have hne : e ≠ a := fun heq => h (heq ▸ he)
  simp [hne]

/-- If the innermost call was overwritten, so were those around it. -/
theorem keptCalls_of_overwritten {key : CallKey} {pre window s : List Event} {e : Event}
    (hsub : (s ++ [e]).Sublist (pre ++ window)) (hnodup : (pre ++ window).Nodup)
    (he : e ∉ window) : keptCalls key window (s ++ [e]) = [] := by
  obtain ⟨l₁, l₂, heq, hl₁, hl₂⟩ := List.sublist_append_iff.mp hsub
  cases l₂ using List.reverseRecOn with
  -- The stack lies before the window, so none of its calls is kept.
  | nil =>
      rw [List.append_nil] at heq
      rw [heq]
      refine List.filter_eq_nil_iff.mpr fun y hy => ?_
      have hdisjoint := (List.nodup_append.mp hnodup).2.2 y (hl₁.subset hy)
      simp only [decide_eq_true_eq, not_and]
      intro _ hmem
      exact hdisjoint y hmem rfl
  -- The innermost call would be in the window.
  | append_singleton l₂ y =>
      rw [← List.append_assoc] at heq
      obtain ⟨-, hlast⟩ := List.append_inj' heq rfl
      obtain rfl := List.singleton_inj.mp hlast
      exact absurd (hl₂.subset (by simp)) he

/-- A pop takes away what is kept of the innermost call, if it has the key. -/
theorem keptCalls_pop {key : CallKey} {pre window s : List Event} {e : Event}
    (henter : e.callback = some (.enter key)) (hsub : (s ++ [e]).Sublist (pre ++ window))
    (hnodup : (pre ++ window).Nodup) :
    (keptCalls key window (s ++ [e])).dropLast = keptCalls key window s := by
  by_cases he : e ∈ window
  · have hlast : keptCalls key window [e] = [e] := by
      simp [keptCalls, henter, he]
    rw [keptCalls_append, hlast, List.dropLast_concat]
  · -- The call was overwritten, so there is nothing to pop.
    have hnil : keptCalls key window (s ++ [e]) = [] :=
      keptCalls_of_overwritten hsub hnodup he
    rw [hnil]
    rw [keptCalls_append, List.append_eq_nil_iff] at hnil
    rw [hnil.1]
    rfl

/-- A call of another key is not kept. -/
theorem keptCalls_of_ne {key key' : CallKey} {window s : List Event} {e : Event}
    (henter : e.callback = some (.enter key')) (hkey : key ≠ key') :
    keptCalls key window (s ++ [e]) = keptCalls key window s := by
  have hlast : keptCalls key window [e] = [] := by
    simp [keptCalls, henter, Ne.symm hkey]
  rw [keptCalls_append, hlast, List.append_nil]

/-- **The invariant of `pending`**: the stack of a key holds the calls of the key that run on
its thread and entered in the window. -/
theorem pending_eq {pre window : List Event} (hnodup : (pre ++ window).Nodup)
    (hnests : Nests (pre ++ window)) (key : CallKey) :
    stackOfKey (pendingCalls window) key
      = keptCalls key window (threadStack key.2.1 (pre ++ window)) := by
  induction window using List.reverseRecOn with
  | nil => simp [pendingCalls, stackOfKey, keptCalls]
  | append_singleton window a ih =>
      rw [← List.append_assoc] at hnodup hnests ⊢
      have hfresh : a ∉ pre ++ window := by
        intro hmem
        exact (List.nodup_append.mp hnodup).2.2 a hmem a (List.mem_singleton_self a) rfl
      have hnotin : a ∉ threadStack key.2.1 (pre ++ window) :=
        fun hmem => hfresh ((sublist_threadStack _ _).subset hmem)
      have ih := ih (List.nodup_append.mp hnodup).1 hnests.of_append
      show stackOfKey ((window ++ [a]).foldl pendingStep .empty) key = _
      rw [List.foldl_concat]
      change stackOfKey (pendingStep (pendingCalls window) a) key = _
      unfold pendingStep
      split
      · rename_i key' henter
        rw [stackOfKey_update, ih, threadStack_enter henter, ← tid_of_enter henter]
        by_cases hkey : key = key'
        · have hlast : keptCalls key (window ++ [a]) [a] = [a] := by
            simp [keptCalls, henter, hkey]
          rw [if_pos hkey, if_pos (by rw [hkey]), keptCalls_append, keptCalls_concat hnotin, hlast]
        · rw [if_neg hkey]
          -- The enter may be on the same thread, but it has another key.
          split
          · rw [keptCalls_of_ne henter hkey, keptCalls_concat hnotin]
          · rw [keptCalls_concat hnotin]
      · rename_i key' hexit
        rw [stackOfKey_update, ih]
        by_cases htid : a.tid = key.2.1
        · obtain ⟨e, henter, hstack⟩ := threadStack_exit hexit hnests
          rw [htid] at hstack
          have hsub := sublist_threadStack key.2.1 (pre ++ window)
          rw [hstack] at hsub hnotin
          have hrest : a ∉ threadStack key.2.1 (pre ++ window ++ [a]) :=
            fun hmem => hnotin (List.mem_append_left _ hmem)
          rw [hstack, keptCalls_concat hrest]
          by_cases hkey : key = key'
          · subst hkey
            rw [if_pos rfl, keptCalls_pop henter hsub (List.nodup_append.mp hnodup).1]
          · rw [if_neg hkey, keptCalls_of_ne henter hkey]
        · have hkey : key ≠ key' := by
            rintro rfl
            exact htid (tid_of_exit hexit).symm
          rw [if_neg hkey, threadStack_exit_of_ne hexit htid, keptCalls_concat hnotin]
      · rename_i hnone
        rw [threadStack, threadCalls_concat_none hnone, ← threadStack, ih, keptCalls_concat hnotin]

/-! ### The open calls -/

section
variable {pre window : List Event} (hnodup : (pre ++ window).Nodup)
  (hnests : Nests (pre ++ window))
include hnodup hnests

/-- The calls of a key, before the sort. -/
theorem mem_stackOfKey {key : CallKey} {e : Event} :
    e ∈ stackOfKey (pendingCalls window) key ↔
      e ∈ window ∧ e.callback = some (.enter key) ∧
        ¬ Returns Event.callback (threadCalls e.tid (pre ++ window)) e := by
  rw [pending_eq hnodup hnests, keptCalls, List.mem_filter]
  simp only [decide_eq_true_eq]
  obtain ⟨rest, hrest⟩ := hnests key.2.1
  rw [threadStack, mem_stackOf hrest (hnodup.filter _)]
  -- A call is open in the thread, and the window has its enter.
  constructor
  · rintro ⟨⟨-, -, hnot⟩, hkey, hmem⟩
    rw [tid_of_enter hkey] at hnot
    exact ⟨hmem, hkey, hnot⟩
  · rintro ⟨hmem, hkey, hnot⟩
    rw [tid_of_enter hkey]
    refine ⟨⟨?_, ⟨key, hkey⟩, hnot⟩, hkey, hmem⟩
    exact List.mem_filter.mpr ⟨List.mem_append_right _ hmem, by simp [hkey]⟩

/-- The stacks of two keys have no call in common, and no call occurs twice. -/
theorem nodup_pending : (pendingCalls window).values.flatten.Nodup := by
  have hstack : ∀ p ∈ (pendingCalls window).items,
      p.2 = stackOfKey (pendingCalls window) p.1 := by
    intro p hp
    rw [stackOfKey, Dict.mem_items.mp hp, Option.getD_some]
  rw [List.nodup_flatten, Dict.values, List.pairwise_map]
  -- The stack of a key is a part of that of its thread.
  constructor
  · intro stack hmem
    obtain ⟨p, hp, rfl⟩ := List.mem_map.mp hmem
    rw [hstack p hp, pending_eq hnodup hnests]
    exact ((sublist_threadStack _ _).nodup hnodup).filter _
  · -- Two keys have no call in common.
    have hkeys := List.pairwise_map.mp (pendingCalls window).nodup
    refine hkeys.imp_of_mem fun {p q} hp hq hne e hep heq => ?_
    rw [hstack p hp, mem_stackOfKey hnodup hnests] at hep
    rw [hstack q hq, mem_stackOfKey hnodup hnests] at heq
    have hsame := hep.2.1.symm.trans heq.2.1
    rw [Option.some.injEq, Bracket.enter.injEq] at hsame
    exact hne hsame

/-- The open calls are the entries of the window whose call has not returned. -/
theorem mem_openCalls {e : Event} :
    e ∈ openCalls window ↔ e ∈ window ∧ (∃ key, e.callback = some (.enter key)) ∧
      ¬ Returns Event.callback (threadCalls e.tid (pre ++ window)) e := by
  -- The open calls are those of all stacks, in one list.
  have hkeys : e ∈ openCalls window ↔ ∃ key, e ∈ stackOfKey (pendingCalls window) key := by
    rw [openCalls, List.mem_mergeSort, List.mem_flatten]
    constructor
    · rintro ⟨stack, hstack, he⟩
      obtain ⟨key, hkey⟩ := Dict.mem_values.mp hstack
      exact ⟨key, by rwa [stackOfKey, hkey, Option.getD_some]⟩
    · rintro ⟨key, he⟩
      unfold stackOfKey at he
      cases hkey : (pendingCalls window).get? key with
      | none =>
          rw [hkey] at he
          cases he
      | some stack =>
          rw [hkey] at he
          exact ⟨stack, Dict.mem_values.mpr ⟨key, hkey⟩, he⟩
  rw [hkeys]
  simp only [mem_stackOfKey hnodup hnests]
  constructor
  · rintro ⟨key, hmem, hkey, hnot⟩
    exact ⟨hmem, ⟨key, hkey⟩, hnot⟩
  · rintro ⟨hmem, ⟨key, hkey⟩, hnot⟩
    exact ⟨key, hmem, hkey, hnot⟩

/-- The sort puts the calls in the order of their numbers. -/
theorem sorted_openCalls (hseq : window.Pairwise (·.seq < ·.seq)) :
    (openCalls window).Pairwise (·.seq < ·.seq) := by
  have hle : (openCalls window).Pairwise fun a b => a.seq ≤ b.seq := by
    have hsorted := @List.pairwise_mergeSort _ (fun a b : Event => decide (a.seq ≤ b.seq))
      (by simpa using fun _ _ _ => Nat.le_trans) (by simpa using fun _ _ => Nat.le_total _ _)
      (pendingCalls window).values.flatten
    simpa [openCalls] using hsorted
  have hne : (openCalls window).Nodup :=
    (List.mergeSort_perm _ _).nodup_iff.mpr (nodup_pending hnodup hnests)
  refine (hle.and hne).imp_of_mem fun {a b} ha hb hab => ?_
  -- Two events of the window with one number are the same event.
  have hnumbers : (window.map Event.seq).Nodup := by
    rw [List.Nodup, List.pairwise_map]
    exact hseq.imp fun hlt => Nat.ne_of_lt hlt
  refine Nat.lt_of_le_of_ne hab.1 fun heq => hab.2 ?_
  exact List.inj_on_of_nodup_map hnumbers ((mem_openCalls hnodup hnests).mp ha).1
    ((mem_openCalls hnodup hnests).mp hb).1 heq

end

/-- The events of a file have increasing numbers. -/
theorem sorted_of_readFile {file : List UInt8} {h : RingHeader} {events : List Event}
    (hread : readFile file = .ok (h, events)) : events.Pairwise (·.seq < ·.seq) := by
  rcases readFile_cases file with ⟨text, herror, -⟩ | ⟨h', -, -, hok, -⟩
  · rw [herror] at hread
    cases hread
  · rw [hok] at hread
    obtain ⟨-, rfl⟩ := Prod.mk.inj (Except.ok.inj hread)
    exact sorted_seqScan _ (sorted_window _ _)

/-- **Callback pairing is exact on a wrapped window.** The callbacks of each thread are a
prefix of a well-nested word, and the ring retains a suffix of the run. The open calls of
the report are the enters of the window whose exit is not in the run, in the order of their
numbers. -/
theorem open_calls_exact {file : List UInt8} {tail : Int} {h : RingHeader}
    {window run : List Event} (hread : readFile file = .ok (h, window))
    (hsuffix : window <:+ run) (hrun : run.Pairwise (·.seq < ·.seq)) (hnests : Nests run) :
    ∃ r, report file tail = .ok r ∧ r.openCalls.Pairwise (·.seq < ·.seq) ∧
      ∀ e, e ∈ r.openCalls ↔ e ∈ window ∧ (∃ key, e.callback = some (.enter key)) ∧
        ¬ Returns Event.callback (threadCalls e.tid run) e := by
  obtain ⟨pre, rfl⟩ := hsuffix
  -- The sequence numbers rise, so no event occurs twice.
  have hnodup : (pre ++ window).Nodup := by
    refine hrun.imp fun {a b} hlt heq => ?_
    rw [heq] at hlt
    exact Nat.lt_irrefl _ hlt
  unfold report
  rw [hread]
  exact ⟨_, rfl, sorted_openCalls hnodup hnests (sorted_of_readFile hread),
    fun e => mem_openCalls hnodup hnests⟩

/-- Two threads call the function 10, and the first of them returns. -/
def crossedCalls : List Call :=
  [⟨1, 0xFFFFFFFF, 0xFFFFFFFF, 0, 0, 0, 10, none, none, 100, 7⟩,
    ⟨1, 0xFFFFFFFF, 0xFFFFFFFF, 0, 0, 0, 10, none, none, 110, 8⟩,
    ⟨2, 0xFFFFFFFF, 0xFFFFFFFF, 0, 0, 0, 10, none, none, 120, 7⟩]

/-- The events of `crossedCalls`. -/
def crossedRun : List Event := crossedCalls.mapIdx fun k c => c.event 42 (k + 1)

/-- The calls of the example nest on each thread. -/
theorem nests_crossedRun : Nests crossedRun := by
  intro tid
  -- The first thread has returned, the second one has not, and no other has calls.
  by_cases hseven : tid = 7
  · subst hseven
    exact ⟨[], .call (b := []) (c := []) (k := (.runtime, 7, 10)) rfl rfl .nil .nil⟩
  by_cases height : tid = 8
  · subst height
    refine ⟨[⟨4, 0, 0, 0, 0, 42, 8, 0, 0, .runtimeExit, 0, 10, "", ""⟩], ?_⟩
    exact .call (b := []) (c := []) (k := (.runtime, 8, 10)) rfl rfl .nil .nil
  · have hnil : threadCalls tid crossedRun = [] := by
      simp [threadCalls, crossedRun, crossedCalls, Call.event, Ne.symm hseven, Ne.symm height]
    rw [hnil]
    exact ⟨[], .nil⟩

/-- On a ring of two slots the enter of the first thread is overwritten. Its exit does not
close the call of the second thread. -/
theorem open_calls_crossed :
    ∃ s r, recordCalls (some ⟨initRing 2 42 1000 50, 2, 42⟩) 42 crossedCalls = some s ∧
      report s.file 40 = .ok r ∧ ∀ e, e ∈ r.openCalls ↔ e ∈ crossedRun ∧ e.seq = 2 := by
  have hread := @events_recordAll 2 42 1000 50 crossedCalls (by decide) (by decide)
  rw [events_window] at hread
  have hsuffix : crossedRun.drop 1 <:+ crossedRun := List.drop_suffix _ _
  obtain ⟨r, hreport, -, hmem⟩ :=
    @open_calls_exact _ 40 _ (crossedRun.drop 1) crossedRun hread hsuffix (by decide)
      nests_crossedRun
  refine ⟨_, r, recordCalls_eq _ crossedCalls, hreport, fun e => ?_⟩
  rw [hmem]
  constructor
  · -- The one enter in the window is that of the second thread.
    rintro ⟨he, ⟨key, henter⟩, -⟩
    refine ⟨hsuffix.subset he, ?_⟩
    rcases List.mem_pair.mp he with rfl | rfl
    · rfl
    · cases henter
  · rintro ⟨he, hseq⟩
    obtain rfl : e = (crossedRun.get ⟨1, by decide⟩) := by
      rcases List.mem_cons.mp he with rfl | he
      · cases hseq
      rcases List.mem_pair.mp he with rfl | rfl
      · rfl
      · cases hseq
    refine ⟨?_, ⟨(.runtime, 8, 10), rfl⟩, ?_⟩
    · exact List.mem_cons_self
    · -- The second thread has one callback, and it takes two to return.
      rintro ⟨a, b, x, c, k, heq, -⟩
      have hlen := congrArg List.length heq
      have hone : (threadCalls 8 crossedRun).length = 1 := by decide
      change (threadCalls 8 crossedRun).length = _ at hlen
      rw [hone] at hlen
      simp only [List.length_append, List.length_cons] at hlen
      omega

end HangAnalyzer.Mspti
