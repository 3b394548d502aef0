import HangAnalyzer.Proofs.Recorder.LastTime
import HangAnalyzer.Proofs.Watchdog.Evidence

/-!
# `HangAnalyzer.Proofs.Watchdog.Stalls`: what a stalled snapshot says

The watchdog calls a live process stalled when `last_ns` of its file is `--timeout` old.
The threads of the process go on recording while the watchdog reads the header, and
`HangAnalyzer.Proofs.Recorder.LastTime` says how far the header can be behind them.

`stalls_of_run` puts the two together, for all iterations of the loop and every
interleaving of the recorder's threads. A process that is called stalled has finished no
`flight_record` call for the timeout less two durations of a call. A live process that has
stored no time for the timeout is called stalled, once for each sequence number.
-/

set_option autoImplicit false

namespace HangAnalyzer.Watchdog

open HangAnalyzer.Recorder
open HangAnalyzer.Lib

variable {world : World} {args : Args} {now : Nat} {s : State} {h : FlightHeader}

/-! ### The stalled snapshots of a run -/

/-- A stalled snapshot is there after a look if it was there before, or the look is at a
header of a live process that has timed out. -/
theorem mem_stalled_look {pid writeSeq : Nat} (hs : Counted world s) :
    .stalled pid writeSeq ∈ (look world args now s h).snapshots ↔
      .stalled pid writeSeq ∈ s.snapshots ∨ (h.pid = pid ∧ h.writeSeq = writeSeq ∧
        world.alive h.pid s.checks = true ∧ args.timedOut (now - h.lastNs) = true) := by
  rcases look_cases with ⟨htest, ⟨hseen, hlook⟩ | ⟨-, hlook⟩⟩ |
    ⟨htest, ⟨-, -, hlook⟩ | ⟨-, hlook⟩⟩
  · -- This stall has been seen before, so its snapshot is there already.
    rw [Bool.and_eq_true] at htest
    have hold : Reason.stalled h.pid h.writeSeq ∈ s.snapshots := by
      have hcount := hs.stalled (h.pid, h.writeSeq)
      rw [if_pos hseen] at hcount
      exact List.count_pos_iff.mp (by rw [hcount]; exact Nat.one_pos)
    rw [hlook]
    constructor
    · exact Or.inl
    · rintro (hmem | ⟨rfl, rfl, -⟩)
      · exact hmem
      · exact hold
  · -- The stall is new, and its snapshot is added.
    rw [Bool.and_eq_true] at htest
    rw [hlook]
    show _ ∈ s.snapshots ++ [_] ↔ _
    rw [List.mem_append, List.mem_singleton, Reason.stalled.injEq]
    refine or_congr_right ?_
    constructor
    · rintro ⟨rfl, rfl⟩
      exact ⟨rfl, rfl, htest⟩
    · rintro ⟨rfl, rfl, -⟩
      exact ⟨rfl, rfl⟩
  · rw [Bool.and_eq_false_iff] at htest
    rw [hlook]
    show _ ∈ s.snapshots ++ [_] ↔ _
    rw [List.mem_append, List.mem_singleton]
    refine or_congr_right ?_
    constructor
    · intro heq
      cases heq
    · rintro ⟨-, -, halive, hout⟩
      simp [halive, hout] at htest
  · rw [Bool.and_eq_false_iff] at htest
    rw [hlook]
    constructor
    · exact Or.inl
    · rintro (hmem | ⟨-, -, halive, hout⟩)
      · exact hmem
      · simp [halive, hout] at htest

/-- A stall is reported for the headers that are found alive and late. -/
theorem mem_stalled_foldl {pid writeSeq : Nat} (hs : Counted world s)
    (headers : List FlightHeader) :
    .stalled pid writeSeq ∈ (headers.foldl (look world args now) s).snapshots ↔
      .stalled pid writeSeq ∈ s.snapshots ∨ ∃ l ∈ looks world args now s.checks headers,
        l.1.pid = pid ∧ l.1.writeSeq = writeSeq ∧ world.alive l.1.pid l.2 = true ∧
          args.timedOut (now - l.1.lastNs) = true := by
  induction headers generalizing s with
  | nil => simp [looks]
  | cons h headers ih =>
      rw [List.foldl_cons, ih (counted_look hs), mem_stalled_look hs, or_assoc, checks_look]
      refine or_congr_right ?_
      rw [looks]
      simp only [List.mem_cons, exists_eq_or_imp]

/-- A look is at one of the headers. -/
theorem mem_headers_of_looks {headers : List FlightHeader} {n : Nat} {l : FlightHeader × Nat}
    (hl : l ∈ looks world args now n headers) : l.1 ∈ headers := by
  induction headers generalizing n with
  | nil => cases hl
  | cons h headers ih =>
      rw [looks] at hl
      rcases List.mem_cons.mp hl with rfl | hmem
      · exact List.mem_cons_self
      · exact List.mem_cons_of_mem _ (ih hmem)

/-- An iteration adds the stalled snapshots of its looks. -/
theorem mem_stalled_iterate {pid writeSeq : Nat} (hs : Counted world s) (it : Iteration) :
    .stalled pid writeSeq ∈ (iterate world args s it).1.snapshots ↔
      .stalled pid writeSeq ∈ s.snapshots ∨ ∃ l ∈ looks world args it.now s.checks it.headers,
        l.1.pid = pid ∧ l.1.writeSeq = writeSeq ∧ world.alive l.1.pid l.2 = true ∧
          args.timedOut (it.now - l.1.lastNs) = true := by
  obtain ⟨checks, -, heq⟩ := iterate_fst world args s it
  rw [heq]
  exact mem_stalled_foldl hs it.headers

/-- The iteration `it` of a run that has got as far as that, and the state it starts in. -/
def Iterates (world : World) (args : Args) (its : List Iteration) (it : Iteration) (s : State) :
    Prop :=
  ∃ pre post, its = pre ++ it :: post ∧ run world args .init pre = (s, false)

/-- The iterations of a run that starts in any state. -/
theorem run_append (world : World) (args : Args) (s : State) (pre its : List Iteration) :
    run world args s (pre ++ its) =
      if (run world args s pre).2 then run world args s pre
      else run world args (run world args s pre).1 its := by
  induction pre generalizing s with
  | nil => simp [run]
  | cons it pre ih =>
      rw [List.cons_append]
      cases hit : iterate world args s it with
      | mk s' left =>
          cases left with
          | true => simp [run, hit]
          | false => simp [run, hit, ih s']

/-- A run has the stalled snapshots of the looks of all its iterations. -/
theorem mem_stalled_run {pid writeSeq : Nat} (its : List Iteration) :
    .stalled pid writeSeq ∈ (run world args .init its).1.snapshots ↔
      ∃ it s, Iterates world args its it s ∧ ∃ l ∈ looks world args it.now s.checks it.headers,
        l.1.pid = pid ∧ l.1.writeSeq = writeSeq ∧ world.alive l.1.pid l.2 = true ∧
          args.timedOut (it.now - l.1.lastNs) = true := by
  induction its using List.reverseRecOn with
  | nil =>
      constructor
      · intro hmem
        simp [run, State.init] at hmem
      · rintro ⟨it, s, ⟨pre, post, heq, -⟩, -⟩
        simp at heq
  | append_singleton its last ih =>
      have hcounted : Counted world (run world args .init its).1 := counted_run counted_init its
      -- An iteration of the longer run is one from before, or the last one.
      have hiterates : ∀ it s, Iterates world args (its ++ [last]) it s ↔
          Iterates world args its it s ∨ it = last ∧ run world args .init its = (s, false) := by
        intro it s
        constructor
        · rintro ⟨pre, post, heq, hpre⟩
          cases post using List.reverseRecOn with
          | nil =>
              obtain ⟨rfl, hlast⟩ := List.append_inj' heq rfl
              exact .inr ⟨(List.cons.inj hlast).1.symm, hpre⟩
          | append_singleton post x =>
              rw [← List.cons_append, ← List.append_assoc] at heq
              obtain ⟨hinit, -⟩ := List.append_inj' heq rfl
              exact .inl ⟨pre, post, hinit, hpre⟩
        · rintro (⟨pre, post, rfl, hpre⟩ | ⟨rfl, hpre⟩)
          · exact ⟨pre, post ++ [last], by simp, hpre⟩
          · exact ⟨its, [], rfl, hpre⟩
      rw [run_append]
      cases hrun : run world args .init its with
      | mk s left =>
          rw [hrun] at ih hcounted
          cases left with
          | true =>
              rw [if_pos rfl]
              refine ih.trans (exists_congr fun it => exists_congr fun t => ?_)
              rw [hiterates, hrun]
              simp
          | false =>
              have hone : (run world args s [last]).1 = (iterate world args s last).1 := by
                rw [run]
                cases hit : iterate world args s last with
                | mk s' left => cases left <;> simp [run]
              rw [if_neg (by simp)]
              show _ ∈ (run world args s [last]).1.snapshots ↔ _
              rw [hone, mem_stalled_iterate hcounted, ih]
              constructor
              · rintro (⟨it, t, hit, hl⟩ | hl)
                · exact ⟨it, t, (hiterates it t).mpr (.inl hit), hl⟩
                · exact ⟨last, s, (hiterates last s).mpr (.inr ⟨rfl, hrun⟩), hl⟩
              · rintro ⟨it, t, hit, hl⟩
                rcases (hiterates it t).mp hit with hold | ⟨rfl, hs⟩
                · exact .inl ⟨it, t, hold, hl⟩
                · rw [hrun] at hs
                  obtain ⟨rfl, -⟩ := Prod.mk.inj hs
                  exact .inr hl

/-! ### The threads behind a header -/

section
variable {m₀ : Ring} {owner : UInt32} {slots : Nat} {calls : Nat → Call} {ops : List Op}
  {clock : Nat → Nat} {d j : Nat}

/-- The word `last_ns` of a header is the one that the ring has after the first `j` actions
of the recorder's threads. -/
def ReadAt (m₀ : Ring) (owner : UInt32) (slots : Nat) (calls : Nat → Call) (ops : List Op)
    (h : FlightHeader) (j : Nat) : Prop :=
  ∃ t, Run ((recorderProtocol owner slots).step calls) (Protocol.start m₀) (ops.take j) t ∧
    h.lastNs = t.mem.read (.header .lastNs)

/-- The first part of a run has the times of the whole. -/
theorem clocked_take (hclock : Clocked clock ops calls) (j : Nat) :
    Clocked clock (ops.take j) calls where
  monotone := hclock.monotone
  after h := hclock.after h.of_take
  before h := hclock.before h.of_take

/-- The first part of a quick run is quick. -/
theorem quick_take (hquick : Quick clock d ops) (j : Nat) : Quick clock d (ops.take j) :=
  fun k n i i' h h' => hquick k n i i' h.of_take h'.of_take

/-- **What a stalled snapshot says**: every call that had finished when the header was
read had done so for the timeout, less two durations of a call. Conversely, a live process
that had stored no time for the timeout has its stalled snapshot, once. -/
theorem stalls_of_run (h₀ : m₀.Fresh slots) (hclock : Clocked clock ops calls)
    (hquick : Quick clock d ops) {timeout : Nat}
    (htimeout : ∀ idle, args.timedOut idle = true ↔ (timeout : Int) ≤ idle)
    (its : List Iteration) (pid : Nat) :
    (∀ writeSeq, .stalled pid writeSeq ∈ (run world args .init its).1.snapshots →
      ∃ it ∈ its, ∃ h ∈ it.headers, h.pid = pid ∧ h.writeSeq = writeSeq ∧
        ∀ j, ReadAt m₀ owner slots calls ops h j → ∀ k i, StepAt (ops.take j) k 13 i →
          clock i + timeout ≤ it.now + 2 * d) ∧
    ∀ it s, Iterates world args its it s →
      ∀ l ∈ looks world args it.now s.checks it.headers, l.1.pid = pid →
        world.alive pid l.2 = true → ∀ j, ReadAt m₀ owner slots calls ops l.1 j →
          m₀.read (.header .lastNs) + timeout ≤ it.now →
          (∀ k i, StepAt (ops.take j) k 1 i → (calls k).timestampNs.toNat + timeout ≤ it.now) →
            (run world args .init its).1.snapshots.count (.stalled pid l.1.writeSeq) = 1 := by
  constructor
  · intro writeSeq hmem
    obtain ⟨it, s, hit, l, hl, hpid, hseq, -, hout⟩ := (mem_stalled_run its).mp hmem
    obtain ⟨pre, post, rfl, -⟩ := hit
    refine ⟨it, by simp, l.1, mem_headers_of_looks hl, hpid, hseq, fun j hread k i hk => ?_⟩
    obtain ⟨t, hrun, hlast⟩ := hread
    have hbehind := finished_le_lastNs h₀ hrun (clocked_take hclock j) (quick_take hquick j) hk
    rw [htimeout, hlast] at hout
    omega
  · intro it s hit l hl hpid halive j hread hstart hidle
    obtain ⟨t, hrun, hlast⟩ := hread
    have hle : t.mem.read (.header .lastNs) ≤ it.now - timeout :=
      lastNs_le h₀ hrun (by omega) fun k i hk => by
        have htime := hidle k i hk
        omega
    have hout : args.timedOut (it.now - l.1.lastNs) = true := by
      rw [htimeout, hlast]
      omega
    have hmem : .stalled pid l.1.writeSeq ∈ (run world args .init its).1.snapshots :=
      (mem_stalled_run its).mpr ⟨it, s, hit, l, hl, hpid, rfl, by rwa [hpid], hout⟩
    have hcounted : Counted world (run world args .init its).1 := counted_run counted_init its
    have hcount := hcounted.stalled (pid, l.1.writeSeq)
    have hseen : (pid, l.1.writeSeq) ∈ (run world args .init its).1.seenStalls := by
      by_contra hnot
      rw [if_neg hnot, List.count_eq_zero] at hcount
      exact hcount hmem
    rw [hcount, if_pos hseen]

/-- A process that lives on. -/
def alwaysAlive : World where
  alive _ _ := true
  stays_dead _ _ h := h

/-- The actions of one call. -/
def oneCall : List Op := .claim :: List.replicate 14 (.advance 0)

/-- A process makes one call at the time 1000. The watchdog looks at it at 2000, with a
timeout of 500. -/
theorem stalls_after_one_call :
    ∃ t, Run ((recorderProtocol 100 16).step fun _ => ⟨15, 1, 9, 4, 2, 0, 1000, 101⟩)
        (Protocol.start (initRing 0 0 16 ⟨none, none, none, 100, 5, 7⟩)) oneCall t ∧
      (run alwaysAlive ⟨[], fun idle => decide (500 ≤ idle)⟩ .init
        [⟨[("rank0.flight", some (Ring.fileBytes t.mem 16))], 2000⟩]).1.snapshots.count
          (.stalled 100 1) = 1 := by
  have hcomputed : ((oneCall.foldlM
      ((recorderProtocol 100 16).step fun _ => ⟨15, 1, 9, 4, 2, 0, 1000, 101⟩)
      (Protocol.start (initRing 0 0 16 ⟨none, none, none, 100, 5, 7⟩)))).isSome = true := by
    decide +kernel
  obtain ⟨t, hrun⟩ := Option.isSome_iff_exists.mp hcomputed
  have h₀ : (initRing 0 0 16 ⟨none, none, none, 100, 5, 7⟩).Fresh 16 :=
    fresh_initRing 0 0 _ (by decide)
  have ht : Reached _ 100 16 _ t := Protocol.tracked_run hrun
  have hheaders : Iteration.headers ⟨[("rank0.flight", some (Ring.fileBytes t.mem 16))], 2000⟩
      = [Ring.header t.mem "rank0.flight"] := by
    show List.filterMap _ [_] = _
    have hread := Ring.readHeader_fileBytes (ht.formatted h₀) "rank0.flight"
    simp only [List.filterMap_cons, Option.bind_some, hread]
    rfl
  have hpid : (Ring.header t.mem "rank0.flight").pid = 100 :=
    ht.readOnly (readOnly_header (by decide) (by decide))
  have hseq : (Ring.header t.mem "rank0.flight").writeSeq = 1 := by
    show t.mem.read (.header .writeSeq) = 1
    rw [ht.writeSeq h₀, Protocol.length_calls hrun]
    decide
  have hclock : Clocked (fun _ => 1000) oneCall fun _ => ⟨15, 1, 9, 4, 2, 0, 1000, 101⟩ :=
    ⟨monotone_const, fun _ => by decide, fun _ => by decide⟩
  have hquick : Quick (fun _ => 1000) 0 oneCall := fun _ _ _ _ _ _ => Nat.le_refl _
  have hcount : (run alwaysAlive ⟨[], fun idle => decide (500 ≤ idle)⟩ .init
      [⟨[("rank0.flight", some (Ring.fileBytes t.mem 16))], 2000⟩]).1.snapshots.count
        (.stalled 100 (Ring.header t.mem "rank0.flight").writeSeq) = 1 :=
    (stalls_of_run h₀ hclock hquick (fun idle => by rw [decide_eq_true_iff]; rfl) _ 100).2
      _ .init ⟨[], [], rfl, rfl⟩ (Ring.header t.mem "rank0.flight", 0)
      (by rw [hheaders]; exact List.mem_cons_self) hpid rfl 15 ⟨t, hrun, rfl⟩
      (show 7 + 500 ≤ 2000 by decide) fun _ _ _ => (show 1000 + 500 ≤ 2000 by decide)
  rw [hseq] at hcount
  exact ⟨t, hrun, hcount⟩

end

end HangAnalyzer.Watchdog
