import Mathlib.Data.List.Count
import HangAnalyzer.Proofs.Recorder.File
import HangAnalyzer.Watchdog.Loop

/-!
# `HangAnalyzer.Proofs.Watchdog.Evidence`: the snapshots of the watchdog

A snapshot is taken at most once for each reason, because its reason goes into a
set first (`Counted`). So a monitored process has its exit snapshot if and only if a
look at one of its headers found it dead (`mem_seenExit_foldl`).

The loop may still be left without it: the process may be alive at its header, and
die before the test that ends the loop. `evidence_iff` says that this is the only
way.
-/

set_option autoImplicit false

namespace HangAnalyzer.Watchdog

open HangAnalyzer.Recorder

/-- A dead process stays dead. -/
theorem World.dead_of_le (world : World) {pid : Int} {m n : Nat} (hle : m ≤ n)
    (h : world.alive pid m = false) : world.alive pid n = false := by
  induction n, hle using Nat.le_induction with
  | base => exact h
  | succ n _ ih => exact world.stays_dead pid n ih

variable (world : World) (args : Args)

/-- The looks at the headers, each with the number of its first call of `alive`. -/
def looks (now : Nat) : Nat → List FlightHeader → List (FlightHeader × Nat)
  | _, []      => []
  | n, h :: hs =>
      (h, n) :: looks now
        (n + if world.alive h.pid n && args.timedOut (now - h.lastNs) then 1 else 2) hs

/-- The look makes its second call of `alive`, and the answer is no. -/
def FoundDead (now : Nat) (h : FlightHeader) (n : Nat) : Prop :=
  (world.alive h.pid n = false ∨ args.timedOut (now - h.lastNs) = false) ∧
    world.alive h.pid (n + 1) = false

/-- The loop is left in the iteration `it`, which starts in the state `s` and ends in
`s'`. -/
def Leaves (pre : List Iteration) (it : Iteration) (s s' : State) : Prop :=
  run world args .init pre = (s, false) ∧ iterate world args s it = (s', true)

/-- The evidence that the watchdog leaves: at most one stalled snapshot for a process
and a sequence number, and one exit snapshot for each monitored process with a header
in the last iteration. -/
def Evidence (its : List Iteration) : Prop :=
  (∀ pid writeSeq,
      (run world args .init its).1.snapshots.count (.stalled pid writeSeq) ≤ 1) ∧
    ∀ pre it s s', its = pre ++ [it] → Leaves world args pre it s s' →
      ∀ h ∈ it.headers, (h.pid : Int) ∈ args.pids → s'.snapshots.count (.exit h.pid) = 1

/-- Each monitored process with a header in the last iteration is found dead at a
header of its own in that iteration. -/
def SeenDead (its : List Iteration) : Prop :=
  ∀ pre it s s', its = pre ++ [it] → Leaves world args pre it s s' →
    ∀ h ∈ it.headers, (h.pid : Int) ∈ args.pids →
      ∃ l ∈ looks world args it.now s.checks it.headers,
        l.1.pid = h.pid ∧ FoundDead world args it.now l.1 l.2

/-- The snapshots are those of the two sets, once each, and a process with an exit
snapshot is dead. -/
structure Counted (s : State) : Prop where
  stalled : ∀ key : Nat × Nat, s.snapshots.count (.stalled key.1 key.2)
    = if key ∈ s.seenStalls then 1 else 0
  exit : ∀ pid, s.snapshots.count (.exit pid) = if pid ∈ s.seenExit then 1 else 0
  dead : ∀ pid ∈ s.seenExit, world.alive pid s.checks = false

section
variable {world : World} {args : Args} {now : Nat} {s s' : State} {h : FlightHeader}

/-! ### One header -/

/-- What a look can do: a header of a live process that has timed out leads to a
stalled snapshot or to none, and any other header to an exit snapshot or to none. -/
theorem look_cases :
    ((world.alive h.pid s.checks && args.timedOut (now - h.lastNs)) = true ∧
        ((h.pid, h.writeSeq) ∈ s.seenStalls ∧
            look world args now s h = { s with checks := s.checks + 1 } ∨
          (h.pid, h.writeSeq) ∉ s.seenStalls ∧
            look world args now s h =
              { s with
                checks := s.checks + 1
                seenStalls := insert (h.pid, h.writeSeq) s.seenStalls
                snapshots := s.snapshots ++ [.stalled h.pid h.writeSeq] })) ∨
      ((world.alive h.pid s.checks && args.timedOut (now - h.lastNs)) = false ∧
        (world.alive h.pid (s.checks + 1) = false ∧ h.pid ∉ s.seenExit ∧
            look world args now s h =
              { s with
                checks := s.checks + 2
                seenExit := insert h.pid s.seenExit
                snapshots := s.snapshots ++ [.exit h.pid] } ∨
          (world.alive h.pid (s.checks + 1) = true ∨ h.pid ∈ s.seenExit) ∧
            look world args now s h = { s with checks := s.checks + 2 })) := by
  unfold look
  -- The two tests of the header, in the order of the code.
  cases htest : world.alive h.pid s.checks && args.timedOut (now - h.lastNs) with
  | true =>
      refine Or.inl ⟨rfl, ?_⟩
      by_cases hseen : (h.pid, h.writeSeq) ∈ s.seenStalls
      · exact Or.inl ⟨hseen, by simp [hseen]⟩
      · exact Or.inr ⟨hseen, by simp [hseen]⟩
  | false =>
      refine Or.inr ⟨rfl, ?_⟩
      cases hagain : world.alive h.pid (s.checks + 1) with
      | true => exact Or.inr ⟨Or.inl rfl, by simp⟩
      | false =>
          by_cases hseen : h.pid ∈ s.seenExit
          · exact Or.inr ⟨Or.inr hseen, by simp [hseen]⟩
          · exact Or.inl ⟨rfl, hseen, by simp [hseen]⟩

/-- A look asks once whether the process lives, and once more unless it has stalled. -/
theorem checks_look : (look world args now s h).checks =
    s.checks + if world.alive h.pid s.checks && args.timedOut (now - h.lastNs) then 1 else 2 := by
  rcases look_cases with ⟨htest, ⟨-, hlook⟩ | ⟨-, hlook⟩⟩ | ⟨htest, ⟨-, -, hlook⟩ | ⟨-, hlook⟩⟩
  all_goals rw [hlook, htest]; rfl

/-- A process is in the set after a look if it was there before, or the look found it
dead. -/
theorem mem_seenExit_look {pid : Nat} : pid ∈ (look world args now s h).seenExit ↔
    pid ∈ s.seenExit ∨ h.pid = pid ∧ FoundDead world args now h s.checks := by
  unfold FoundDead
  rcases look_cases with ⟨htest, hcases⟩ | ⟨htest, ⟨hdead, hnew, hlook⟩ | ⟨hold, hlook⟩⟩
  · -- A stall does not change what was seen as dead.
    have hsame : (look world args now s h).seenExit = s.seenExit := by
      rcases hcases with ⟨-, hlook⟩ | ⟨-, hlook⟩
      all_goals rw [hlook]
    rw [Bool.and_eq_true] at htest
    rw [hsame, htest.1, htest.2]
    simp
  · -- The process was found dead for the first time.
    rw [Bool.and_eq_false_iff] at htest
    rw [hlook]
    show pid ∈ insert h.pid s.seenExit ↔ _
    rw [Finset.mem_insert, or_comm]
    refine or_congr_right ?_
    constructor
    · intro heq
      exact ⟨heq.symm, htest, hdead⟩
    · intro hfound
      exact hfound.1.symm
  · -- It lives, or its death was seen before.
    rw [hlook]
    constructor
    · exact Or.inl
    · rintro (hmem | ⟨rfl, -, hdead⟩)
      · exact hmem
      · rcases hold with hlive | hmem
        · rw [hlive] at hdead
          cases hdead
        · exact hmem

/-- No call of `alive` is taken back, and what was dead is dead. -/
theorem Counted.later (h : Counted world s) {checks : Nat} (hle : s.checks ≤ checks) :
    Counted world { s with checks } where
  stalled := h.stalled
  exit := h.exit
  dead pid hpid := world.dead_of_le hle (h.dead pid hpid)

/-- A reason that is new in the set is new in the list. -/
theorem count_concat_insert {α : Type} [DecidableEq α] {f : α → Reason}
    (hf : ∀ a b, f a = f b → a = b) {l : List Reason} {seen : Finset α}
    (hl : ∀ a, l.count (f a) = if a ∈ seen then 1 else 0) {b : α} (hnew : b ∉ seen) (a : α) :
    (l ++ [f b]).count (f a) = if a ∈ insert b seen then 1 else 0 := by
  rw [List.count_append, hl, List.count_singleton]
  -- The new reason is counted once, and the others as often as before.
  by_cases hab : a = b
  · subst hab
    simp [hnew]
  · have hne : f b ≠ f a := by
      intro heq
      exact hab (hf b a heq).symm
    rw [beq_false_of_ne hne]
    simp [hab]

/-- A look takes no snapshot that was taken before. -/
theorem counted_look (hs : Counted world s) : Counted world (look world args now s h) := by
  rcases look_cases with ⟨htest, ⟨-, hlook⟩ | ⟨hnew, hlook⟩⟩ |
    ⟨htest, ⟨hdead, hnew, hlook⟩ | ⟨-, hlook⟩⟩
  · -- Seen before, so nothing is written.
    rw [hlook]
    exact hs.later (Nat.le_add_right _ _)
  · -- A stall is new, so its snapshot is the first one.
    have hlater := hs.later (Nat.le_add_right s.checks 1)
    rw [hlook]
    refine ⟨fun key => ?_, fun pid => ?_, hlater.dead⟩
    · refine count_concat_insert (f := fun key : Nat × Nat => .stalled key.1 key.2) ?_
        hs.stalled hnew key
      intro a b heq
      obtain ⟨hpid, hseq⟩ := Reason.stalled.inj heq
      exact Prod.ext hpid hseq
    · show (s.snapshots ++ [_]).count _ = _
      rw [List.count_append, hs.exit]
      simp
  · -- A death is new, and the dead stay dead.
    have hlater := hs.later (Nat.le_add_right s.checks 2)
    rw [hlook]
    refine ⟨fun key => ?_, fun pid => ?_, fun pid hpid => ?_⟩
    · show (s.snapshots ++ [_]).count _ = _
      rw [List.count_append, hs.stalled]
      simp
    · exact count_concat_insert (fun a b heq => Reason.exit.inj heq) hs.exit hnew pid
    · rcases Finset.mem_insert.mp hpid with rfl | hmem
      · exact world.stays_dead _ _ hdead
      · exact hlater.dead pid hmem
  · rw [hlook]
    exact hs.later (Nat.le_add_right _ _)

/-! ### All headers of an iteration -/

/-- The looks at all headers take each snapshot once. -/
theorem counted_foldl (hs : Counted world s) (headers : List FlightHeader) :
    Counted world (headers.foldl (look world args now) s) := by
  induction headers generalizing s with
  | nil => exact hs
  | cons h headers ih => exact ih (counted_look hs)

/-- A process is in the set after an iteration if it was there before, or one of the
looks found it dead. -/
theorem mem_seenExit_foldl {pid : Nat} (headers : List FlightHeader) :
    pid ∈ (headers.foldl (look world args now) s).seenExit ↔
      pid ∈ s.seenExit ∨ ∃ l ∈ looks world args now s.checks headers,
        l.1.pid = pid ∧ FoundDead world args now l.1 l.2 := by
  induction headers generalizing s with
  | nil => simp [looks]
  | cons h headers ih =>
      rw [List.foldl_cons, ih, mem_seenExit_look, or_assoc, checks_look]
      refine or_congr_right ?_
      rw [looks]
      simp only [List.mem_cons, exists_eq_or_imp]

/-- Every header is looked at. -/
theorem mem_looks {headers : List FlightHeader} {n : Nat} (hh : h ∈ headers) :
    ∃ m, (h, m) ∈ looks world args now n headers ∧ n ≤ m := by
  induction headers generalizing n with
  | nil => cases hh
  | cons h' headers ih =>
      rw [looks]
      rcases List.mem_cons.mp hh with rfl | hmem
      · exact ⟨n, List.mem_cons_self, Nat.le_refl n⟩
      · obtain ⟨m, hm, hle⟩ := ih hmem
        exact ⟨m, List.mem_cons_of_mem _ hm, (Nat.le_add_right _ _).trans hle⟩

/-! ### Iterations -/

/-- The checks of `allDead` come after those before. -/
theorem le_allDead (pids : List Int) (n : Nat) : n ≤ (allDead world pids n).2 := by
  induction pids generalizing n with
  | nil => exact Nat.le_refl n
  | cons pid pids ih =>
      rw [allDead]
      split
      · exact Nat.le_succ n
      · exact Nat.le_of_succ_le (ih (n + 1))

/-- The test at the end of an iteration changes nothing but the number of calls. -/
theorem iterate_fst (world : World) (args : Args) (s : State) (it : Iteration) :
    ∃ checks, (it.headers.foldl (look world args it.now) s).checks ≤ checks ∧
      (iterate world args s it).1 =
        { it.headers.foldl (look world args it.now) s with checks } := by
  unfold iterate
  split
  · exact ⟨_, Nat.le_refl _, rfl⟩
  · exact ⟨_, le_allDead _ _, rfl⟩

/-- An iteration takes no snapshot that was taken before. -/
theorem counted_iterate (hs : Counted world s) (it : Iteration) :
    Counted world (iterate world args s it).1 := by
  obtain ⟨checks, hle, heq⟩ := iterate_fst world args s it
  rw [heq]
  exact (counted_foldl hs it.headers).later hle

/-- A run takes each snapshot once. -/
theorem counted_run (hs : Counted world s) (its : List Iteration) :
    Counted world (run world args s its).1 := by
  induction its generalizing s with
  | nil => exact hs
  | cons it its ih =>
      -- The loop ends, or it goes on with what it has counted so far.
      have hnext : Counted world (iterate world args s it).1 := counted_iterate hs it
      unfold run
      generalize iterate world args s it = next at hnext
      obtain ⟨s', left⟩ := next
      cases left with
      | true => exact hnext
      | false => exact ih hnext

/-- No snapshot was taken at the start. -/
theorem counted_init : Counted world .init where
  stalled _ := by simp [State.init]
  exit _ := by simp [State.init]
  dead _ h := by simp [State.init] at h

/-- A process with a header in the last iteration has its exit snapshot exactly if a
look at one of its headers in that iteration found it dead. -/
theorem count_exit_iff {it : Iteration} (hs : Counted world s) (hh : h ∈ it.headers) :
    (iterate world args s it).1.snapshots.count (.exit h.pid) = 1 ↔
      ∃ l ∈ looks world args it.now s.checks it.headers,
        l.1.pid = h.pid ∧ FoundDead world args it.now l.1 l.2 := by
  obtain ⟨checks, -, heq⟩ := iterate_fst world args s it
  have hend : Counted world (it.headers.foldl (look world args it.now) s) :=
    counted_foldl hs it.headers
  have hmem : h.pid ∈ (it.headers.foldl (look world args it.now) s).seenExit ↔ _ :=
    mem_seenExit_foldl it.headers
  rw [heq]
  show (it.headers.foldl (look world args it.now) s).snapshots.count _ = 1 ↔ _
  rw [hend.exit]
  constructor
  · -- Its snapshot was written, so it was seen as dead.
    intro hcount
    have hseen : h.pid ∈ (it.headers.foldl (look world args it.now) s).seenExit := by
      by_contra hnot
      rw [if_neg hnot] at hcount
      cases hcount
    rcases hmem.mp hseen with hold | hfound
    · -- The process was found dead before, so it is found dead again.
      obtain ⟨m, hm, hle⟩ : ∃ m, (h, m) ∈ looks world args it.now s.checks it.headers ∧
        s.checks ≤ m := mem_looks hh
      have hdead := hs.dead h.pid hold
      exact ⟨(h, m), hm, rfl, Or.inl (world.dead_of_le hle hdead),
        world.dead_of_le (hle.trans (Nat.le_succ m)) hdead⟩
    · exact hfound
  · intro hfound
    rw [if_pos (hmem.mpr (Or.inr hfound))]

/-- **The watchdog leaves the evidence** if and only if it found each monitored process
dead at a header of the last iteration. -/
theorem evidence_iff (world : World) (args : Args) (its : List Iteration) :
    Evidence world args its ↔ SeenDead world args its := by
  have hcounted : ∀ its, Counted world (run world args .init its).1 := fun its =>
    counted_run counted_init its
  have hstalled : ∀ pid writeSeq,
      (run world args .init its).1.snapshots.count (.stalled pid writeSeq) ≤ 1 := by
    intro pid writeSeq
    have hcount := (hcounted its).stalled (pid, writeSeq)
    rw [hcount]
    split <;> decide
  have hstep : ∀ pre it s s', Leaves world args pre it s s' → ∀ h ∈ it.headers,
      (s'.snapshots.count (.exit h.pid) = 1 ↔
        ∃ l ∈ looks world args it.now s.checks it.headers,
          l.1.pid = h.pid ∧ FoundDead world args it.now l.1 l.2) := by
    intro pre it s s' hleaves h hh
    have hs := hcounted pre
    rw [hleaves.1] at hs
    have hcount : (iterate world args s it).1.snapshots.count (.exit h.pid) = 1 ↔ _ :=
      count_exit_iff hs hh
    rwa [hleaves.2] at hcount
  constructor
  · intro hev pre it s s' heq hleaves h hh hpid
    exact (hstep pre it s s' hleaves h hh).mp (hev.2 pre it s s' heq hleaves h hh hpid)
  · intro hseen
    refine ⟨hstalled, ?_⟩
    intro pre it s s' heq hleaves h hh hpid
    exact (hstep pre it s s' hleaves h hh).mpr (hseen pre it s s' heq hleaves h hh hpid)

end

/-- A process that dies after the two calls of `alive` for its header, and before the
third one. -/
def lateDeath : World where
  alive _ n := decide (n < 2)
  stays_dead _ n h := by
    rw [decide_eq_false_iff_not] at h ⊢
    omega

/-- The process 100 is alive at its header and dead at the test that ends the loop. The
watchdog leaves without a snapshot. -/
theorem leaves_without_exit :
    let file := (initRing 0 0 16 ⟨none, none, none, 100, 5, 7⟩).fileBytes 16
    let it : Iteration := ⟨[("/data/flight/rank0.flight", some file)], 10⟩
    let args : Args := ⟨[100], fun _ => false⟩
    it.headers.map (·.pid) = [100] ∧
      (run lateDeath args .init [it]).2 = true ∧
      (run lateDeath args .init [it]).1.snapshots = [] ∧
      ¬ Evidence lateDeath args [it] := by
  intro file it args
  have hformatted : (initRing 0 0 16 ⟨none, none, none, 100, 5, 7⟩).Formatted 16 :=
    ⟨rfl, rfl, rfl, rfl, by decide⟩
  have hheaders : it.headers
      = [(initRing 0 0 16 ⟨none, none, none, 100, 5, 7⟩).header "/data/flight/rank0.flight"] := by
    show List.filterMap _ [_] = _
    have hread := Ring.readHeader_fileBytes hformatted "/data/flight/rank0.flight"
    simp only [List.filterMap_cons, Option.bind_some, file, hread]
    rfl
  have hpid : it.headers.map (·.pid) = [100] := by
    rw [hheaders]
    rfl
  have hleaves : Leaves lateDeath args [] it .init ⟨3, ∅, ∅, []⟩ := by
    refine ⟨rfl, ?_⟩
    unfold iterate
    rw [hheaders]
    rfl
  have hrun : run lateDeath args .init [it] = (⟨3, ∅, ∅, []⟩, true) := by
    unfold run
    rw [hleaves.2]
    rfl
  refine ⟨hpid, by rw [hrun], by rw [hrun], fun hev => ?_⟩
  rw [hheaders] at hpid
  have hcount := hev.2 [] it _ _ rfl hleaves _ (by rw [hheaders]; exact List.mem_cons_self)
    (by decide)
  cases hcount

end HangAnalyzer.Watchdog
