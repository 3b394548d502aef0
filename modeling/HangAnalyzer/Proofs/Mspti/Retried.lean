import HangAnalyzer.Proofs.Mspti.Switched

/-!
# `HangAnalyzer.Proofs.Mspti.Retried`: what a failed start leaves behind

A start that fails closes the descriptor, unmaps the ring, gives the subscriber back and
leaves no freed buffer in the pool, wherever it fails (`Held.failed_start`).
It does not always take the new file away: `ftruncate` and `mmap` unlink it when they fail,
and the allocation of the buffers, the subscription, the registration and the switching do
not. `O_EXCL` then refuses the file to the next start with this path
(`failed_start_stays`).

`failed_starts_retry_iff` says for which histories every failed start can be made again.
A file is there after a failed start if and only if the ring was mapped (`Start.files`),
so the condition is that nothing fails after the mapping.
-/

set_option autoImplicit false

namespace HangAnalyzer.Mspti.Switch

open HangAnalyzer.Lib

/-- The path a start is called with. -/
def Action.path : Action → Option String
  | start _ path _ _ => path
  | _ => none

namespace State

/-! ### What is claimed of a failed start -/

/-- Nothing is open, and the pool does not point to freed memory. -/
structure Closed (s : State) : Prop where
  header : s.header = none
  fd : s.fd = none
  fds : s.fds = []
  maps : s.maps = []
  subscriber : s.subscriber = none
  pool : ∀ buffer, some buffer ∈ s.pool → buffer ∈ s.heap

/-- A call that ends in `s'` leaves nothing of its own. -/
structure Undone (s s' : State) : Prop where
  closed : s'.Closed
  subscribers : s'.subscribers.Perm s.subscribers
  files : s'.files = s.files

/-- After calls with other paths, a start with this path in which no call of the system and
of msPTI fails returns 0. -/
def Retriable (s : State) (path : String) : Prop :=
  ∀ as t, Run State.step s as t → (∀ a ∈ as, a.path ≠ some path) →
    ∀ pid capacity answers, t.Accepts (some path) capacity → answers.MapRing →
      t.Completes answers → (t.hangMsptiStart pid (some path) capacity answers).2 = 0

/-- A start that returns an error after its argument checks leaves nothing, and can be
retried. A file that was there before stays in the way. -/
def Retries (s : State) : Action → Prop
  | .start pid path capacity answers =>
      ∀ p, path = some p → s.Accepts path capacity →
        (s.hangMsptiStart pid path capacity answers).2 ≠ 0 →
          s.Undone (s.hangMsptiStart pid path capacity answers).1 ∧
            (p ∉ s.files → (s.hangMsptiStart pid path capacity answers).1.Retriable p)
  | .setEnabled .. | .stop .. => True

/-- A start that maps a new ring does not fail after that. -/
def Finishes (s : State) : Action → Prop
  | .start _ path capacity answers =>
      ∀ p, path = some p → s.Maps p capacity answers → s.Completes answers
  | .setEnabled .. | .stop .. => True

variable {s t : State} {pid : UInt32} {path : String} {capacity : UInt64}
  {answers : StartAnswers} {r : State × Int}

/-! ### The pool -/

/-- The first `n` entries of the pool are there, and they are allocated. -/
structure Filled (pool : List (Option Nat)) (heap : List Nat) (n : Nat) : Prop where
  length : pool.length = BUFFER_COUNT
  isSome_iff : ∀ i, (pool.getD i none).isSome ↔ i < n
  live : ∀ buffer, some buffer ∈ pool → buffer ∈ heap

/-- The pool is empty or full. -/
def Stocked (s : State) : Prop :=
  Filled s.pool s.heap 0 ∨ Filled s.pool s.heap BUFFER_COUNT

/-- The pool points to no freed buffer. -/
theorem Stocked.live (h : s.Stocked) : ∀ buffer, some buffer ∈ s.pool → buffer ∈ s.heap :=
  h.elim Filled.live Filled.live

variable {pool : List (Option Nat)} {heap : List Nat} {n : Nat}

/-- A pool without buffers. -/
theorem filled_zero (hlength : pool.length = BUFFER_COUNT)
    (hnone : ∀ i, ¬ (pool.getD i none).isSome) : Filled pool heap 0 where
  length := hlength
  isSome_iff i := iff_of_false (hnone i) (Nat.not_lt_zero i)
  live buffer hmem := by
    obtain ⟨i, hi⟩ := List.mem_iff_getElem?.mp hmem
    refine absurd ?_ (hnone i)
    rw [List.getD_eq_getElem?_getD, hi]
    rfl

/-- The next entry is allocated. -/
theorem Filled.push (h : Filled pool heap n) (hn : n < BUFFER_COUNT) (buffer : Nat) :
    Filled (pool.set n (some buffer)) (heap ++ [buffer]) (n + 1) where
  length := by rw [List.length_set, h.length]
  isSome_iff i := by
    rw [List.getD_eq_getElem?_getD]
    -- The entry that was empty is filled, and the others are as before.
    by_cases hin : n = i
    · subst hin
      rw [List.getElem?_set_self (h.length ▸ hn)]
      exact iff_of_true rfl (Nat.lt_succ_self n)
    · rw [List.getElem?_set_ne hin, ← List.getD_eq_getElem?_getD, h.isSome_iff]
      omega
  live b hmem := by
    rcases List.mem_or_eq_of_mem_set hmem with hold | hnew
    · exact List.mem_append_left _ (h.live b hold)
    · rw [Option.some.inj hnew]
      exact List.mem_append_right _ (List.mem_singleton_self buffer)

/-- The first `n` entries are freed, and there were no others. -/
theorem Filled.release (h : Filled pool heap n) (hn : n ≤ BUFFER_COUNT) (heap' : List Nat) :
    Filled (List.replicate n none ++ pool.drop n) heap' 0 := by
  refine filled_zero ?_ fun i hi => ?_
  · rw [List.length_append, List.length_replicate, List.length_drop, h.length]
    omega
  · rw [List.getD_eq_getElem?_getD] at hi
    -- The entries up to `n` were given back, and those after it were empty.
    by_cases hin : i < n
    · rw [List.getElem?_append_left (by simpa using hin), List.getElem?_replicate_of_lt hin] at hi
      cases hi
    · rw [List.getElem?_append_right (by simpa using hin), List.length_replicate,
        List.getElem?_drop, Nat.add_sub_cancel' (Nat.not_lt.mp hin),
        ← List.getD_eq_getElem?_getD] at hi
      exact hin ((h.isSome_iff i).mp hi)

/-- The loop over the pool fills it, or frees what it has allocated. The entries before `i`
are there, and the ones from `i` on are there only if all are. -/
theorem fillPool_filled (pid : UInt32) (memalign : Nat → Option Nat) {i left n : Nat}
    (hleft : i + left = BUFFER_COUNT) (h : Filled s.pool s.heap n)
    (hn : n = i ∨ n = BUFFER_COUNT) :
    Filled (s.fillPool pid memalign i left).1.pool (s.fillPool pid memalign i left).1.heap
      (if (s.fillPool pid memalign i left).2 then BUFFER_COUNT else 0) := by
  induction left generalizing i n s with
  | zero =>
      obtain rfl : n = BUFFER_COUNT := by omega
      exact h
  | succ left ih =>
      rw [fillPool]
      split
      · -- The entry has a buffer already, from a start before.
        rename_i hsome
        have hlt : i < n := (h.isSome_iff i).mp hsome
        exact ih (by omega) h (Or.inr (by omega))
      · -- The entry is the first one that is empty.
        rename_i hnone
        obtain rfl : n = i := by
          have hle : n ≤ i := Nat.not_lt.mp fun hlt => hnone ((h.isSome_iff i).mpr hlt)
          omega
        split
        · rename_i buffer hbuffer
          exact ih (by omega) (h.push (by omega) buffer) (Or.inl rfl)
        · -- The allocation fails, and all the buffers are given back.
          obtain ⟨log, hrecord⟩ := s.record_eq pid ENOMEM "buffer_pool"
          rw [hrecord]
          exact h.release (by omega) _

/-! ### What the process owns -/

/-- The process has the descriptor and the mapping of its ring and no others, and the pool
is empty or full. -/
structure Owns (s : State) : Prop where
  fds : s.fds = s.fd.toList
  maps : s.maps = if s.header.isSome then [s.size] else []
  pool : s.Stocked

/-- Without a ring there is no descriptor and no subscriber. -/
structure Held (s : State) : Prop extends s.Owns where
  closed : s.header = none → s.fd = none ∧ s.subscriber = none

/-- What is held is closed as soon as the ring is unmapped. -/
theorem Held.closed_iff (h : s.Held) : s.Closed ↔ s.header = none := by
  refine ⟨Closed.header, fun hheader => ?_⟩
  obtain ⟨hfd, hsubscriber⟩ := h.closed hheader
  refine ⟨hheader, hfd, ?_, ?_, hsubscriber, h.pool.live⟩
  · rw [h.fds, hfd]
    rfl
  · rw [h.maps, hheader]
    rfl

/-- A process holds nothing at its start. -/
theorem held_start (files : List String) (on : Source → Bool) : (State.start files on).Held where
  fds := rfl
  maps := rfl
  pool := Or.inl (filled_zero rfl fun i hi => by
    rw [State.start, List.getD_eq_getElem?_getD, List.getElem?_replicate] at hi
    split at hi <;> cases hi)
  closed _ := ⟨rfl, rfl⟩

/-- `cleanup_map` closes what is open. -/
theorem Owns.cleanupMap (h : s.Owns) (hsubscriber : s.subscriber = none) :
    s.cleanupMap.Held where
  fds := by
    have hfds := h.fds
    rw [State.cleanupMap]
    -- The file is closed if it is open.
    cases hfd : s.fd with
    | none =>
        rw [hfd] at hfds
        exact hfds
    | some fd =>
        rw [hfd] at hfds
        simp [hfds]
  maps := by
    show (if s.header.isSome then s.maps.erase s.size else s.maps) = []
    rw [h.maps]
    -- The ring is unmapped if it is mapped.
    cases s.header with
    | none => rfl
    | some c => simp
  pool := h.pool
  closed _ := ⟨rfl, hsubscriber⟩

/-- `msptiUnsubscribe` touches the subscribers only. -/
theorem unsubscribe_eq (s : State) (result : Int) :
    ∃ subscribers, s.unsubscribe result = { s with subscriber := none, subscribers } := by
  unfold unsubscribe
  split
  · exact ⟨_, rfl⟩
  · rename_i hnone
    exact ⟨s.subscribers, by rw [← hnone]⟩

/-- The way out of a start and of a stop. -/
theorem Owns.close (h : s.Owns) (result : Int) : (s.unsubscribe result).cleanupMap.Held := by
  obtain ⟨subscribers, heq⟩ := s.unsubscribe_eq result
  rw [heq]
  exact Owns.cleanupMap ⟨h.fds, h.maps, h.pool⟩ rfl

/-- Switching the sources opens nothing. -/
theorem Owns.setEnabledLocked (h : s.Owns) (pid : UInt32) (enabled : Bool)
    (answers : Source → Int) : (s.setEnabledLocked pid enabled answers).1.Owns := by
  obtain ⟨on, b, log, heq⟩ := s.setEnabledLocked_eq pid enabled answers
  rw [heq]
  exact ⟨h.fds, h.maps, h.pool⟩

/-- An error that is recorded opens nothing. -/
theorem Owns.record (h : s.Owns) (pid : UInt32) (code : Int) (name : String) :
    (s.record pid code name).Owns := by
  obtain ⟨log, heq⟩ := s.record_eq pid code name
  rw [heq]
  exact ⟨h.fds, h.maps, h.pool⟩

/-- The new file of a start is the only one that is open. -/
theorem Held.opened (h : s.Held) (hclosed : s.header = none) (path : String)
    (capacity : UInt64) (fd : Nat) : (s.opened path capacity fd).Owns := by
  -- Before the start there was no file and no mapping.
  have hnothing := h.closed_iff.mpr hclosed
  constructor
  case fds =>
    show s.fds ++ [fd] = [fd]
    rw [hnothing.fds]
    rfl
  case maps =>
    show s.maps = if s.header.isSome then [_] else []
    rw [hnothing.maps, hclosed]
    rfl
  case pool => exact h.pool

/-- The descriptor and the mapping that a start has made are those of its ring. -/
theorem Owns.mapRing (h : s.Owns) (hclosed : s.header = none) (pid : UInt32)
    (capacity : UInt64) : (s.mapRing pid capacity).Owns := by
  refine ⟨h.fds, ?_, h.pool⟩
  show s.maps ++ [s.size] = [s.size]
  rw [h.maps, hclosed]
  rfl

/-- The loop over the pool leaves what the process owns. -/
theorem Owns.fillPool (h : s.Owns) (pid : UInt32) (memalign : Nat → Option Nat) :
    (s.fillPool pid memalign 0 BUFFER_COUNT).1.Owns := by
  have hpool : (s.fillPool pid memalign 0 BUFFER_COUNT).1.Stocked := by
    have hfilled : Filled (s.fillPool pid memalign 0 BUFFER_COUNT).1.pool
        (s.fillPool pid memalign 0 BUFFER_COUNT).1.heap
        (if (s.fillPool pid memalign 0 BUFFER_COUNT).2 then BUFFER_COUNT else 0) := by
      -- The pool is empty at first, or full from a start before.
      rcases h.pool with hempty | hfull
      · exact fillPool_filled pid memalign (Nat.zero_add _) hempty (Or.inl rfl)
      · exact fillPool_filled pid memalign (Nat.zero_add _) hfull (Or.inr rfl)
    cases hok : (s.fillPool pid memalign 0 BUFFER_COUNT).2 with
    | false =>
        rw [hok] at hfilled
        exact Or.inl hfilled
    | true =>
        rw [hok] at hfilled
        exact Or.inr hfilled
  obtain ⟨pool, heap, log, heq⟩ := s.fillPool_eq pid memalign 0 BUFFER_COUNT
  rw [heq] at hpool ⊢
  exact ⟨h.fds, h.maps, hpool⟩

/-- After the allocation the process has the ring and a pool that is empty or full. -/
theorem Held.filled (h : s.Held) (hmaps : s.Maps path capacity answers) (pid : UInt32)
    (fd : Nat) : (s.filled pid path capacity answers fd).1.Owns :=
  ((h.opened hmaps.accepts.closed path capacity fd).mapRing hmaps.accepts.closed pid
    capacity).fillPool pid answers.memalign

/-- The subscription adds neither a descriptor nor a mapping. -/
theorem Held.subscribed (h : s.Held) (hmaps : s.Maps path capacity answers) (pid : UInt32)
    (fd subscriber : Nat) : (s.subscribed pid path capacity answers fd subscriber).Owns :=
  have howns := h.filled hmaps pid fd
  ⟨howns.fds, howns.maps, howns.pool⟩

/-- A start leaves nothing open but the ring. -/
theorem Held.start {path : Option String} (h : s.Held)
    (hstart : Start s pid capacity answers path r) : r.1.Held := by
  cases hstart with
  | refused => exact h
  | unopened hclosed =>
      have hnothing := h.closed_iff.mpr hclosed
      refine ⟨⟨hnothing.fds, ?_, h.pool⟩, fun _ => ⟨rfl, hnothing.subscriber⟩⟩
      show s.maps = if s.header.isSome then [_] else []
      rw [hnothing.maps, hclosed]
      rfl
  -- `cleanup_map` closes the file, and nothing is mapped.
  | @unmapped path fd _ hclosed =>
      have hheld := (h.opened hclosed path capacity fd).cleanupMap (h.closed hclosed).2
      exact ⟨⟨hheld.fds, hheld.maps, hheld.pool⟩, hheld.closed⟩
  | @unfilled path fd hmaps =>
      refine (h.filled hmaps pid fd).cleanupMap ?_
      rw [(s.mapped_filled pid path capacity answers fd).subscriber]
      exact (h.closed hmaps.accepts.closed).2
  -- Whatever has been recorded or switched, `cleanup_map` has the mapping and the pool.
  | unsubscribed hmaps => exact ((h.filled hmaps pid _).record pid _ _).close _
  | unregistered hmaps => exact ((h.subscribed hmaps pid _ _).record pid _ _).close _
  | unswitched hmaps =>
      exact ((h.subscribed hmaps pid _ _).setEnabledLocked pid true answers.enable).close _
  | @started path fd subscriber hmaps =>
      have howns := (h.subscribed hmaps pid fd subscriber).setEnabledLocked pid true answers.enable
      refine ⟨howns, fun hclosed => ?_⟩
      have hheader : (s.subscribed pid path capacity answers fd subscriber).header.isSome :=
        (s.mapped_filled pid path capacity answers fd).header
      change (s.switched pid path capacity answers fd subscriber).1.header = none at hclosed
      rw [switched, header_setEnabledLocked] at hclosed
      rw [hclosed] at hheader
      cases hheader

/-- Every call keeps the books. -/
theorem Held.call (h : s.Held) (a : Action) : (s.call a).1.Held := by
  cases a with
  | start pid path capacity answers =>
    exact h.start (hangMsptiStart_cases s pid path capacity answers)
  | setEnabled pid enabled answers =>
      show (s.hangMsptiSetEnabled pid enabled answers).1.Held
      unfold hangMsptiSetEnabled
      -- A library that is not open refuses, and changes nothing.
      split
      · exact h
      · obtain ⟨on, b, log, heq⟩ := s.setEnabledLocked_eq pid enabled answers
        rw [heq]
        exact ⟨⟨h.fds, h.maps, h.pool⟩, h.closed⟩
  | stop pid answers unsubscribe =>
      show (s.hangMsptiStop pid answers unsubscribe).Held
      unfold hangMsptiStop
      -- The stop switches off, and gives everything back.
      split
      · exact h
      · exact (h.toOwns.setEnabledLocked pid false answers).close unsubscribe

/-! ### What a start leaves -/

/-- A start that fails after its argument checks leaves the ring closed. -/
theorem Start.header_of_ne {path : Option String} (hstart : Start s pid capacity answers path r)
    (haccepts : s.Accepts path capacity) (hne : r.2 ≠ 0) : r.1.header = none := by
  cases hstart with
  | refused hnot => exact absurd haccepts hnot
  | unopened hclosed => exact hclosed
  | unmapped | unfilled | unsubscribed | unregistered | unswitched => rfl
  | started => exact absurd rfl hne

/-- An error that is recorded leaves the files. -/
@[simp] theorem files_record (code : Int) (name : String) :
    (s.record pid code name).files = s.files := by
  obtain ⟨log, heq⟩ := s.record_eq pid code name
  rw [heq]

/-- `msptiUnsubscribe` leaves the files. -/
@[simp] theorem files_unsubscribe (result : Int) : (s.unsubscribe result).files = s.files := by
  obtain ⟨subscribers, heq⟩ := s.unsubscribe_eq result
  rw [heq]

/-- `cleanup_map` leaves the files. -/
@[simp] theorem files_cleanupMap : s.cleanupMap.files = s.files := rfl

/-- Switching the sources leaves the files. -/
@[simp] theorem files_setEnabledLocked (enabled : Bool) (answers : Source → Int) :
    (s.setEnabledLocked pid enabled answers).1.files = s.files := by
  obtain ⟨on, b, log, heq⟩ := s.setEnabledLocked_eq pid enabled answers
  rw [heq]

/-- The file of a start is there after it if and only if the ring was mapped, whatever
failed after that. -/
theorem Start.files (hstart : Start s pid capacity answers (some path) r) :
    ¬ s.Maps path capacity answers ∧ r.1.files = s.files ∨
      s.Maps path capacity answers ∧ r.1.files = s.files ++ [path] := by
  have hfilled (fd : Nat) : (s.filled pid path capacity answers fd).1.files = s.files ++ [path] :=
    (s.mapped_filled pid path capacity answers fd).files
  have hsubscribed (fd subscriber : Nat) :
      (s.subscribed pid path capacity answers fd subscriber).files = s.files ++ [path] := hfilled fd
  cases hstart with
  | refused hnot => exact Or.inl ⟨fun h => hnot h.accepts, rfl⟩
  | unopened _ hnot => exact Or.inl ⟨hnot, rfl⟩
  -- The only failures that `unlink` the file.
  | unmapped _ hnot hnew =>
      refine Or.inl ⟨hnot, ?_⟩
      show (s.files ++ [path]).erase path = s.files
      rw [List.erase_append_right _ hnew, List.erase_cons_head, List.append_nil]
  | unfilled hmaps => exact Or.inr ⟨hmaps, hfilled _⟩
  | unsubscribed hmaps => exact Or.inr ⟨hmaps, by simp [hfilled]⟩
  | unregistered hmaps => exact Or.inr ⟨hmaps, by simp [hsubscribed]⟩
  | unswitched hmaps => exact Or.inr ⟨hmaps, by simp [switched, hsubscribed]⟩
  | started hmaps => exact Or.inr ⟨hmaps, by simp [switched, hsubscribed]⟩

/-- A new subscriber that is given back. -/
theorem subscribers_unsubscribe (subscriber : Nat) {subscribers : List Nat}
    (hsubscriber : s.subscriber = some subscriber)
    (hsubscribers : s.subscribers = subscribers ++ [subscriber]) :
    (s.unsubscribe 0).subscribers.Perm subscribers := by
  have hgiven : (s.unsubscribe 0).subscribers = s.subscribers.erase subscriber := by
    rw [unsubscribe, hsubscriber]
    rfl
  have hperm := (List.perm_append_singleton subscriber subscribers).erase subscriber
  rw [hgiven, hsubscribers]
  rwa [List.erase_cons_head] at hperm

/-- A failed start gives its subscriber back, unless msPTI refuses to take it. -/
theorem Start.subscribers (hstart : Start s pid capacity answers (some path) r)
    (hne : r.2 ≠ 0) (hnone : s.subscriber = none)
    (hgiven : s.Maps path capacity answers → answers.unsubscribe = 0) :
    r.1.subscribers.Perm s.subscribers := by
  cases hstart with
  | refused | unopened | unmapped => exact .refl _
  | @unfilled path fd hmaps =>
      exact .of_eq (s.mapped_filled pid path capacity answers fd).subscribers
  | @unsubscribed path fd e hmaps =>
      have hmapped := s.mapped_filled pid path capacity answers fd
      obtain ⟨log, heq⟩ := (s.filled pid path capacity answers fd).1.record_eq pid e.result
        "subscribe"
      refine .of_eq ?_
      show (((s.filled pid path capacity answers fd).1.record pid e.result "subscribe").unsubscribe
        answers.unsubscribe).subscribers = s.subscribers
      rw [heq, unsubscribe]
      simp only [hmapped.subscriber, hnone]
      exact hmapped.subscribers
  -- The subscriber is the one that this start got.
  | @unregistered path fd subscriber hmaps =>
      have hmapped := s.mapped_filled pid path capacity answers fd
      obtain ⟨log, heq⟩ := (s.subscribed pid path capacity answers fd subscriber).record_eq pid
        answers.register "buffers"
      rw [hgiven hmaps, heq]
      refine subscribers_unsubscribe subscriber rfl ?_
      rw [← hmapped.subscribers]
      rfl
  | @unswitched path fd subscriber hmaps =>
      have hmapped := s.mapped_filled pid path capacity answers fd
      obtain ⟨on, b, log, heq⟩ :=
        (s.subscribed pid path capacity answers fd subscriber).setEnabledLocked_eq pid true
          answers.enable
      rw [hgiven hmaps, switched, heq]
      refine subscribers_unsubscribe subscriber rfl ?_
      rw [← hmapped.subscribers]
      rfl
  | started => exact absurd rfl hne

/-- **Every way out.** A start that fails after its argument checks leaves no descriptor, no
mapping and no pool entry that points to freed memory. It leaves no subscriber, if msPTI
takes it back, and it leaves the new file if and only if it had mapped the ring. -/
theorem Held.failed_start (h : s.Held) (haccepts : s.Accepts (some path) capacity)
    (hne : (s.hangMsptiStart pid (some path) capacity answers).2 ≠ 0) :
    (s.hangMsptiStart pid (some path) capacity answers).1.Closed ∧
      ((s.Maps path capacity answers → answers.unsubscribe = 0) →
        (s.hangMsptiStart pid (some path) capacity answers).1.subscribers.Perm s.subscribers) ∧
      ((s.hangMsptiStart pid (some path) capacity answers).1.files = s.files ↔
        ¬ s.Maps path capacity answers) := by
  have hstart := hangMsptiStart_cases s pid (some path) capacity answers
  refine ⟨?_, hstart.subscribers hne (h.closed haccepts.closed).2, ?_⟩
  · -- A start that fails has closed what it opened, and its file is left if it was created.
    exact (h.start hstart).closed_iff.mpr (hstart.header_of_ne haccepts hne)
  · rcases hstart.files with ⟨hnot, hfiles⟩ | ⟨hmaps, hfiles⟩
    · exact iff_of_true hfiles hnot
    · refine iff_of_false (fun heq => ?_) (not_not.mpr hmaps)
      rw [hfiles] at heq
      simp at heq

/-! ### When a failed start can be made again -/

/-- A call makes no file but the one of its path. -/
theorem mem_files_call {a : Action} (hpath : path ∈ (s.call a).1.files) :
    path ∈ s.files ∨ a.path = some path := by
  cases a with
  | start pid p capacity answers =>
      change path ∈ (s.hangMsptiStart pid p capacity answers).1.files at hpath
      have hstart := hangMsptiStart_cases s pid p capacity answers
      -- Only a start creates a file.
      cases p with
      | none => exact Or.inl hpath
      | some p =>
          rcases hstart.files with ⟨-, hfiles⟩ | ⟨-, hfiles⟩
          · exact Or.inl (hfiles ▸ hpath)
          · rw [hfiles, List.mem_append, List.mem_singleton] at hpath
            exact hpath.imp_right fun heq => congrArg some heq.symm
  | setEnabled pid enabled answers =>
      change path ∈ (s.hangMsptiSetEnabled pid enabled answers).1.files at hpath
      unfold hangMsptiSetEnabled at hpath
      split at hpath
      · exact Or.inl hpath
      · rw [files_setEnabledLocked] at hpath
        exact Or.inl hpath
  | stop pid answers unsubscribe =>
      change path ∈ (s.hangMsptiStop pid answers unsubscribe).files at hpath
      unfold hangMsptiStop at hpath
      split at hpath
      · exact Or.inl hpath
      · rw [files_cleanupMap, files_unsubscribe, files_setEnabledLocked] at hpath
        exact Or.inl hpath

/-- A path without a file can be started. -/
theorem retriable_of_not_mem (hnew : path ∉ s.files) : s.Retriable path := by
  intro as t hrun hothers pid capacity answers haccepts hcalls hcompletes
  have hfiles : path ∉ t.files := by
    refine Run.invariant_along (fun u => path ∉ u.files) (P := fun _ a _ => a.path ≠ some path)
      (fun u a u' hnot hstep hother hmem => ?_) (fun pre a post u u' heq _ _ => ?_) hrun hnew
    · obtain rfl := Option.some.inj hstep
      exact (mem_files_call hmem).elim hnot hother
    · exact hothers a (heq ▸ List.mem_append_right pre List.mem_cons_self)
  exact (hangMsptiStart_cases t pid (some path) capacity answers).eq_zero_iff.mpr
    ⟨⟨haccepts, hfiles, hcalls⟩, hcompletes⟩

/-- **One call.** If it is a start that fails, it leaves nothing and can be made again if and
only if it does not fail after the mapping. -/
theorem Held.retries_iff_finishes (h : s.Held) (a : Action) : s.Retries a ↔ s.Finishes a := by
  cases a with
  | setEnabled | stop => exact Iff.rfl
  | start pid path capacity answers =>
      constructor
      · intro hretries p hp hmaps
        subst hp
        by_contra hnot
        have hne : (s.hangMsptiStart pid (some p) capacity answers).2 ≠ 0 := fun hzero =>
          hnot ((hangMsptiStart_cases s pid (some p) capacity answers).eq_zero_iff.mp hzero).2
        obtain ⟨hundone, -⟩ := hretries p rfl hmaps.accepts hne
        obtain ⟨-, -, hfiles⟩ := h.failed_start hmaps.accepts hne
        exact hfiles.mp hundone.files hmaps
      · intro hfinishes p hp haccepts hne
        subst hp
        obtain ⟨hclosed, hsubscribers, hfiles⟩ := h.failed_start haccepts hne
        -- A start that maps the ring completes, so it does not fail.
        have hnot : ¬ s.Maps p capacity answers := fun hmaps =>
          hne ((hangMsptiStart_cases s pid (some p) capacity answers).eq_zero_iff.mpr
            ⟨hmaps, hfinishes p rfl hmaps⟩)
        have hundone := hfiles.mpr hnot
        refine ⟨⟨hclosed, hsubscribers fun hmaps => absurd hmaps hnot, hundone⟩, fun hnew => ?_⟩
        exact retriable_of_not_mem (hundone ▸ hnew)

end State

/-- **Which failed starts can be retried.** From every state of the files and of the sources,
in every history of calls: every start that fails after its argument checks leaves nothing
and can be made again if and only if no start fails after it has mapped its ring. -/
theorem failed_starts_retry_iff (files : List String) (on : Source → Bool) (as : List Action) :
    Run.Along State.step (fun s a _ => s.Retries a) (State.start files on) as ↔
      Run.Along State.step (fun s a _ => s.Finishes a) (State.start files on) as := by
  -- Before each call nothing is held twice.
  have hheld : ∀ pre s, Run State.step (State.start files on) pre s → s.Held := by
    intro pre s hrun
    refine Run.invariant State.Held (fun t a t' ht hs => ?_) hrun (State.held_start files on)
    exact Option.some.inj hs ▸ ht.call a
  constructor
  · intro h pre a post s s' heq hrun hstep
    exact ((hheld pre s hrun).retries_iff_finishes a).mp (h pre a post s s' heq hrun hstep)
  · intro h pre a post s s' heq hrun hstep
    exact ((hheld pre s hrun).retries_iff_finishes a).mpr (h pre a post s s' heq hrun hstep)

/-- A start in a process without the msPTI library in `LD_PRELOAD`, where `msptiEnableDomain`
returns 6. Its file stays, and the start that is granted everything afterwards returns
`EEXIST`. -/
def withoutPreload : Action :=
  .start 5 (some "ring.msflight") 64 { granted with enable := fun _ => 6 }

/-- The failed start of this history cannot be made again. -/
theorem failed_start_stays :
    ¬ Run.Along State.step (fun s a _ => s.Retries a) (State.start [] fun _ => false)
      [withoutPreload] := by
  intro h
  have hretries := h [] _ [] _ _ rfl (Run.nil_iff.mpr rfl) rfl
  obtain ⟨-, hretry⟩ := hretries "ring.msflight" rfl ⟨rfl, by decide, rfl⟩ (by decide)
  have hzero := hretry (by decide) [] _ (Run.nil_iff.mpr rfl) (by simp) 5 64 granted
    ⟨rfl, by decide, rfl⟩ ⟨⟨3, rfl⟩, rfl, rfl⟩
    ⟨fun _ _ => Or.inr rfl, ⟨1, rfl⟩, rfl, Or.inr fun _ => rfl⟩
  exact absurd hzero (by decide)

end HangAnalyzer.Mspti.Switch
