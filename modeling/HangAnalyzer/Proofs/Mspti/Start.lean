import HangAnalyzer.Mspti.Switch

/-!
# `HangAnalyzer.Proofs.Mspti.Start`: what a start can do

`hang_mspti_start` makes about a dozen calls that can fail, and each of them has its own
way out. `Start` lists them: the state and the result of a start, one constructor for each
kind of failure and one for success. `hangMsptiStart_cases` says that the list is complete.

The helpers of the call are described by what they write. `setEnabledLocked_eq` and
`fillPool_eq` give the new state as an update of the old one, so that a caller reads off
every field that the helper leaves alone.
-/

set_option autoImplicit false

namespace HangAnalyzer.Mspti.Switch

open HangAnalyzer.Lib

/-- `open`, `ftruncate` and `mmap` succeed. -/
structure StartAnswers.MapRing (answers : StartAnswers) : Prop where
  open_ : ∃ fd, answers.open_ = .ok fd
  ftruncate : answers.ftruncate = .ok ()
  mmap : answers.mmap = .ok ()

namespace State

/-- The argument checks of `hang_mspti_start`. The check for an overflow never fails after
the one of the capacity (`not_overflow`). -/
structure Accepts (s : State) (path : Option String) (capacity : UInt64) : Prop where
  path : path.isSome
  capacity : 64 ≤ capacity ∧ capacity ≤ 2 ^ 24
  closed : s.header = none

/-- The start creates the file and maps the ring. -/
structure Maps (s : State) (path : String) (capacity : UInt64) (answers : StartAnswers) :
    Prop where
  accepts : s.Accepts (some path) capacity
  new : path ∉ s.files
  calls : answers.MapRing

/-- None of the calls after the mapping fails: an entry of the pool that is missing can be
allocated, msPTI subscribes, takes the callbacks and switches the sources on. -/
structure Completes (s : State) (answers : StartAnswers) : Prop where
  memalign : ∀ i < BUFFER_COUNT, (s.pool.getD i none).isSome ∨ (answers.memalign i).isSome
  subscribe : ∃ subscriber, answers.subscribe = .ok subscriber
  register : answers.register = 0
  enable : s.enabled = true ∨ ∀ src, answers.enable src = 0

variable {s : State} {pid : UInt32} {enabled : Bool}

/-! ### What the helpers write -/

/-- An error that is recorded changes the log only. -/
theorem record_eq (s : State) (pid : UInt32) (code : Int) (name : String) :
    ∃ log, s.record pid code name = { s with log } := by
  unfold record
  split
  · exact ⟨_, rfl⟩
  · exact ⟨s.log, rfl⟩

/-- A call that returned zero is not recorded. -/
@[simp] theorem check_zero (operation : String) : s.check pid 0 operation = (s, 0) := rfl

/-- A call that failed is recorded. -/
theorem check_of_ne {result : Int} (h : result ≠ 0) (operation : String) :
    s.check pid result operation = (s.record pid result operation, result) :=
  if_neg h

/-- A source that is switched, and the rest of the chain. -/
theorem switchAll_cons_ok {answers : Source → Int} {src : Source} (rest : List Source)
    (h : answers src = 0) :
    switchAll pid enabled answers (src :: rest) s
      = switchAll pid enabled answers rest { s with on := Function.update s.on src enabled } := by
  simp [switchAll, switch, check, h]

/-- The first call that fails ends the chain. -/
theorem switchAll_cons_fail {answers : Source → Int} {src : Source} (rest : List Source)
    (h : answers src ≠ 0) :
    switchAll pid enabled answers (src :: rest) s
      = (s.record pid (answers src) (src.operation enabled), answers src) := by
  simp [switchAll, switch, check, h]

/-- Switching changes the sources and the log only. -/
theorem switchAll_eq (pid : UInt32) (enabled : Bool) (answers : Source → Int)
    (srcs : List Source) (s : State) :
    ∃ on log, (switchAll pid enabled answers srcs s).1 = { s with on, log } := by
  induction srcs generalizing s with
  | nil => exact ⟨s.on, s.log, rfl⟩
  | cons src rest ih =>
      -- A source that refuses ends the list.
      by_cases h : answers src = 0
      · rw [switchAll_cons_ok rest h]
        obtain ⟨on, log, heq⟩ := ih { s with on := Function.update s.on src enabled }
        exact ⟨on, log, heq⟩
      · rw [switchAll_cons_fail rest h]
        obtain ⟨log, heq⟩ := s.record_eq pid (answers src) (src.operation enabled)
        exact ⟨s.on, log, heq⟩

/-- The chain ends with 0 if and only if all its calls succeed. -/
theorem switchAll_eq_zero_iff (s : State) (pid : UInt32) (enabled : Bool)
    {answers : Source → Int} {srcs : List Source} :
    (switchAll pid enabled answers srcs s).2 = 0 ↔ ∀ src ∈ srcs, answers src = 0 := by
  induction srcs generalizing s with
  | nil => exact iff_of_true rfl fun src hsrc => (by cases hsrc)
  | cons src rest ih =>
      rw [List.forall_mem_cons]
      by_cases h : answers src = 0
      · rw [switchAll_cons_ok rest h, ih, and_iff_right h]
      · rw [switchAll_cons_fail rest h]
        exact iff_of_false h fun hall => h hall.1

/-- `set_enabled_locked` changes the sources, `g_enabled` and the log only. -/
theorem setEnabledLocked_eq (s : State) (pid : UInt32) (enabled : Bool)
    (answers : Source → Int) :
    ∃ on b log, (s.setEnabledLocked pid enabled answers).1 = { s with on, enabled := b, log } := by
  unfold setEnabledLocked
  split
  · exact ⟨s.on, s.enabled, s.log, rfl⟩
  · obtain ⟨on, log, heq⟩ := switchAll_eq pid enabled answers Source.all s
    split
    rename_i t error hswitch
    rw [hswitch] at heq
    -- The flag is stored only when all sources have been switched.
    obtain rfl : t = { s with on, log } := heq
    split
    · obtain ⟨log', hrecord⟩ := record_eq { s with on, enabled, log } pid 0
        (if enabled then "enabled" else "disabled")
      exact ⟨on, enabled, log', hrecord⟩
    · exact ⟨on, s.enabled, log, rfl⟩

/-- `set_enabled_locked` leaves the ring. -/
@[simp] theorem header_setEnabledLocked {answers : Source → Int} :
    (s.setEnabledLocked pid enabled answers).1.header = s.header := by
  obtain ⟨on, b, log, heq⟩ := s.setEnabledLocked_eq pid enabled answers
  rw [heq]

/-- `set_enabled_locked` succeeds when it has nothing to do or every call returns zero. -/
theorem setEnabledLocked_eq_zero_iff {answers : Source → Int} :
    (s.setEnabledLocked pid enabled answers).2 = 0 ↔
      enabled = s.enabled ∨ ∀ src, answers src = 0 := by
  -- The five sources are all there are.
  have hall : (∀ src, answers src = 0) ↔ ∀ src ∈ Source.all, answers src = 0 :=
    ⟨fun h src _ => h src, fun h src => h src (by cases src <;> decide)⟩
  by_cases hsame : enabled = s.enabled
  · have hnothing : s.setEnabledLocked pid enabled answers = (s, 0) := if_pos hsame
    rw [hnothing]
    exact iff_of_true rfl (Or.inl hsame)
  · rw [or_iff_right hsame, hall, ← switchAll_eq_zero_iff s pid enabled, setEnabledLocked,
      if_neg hsame]
    by_cases herror : (switchAll pid enabled answers Source.all s).2 = 0
    · simp [herror]
    · simp [herror]

/-- Filling the pool writes the pool, the heap and a status record. -/
theorem fillPool_eq (s : State) (pid : UInt32) (memalign : Nat → Option Nat) (i left : Nat) :
    ∃ pool heap log, (s.fillPool pid memalign i left).1 = { s with pool, heap, log } := by
  induction left generalizing i s with
  | zero => exact ⟨s.pool, s.heap, s.log, rfl⟩
  | succ left ih =>
      rw [fillPool]
      -- An entry that has its buffer is passed.
      split
      · exact ih s (i + 1)
      · split
        · rename_i buffer hbuffer
          obtain ⟨pool, heap, log, heq⟩ := ih
            { s with pool := s.pool.set i (some buffer), heap := s.heap ++ [buffer] } (i + 1)
          exact ⟨pool, heap, log, heq⟩
        · obtain ⟨log, heq⟩ := s.record_eq pid ENOMEM "buffer_pool"
          rw [heq]
          exact ⟨_, _, log, rfl⟩

/-- The pool is filled if every entry is there or can be allocated. -/
theorem fillPool_iff (s : State) (pid : UInt32) (memalign : Nat → Option Nat) (i left : Nat) :
    (s.fillPool pid memalign i left).2 = true ↔
      ∀ j, i ≤ j → j < i + left → (s.pool.getD j none).isSome ∨ (memalign j).isSome := by
  induction left generalizing i s with
  | zero =>
      refine iff_of_true rfl fun j hle hlt => ?_
      omega
  | succ left ih =>
      have hsplit : ∀ P : Nat → Prop, (∀ j, i ≤ j → j < i + (left + 1) → P j) ↔
          P i ∧ ∀ j, i + 1 ≤ j → j < i + 1 + left → P j := by
        intro P
        constructor
        · intro h
          exact ⟨h i (by omega) (by omega), fun j hle hlt => h j (by omega) (by omega)⟩
        · intro h j hle hlt
          rcases Nat.eq_or_lt_of_le hle with rfl | hlt'
          · exact h.1
          · exact h.2 j hlt' (by omega)
      rw [fillPool, hsplit]
      split
      · rename_i hpool
        rw [ih s (i + 1)]
        exact (and_iff_right (Or.inl hpool)).symm
      · rename_i hpool
        split
        · rename_i buffer hbuffer
          rw [ih _ (i + 1)]
          -- The new entry is not one of the later ones.
          have hset : ∀ j, i + 1 ≤ j → (s.pool.set i (some buffer)).getD j none
              = s.pool.getD j none := by
            intro j hle
            rw [List.getD_eq_getElem?_getD, List.getElem?_set_ne (by omega),
              List.getD_eq_getElem?_getD]
          constructor
          · intro h
            refine ⟨Or.inr (by rw [hbuffer]; rfl), fun j hle hlt => ?_⟩
            exact hset j hle ▸ h j hle hlt
          · intro h j hle hlt
            exact (hset j hle).symm ▸ h.2 j hle hlt
        · rename_i hnone
          refine iff_of_false Bool.false_ne_true fun h => ?_
          rcases h.1 with hsome | hsome
          · exact hpool hsome
          · rw [hnone] at hsome
            cases hsome

/-! ### The results of a start -/

/-- The new file is open, and the ring is not mapped. -/
def opened (s : State) (path : String) (capacity : UInt64) (fd : Nat) : State :=
  { s with
    size := sizeofHeader + capacity.toNat * sizeofEvent
    fd := some fd
    fds := s.fds ++ [fd]
    files := s.files ++ [path] }

/-- The ring is mapped, and the loop over the pool has ended. Says whether the pool is
full. -/
def filled (s : State) (pid : UInt32) (path : String) (capacity : UInt64)
    (answers : StartAnswers) (fd : Nat) : State × Bool :=
  ((s.opened path capacity fd).mapRing pid capacity).fillPool pid answers.memalign 0 BUFFER_COUNT

/-- The pool is full, and msPTI has a new subscriber. -/
def subscribed (s : State) (pid : UInt32) (path : String) (capacity : UInt64)
    (answers : StartAnswers) (fd subscriber : Nat) : State :=
  (s.filled pid path capacity answers fd).1.subscribe (.ok subscriber)

/-- `set_enabled_locked` of a start. -/
def switched (s : State) (pid : UInt32) (path : String) (capacity : UInt64)
    (answers : StartAnswers) (fd subscriber : Nat) : State × Int :=
  (s.subscribed pid path capacity answers fd subscriber).setEnabledLocked pid true answers.enable

/-- What `hang_mspti_start` can do. -/
inductive Start (s : State) (pid : UInt32) (capacity : UInt64) (answers : StartAnswers) :
    Option String → State × Int → Prop where
  /-- The arguments are refused. -/
  | refused {path : Option String} {error : Int} (hnot : ¬ s.Accepts path capacity)
      (herror : error ≠ 0) : Start s pid capacity answers path (s, error)
  /-- There is no new file. -/
  | unopened {path : String} {error : Int} (hclosed : s.header = none)
      (hnot : ¬ s.Maps path capacity answers) (herror : error ≠ 0) :
      Start s pid capacity answers (some path)
        ({ s with size := sizeofHeader + capacity.toNat * sizeofEvent, fd := none }, error)
  /-- `ftruncate` or `mmap` fails. -/
  | unmapped {path : String} {fd : Nat} {error : Int} (hclosed : s.header = none)
      (hnot : ¬ s.Maps path capacity answers) (hnew : path ∉ s.files) (herror : error ≠ 0) :
      Start s pid capacity answers (some path)
        ((s.opened path capacity fd).cleanupMap.unlink path, error)
  /-- A buffer cannot be allocated. -/
  | unfilled {path : String} {fd : Nat} (hmaps : s.Maps path capacity answers)
      (hnot : ¬ s.Completes answers) :
      Start s pid capacity answers (some path)
        ((s.filled pid path capacity answers fd).1.cleanupMap, ENOMEM)
  /-- `msptiSubscribe` fails. -/
  | unsubscribed {path : String} {fd : Nat} {e : MsptiError}
      (hmaps : s.Maps path capacity answers) (hnot : ¬ s.Completes answers) :
      Start s pid capacity answers (some path)
        ((((s.filled pid path capacity answers fd).1.record pid e.result "subscribe").unsubscribe
          answers.unsubscribe).cleanupMap, e.result)
  /-- `msptiActivityRegisterCallbacks` fails. -/
  | unregistered {path : String} {fd subscriber : Nat} (hmaps : s.Maps path capacity answers)
      (hnot : ¬ s.Completes answers) (herror : answers.register ≠ 0) :
      Start s pid capacity answers (some path)
        ((((s.subscribed pid path capacity answers fd subscriber).record pid answers.register
          "buffers").unsubscribe answers.unsubscribe).cleanupMap, answers.register)
  /-- A source cannot be switched on. -/
  | unswitched {path : String} {fd subscriber : Nat} (hmaps : s.Maps path capacity answers)
      (hnot : ¬ s.Completes answers)
      (herror : (s.switched pid path capacity answers fd subscriber).2 ≠ 0) :
      Start s pid capacity answers (some path)
        (((s.switched pid path capacity answers fd subscriber).1.unsubscribe
          answers.unsubscribe).cleanupMap, (s.switched pid path capacity answers fd subscriber).2)
  /-- Nothing fails. -/
  | started {path : String} {fd subscriber : Nat} (hmaps : s.Maps path capacity answers)
      (hcompletes : s.Completes answers) :
      Start s pid capacity answers (some path)
        ((s.switched pid path capacity answers fd subscriber).1, 0)

/-- A ring of an accepted capacity fits into `size_t`. -/
theorem not_overflow {capacity : UInt64} (h : capacity ≤ 2 ^ 24) :
    ¬ (SIZE_MAX - sizeofHeader) / sizeofEvent < capacity.toNat := by
  have hle := UInt64.le_iff_toNat_le.mp h
  rw [show (2 ^ 24 : UInt64).toNat = 2 ^ 24 from by decide] at hle
  rw [SIZE_MAX, sizeofHeader, sizeofEvent]
  omega

/-- A path that is in use is refused. -/
theorem openExcl_of_mem {path : String} (h : path ∈ s.files) (size : Nat)
    (answer : Except Errno Nat) :
    ({ s with size } : State).openExcl path answer = ({ s with size, fd := none }, .error EEXIST) :=
  if_pos h

/-- A refusal of the system leaves no file. -/
theorem openExcl_error {path : String} (h : path ∉ s.files) (size : Nat) (e : Errno) :
    ({ s with size } : State).openExcl path (.error e)
      = ({ s with size, fd := none }, .error e.code) :=
  if_neg h

/-- A new path gets a file and a descriptor. -/
theorem openExcl_ok {path : String} (h : path ∉ s.files) (size : Nat) (fd : Nat) :
    ({ s with size } : State).openExcl path (.ok fd)
      = ({ s with
          size
          fd := some fd
          fds := s.fds ++ [fd]
          files := s.files ++ [path] }, .ok ()) :=
  if_neg h

/-- What a start has changed when the loop over the pool has ended. -/
structure Mapped (s : State) (path : String) (t : State) : Prop where
  header : t.header.isSome
  subscriber : t.subscriber = s.subscriber
  subscribers : t.subscribers = s.subscribers
  files : t.files = s.files ++ [path]
  enabled : t.enabled = s.enabled
  on : t.on = s.on

/-- The allocation of the buffers leaves the ring. -/
theorem mapped_filled (s : State) (pid : UInt32) (path : String) (capacity : UInt64)
    (answers : StartAnswers) (fd : Nat) :
    Mapped s path (s.filled pid path capacity answers fd).1 := by
  obtain ⟨pool, heap, log, heq⟩ := fillPool_eq ((s.opened path capacity fd).mapRing pid capacity)
    pid answers.memalign 0 BUFFER_COUNT
  rw [filled, heq]
  exact ⟨rfl, rfl, rfl, rfl, rfl, rfl⟩

/-- The pool is full after the loop if and only if the start can complete it. -/
theorem filled_iff (s : State) (pid : UInt32) (path : String) (capacity : UInt64)
    (answers : StartAnswers) (fd : Nat) :
    (s.filled pid path capacity answers fd).2 = true ↔
      ∀ i < BUFFER_COUNT, (s.pool.getD i none).isSome ∨ (answers.memalign i).isSome := by
  rw [filled, fillPool_iff]
  exact ⟨fun h i hi => h i (Nat.zero_le i) (by omega), fun h i _ hi => h i (by omega)⟩

/-- The last part of a start succeeds when the sources are on or every call returns zero. -/
theorem switched_eq_zero_iff (s : State) (pid : UInt32) (path : String) (capacity : UInt64)
    (answers : StartAnswers) (fd subscriber : Nat) :
    (s.switched pid path capacity answers fd subscriber).2 = 0 ↔
      s.enabled = true ∨ ∀ src, answers.enable src = 0 := by
  have henabled : (s.subscribed pid path capacity answers fd subscriber).enabled = s.enabled :=
    (s.mapped_filled pid path capacity answers fd).enabled
  rw [switched, setEnabledLocked_eq_zero_iff, henabled, eq_comm]

/-- `hang_mspti_start` from the loop over the buffers on. -/
theorem fillAndSubscribe_cases {path : String} {capacity : UInt64} {answers : StartAnswers}
    {fd : Nat} (hmaps : s.Maps path capacity answers) :
    Start s pid capacity answers (some path)
      (((s.opened path capacity fd).mapRing pid capacity).fillAndSubscribe pid answers) := by
  have hfill := s.filled_iff pid path capacity answers fd
  have hloop : ((s.opened path capacity fd).mapRing pid capacity).fillPool pid answers.memalign 0
      BUFFER_COUNT = ((s.filled pid path capacity answers fd).1,
        (s.filled pid path capacity answers fd).2) := rfl
  rw [fillAndSubscribe, hloop]
  cases hfull : (s.filled pid path capacity answers fd).2 with
  | false =>
      refine .unfilled hmaps fun h => ?_
      rw [hfill.mpr h.memalign] at hfull
      cases hfull
  | true =>
      simp only [subscribeAndEnable]
      cases hsubscribe : answers.subscribe with
      | error e =>
          have hresult : answers.subscribed = e.result := by
            rw [StartAnswers.subscribed, hsubscribe]
          have hne : ¬ e.result = 0 := e.ne
          simp only [hresult, check_of_ne e.ne, hne, ne_eq, not_false_eq_true, if_true, if_false]
          refine .unsubscribed hmaps fun h => ?_
          obtain ⟨subscriber, hok⟩ := h.subscribe
          cases hsubscribe.symm.trans hok
      | ok subscriber =>
          have hresult : answers.subscribed = 0 := by rw [StartAnswers.subscribed, hsubscribe]
          by_cases hregister : answers.register = 0
          · have hswitch := s.switched_eq_zero_iff pid path capacity answers fd subscriber
            simp only [hresult, hregister, check_zero, if_true]
            -- What is left is `set_enabled_locked(1)` and its cleanup.
            change Start s pid capacity answers (some path)
              (if (s.switched pid path capacity answers fd subscriber).2 ≠ 0 then
                (((s.switched pid path capacity answers fd subscriber).1.unsubscribe
                  answers.unsubscribe).cleanupMap,
                  (s.switched pid path capacity answers fd subscriber).2)
              else ((s.switched pid path capacity answers fd subscriber).1,
                (s.switched pid path capacity answers fd subscriber).2))
            by_cases herror : (s.switched pid path capacity answers fd subscriber).2 = 0
            · rw [if_neg (not_not.mpr herror), herror]
              exact .started hmaps
                ⟨hfill.mp hfull, ⟨subscriber, hsubscribe⟩, hregister, hswitch.mp herror⟩
            · rw [if_pos herror]
              exact .unswitched hmaps (fun h => herror (hswitch.mpr h.enable)) herror
          · simp only [hresult, check_zero, if_true, check_of_ne hregister, hregister, ne_eq,
              not_false_eq_true, if_false]
            exact .unregistered hmaps (fun h => hregister h.register) hregister

/-- Every start ends in one of the ways of the list. -/
theorem hangMsptiStart_cases (s : State) (pid : UInt32) (path : Option String)
    (capacity : UInt64) (answers : StartAnswers) :
    Start s pid capacity answers path (s.hangMsptiStart pid path capacity answers) := by
  cases path with
  | none => exact .refused (fun h => Bool.false_ne_true h.path) (by decide)
  | some path =>
      by_cases hargs : capacity < 64 ∨ 2 ^ 24 < capacity ∨ s.header.isSome
      · rw [hangMsptiStart, if_pos hargs]
        refine .refused (fun h => ?_) (by decide)
        rcases hargs with hlow | hhigh | hopen
        · exact absurd h.capacity.1 (UInt64.not_le.mpr hlow)
        · exact absurd h.capacity.2 (UInt64.not_le.mpr hhigh)
        · rw [h.closed] at hopen
          cases hopen
      · have hvalid : (64 ≤ capacity ∧ capacity ≤ 2 ^ 24) ∧ s.header = none := by
          simpa [UInt64.not_lt, and_assoc] using hargs
        obtain ⟨hcapacity, hclosed⟩ := hvalid
        rw [hangMsptiStart, if_neg hargs, if_neg (not_overflow hcapacity.2)]
        -- The file is created exclusively, so one that is there makes the open fail with `EEXIST`.
        by_cases hfile : path ∈ s.files
        · simp only [openExcl_of_mem hfile]
          exact .unopened hclosed (fun h => h.new hfile) (by decide)
        · cases hanswer : answers.open_ with
          | error e =>
              simp only [openExcl_error hfile]
              refine .unopened hclosed (fun h => ?_) (Int.ne_of_gt e.pos)
              obtain ⟨fd, hfd⟩ := h.calls.open_
              cases hanswer.symm.trans hfd
          | ok fd =>
              simp only [openExcl_ok hfile]
              cases htruncate : answers.ftruncate with
              | error e =>
                  refine .unmapped hclosed (fun h => ?_) hfile (Int.ne_of_gt e.pos)
                  cases htruncate.symm.trans h.calls.ftruncate
              | ok =>
                  cases hmmap : answers.mmap with
                  | error e =>
                      refine .unmapped hclosed (fun h => ?_) hfile (Int.ne_of_gt e.pos)
                      cases hmmap.symm.trans h.calls.mmap
                  | ok =>
                      exact fillAndSubscribe_cases
                        ⟨⟨rfl, hcapacity, hclosed⟩, hfile, ⟨fd, hanswer⟩, htruncate, hmmap⟩

/-- A start returns 0 if and only if nothing fails. -/
theorem Start.eq_zero_iff {path : String} {capacity : UInt64} {answers : StartAnswers}
    {r : State × Int} (hstart : Start s pid capacity answers (some path) r) :
    r.2 = 0 ↔ s.Maps path capacity answers ∧ s.Completes answers := by
  cases hstart with
  | refused hnot herror => exact iff_of_false herror fun h => hnot h.1.accepts
  | unopened _ hnot herror => exact iff_of_false herror fun h => hnot h.1
  | unmapped _ hnot _ herror => exact iff_of_false herror fun h => hnot h.1
  | unfilled _ hnot => exact iff_of_false (by decide : ENOMEM ≠ 0) fun h => hnot h.2
  | @unsubscribed _ _ e _ hnot => exact iff_of_false e.ne fun h => hnot h.2
  | unregistered _ hnot herror => exact iff_of_false herror fun h => hnot h.2
  | unswitched _ hnot herror => exact iff_of_false herror fun h => hnot h.2
  | started hmaps hcompletes => exact iff_of_true rfl ⟨hmaps, hcompletes⟩

end State

end HangAnalyzer.Mspti.Switch
