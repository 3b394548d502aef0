import HangAnalyzer.Proofs.Mspti.Start

/-!
# `HangAnalyzer.Proofs.Mspti.Switched`: whether a successful switch did what it says

`set_enabled_locked` switches five sources one after the other and stops at the first
call that fails. `g_enabled` changes only when all five are switched, and a call that
asks for the value it has does nothing. So after a call that failed half-way, the call
that asks for the old value returns 0 and leaves the sources as they are
(`half_disabled`).

`switched_truthful_iff` says for which histories a returned 0 is true. The proof rests on the last
source of the chain: it changes together with `g_enabled` (`Kept`), so five sources that
are all alike are as `g_enabled` says.
-/

set_option autoImplicit false

namespace HangAnalyzer.Mspti.Switch

open HangAnalyzer.Lib

namespace State

/-- The sources are all on or all off. -/
def Settled (s : State) : Prop := ∀ src src', s.on src = s.on src'

/-- The arguments are valid and nothing fails before the sources are switched on. -/
structure StartsUp (s : State) (path : Option String) (capacity : UInt64)
    (answers : StartAnswers) : Prop where
  path : ∃ p, path = some p ∧ p ∉ s.files
  capacity : 64 ≤ capacity ∧ capacity ≤ 2 ^ 24
  closed : s.header = none
  open_ : ∃ fd, answers.open_ = .ok fd
  ftruncate : answers.ftruncate = .ok ()
  mmap : answers.mmap = .ok ()
  memalign : ∀ i < BUFFER_COUNT, (s.pool.getD i none).isSome ∨ (answers.memalign i).isSome
  subscribe : ∃ subscriber, answers.subscribe = .ok subscriber
  register : answers.register = 0

end State

/-- What a call asks for. -/
def Action.wanted : Action → Option Bool
  | start ..               => some true
  | setEnabled _ enabled _ => some enabled
  | stop ..                => none

/-- A call that returns 0 leaves all sources as it was asked, the callback domains those of
a subscriber. -/
def State.Truthful (s : State) (a : Action) : Prop :=
  ∀ enabled, a.wanted = some enabled → (s.call a).2 = some 0 →
    (enabled = true → (s.call a).1.subscriber.isSome) ∧ ∀ src, (s.call a).1.on src = enabled

/-- A call that finds `g_enabled` as it was asked finds the sources all on or all off. A
start that gets as far as switching, with a new subscriber, finds `g_enabled` off. -/
def State.Sound (s : State) : Action → Prop
  | .start _ path capacity answers => s.StartsUp path capacity answers → s.enabled = false
  | .setEnabled pid enabled _      =>
      s.header.isSome → pid = s.owner → enabled = s.enabled → s.Settled
  | .stop ..                       => True

namespace State

variable {s : State} {pid : UInt32} {enabled : Bool} {answers : Source → Int}

/-! ### What the helpers leave alone -/

/-- An error that is recorded leaves the sources. -/
@[simp] theorem on_record (code : Int) (name : String) : (s.record pid code name).on = s.on := by
  obtain ⟨log, heq⟩ := s.record_eq pid code name
  rw [heq]

/-- An error that is recorded leaves `g_enabled`. -/
@[simp] theorem enabled_record (code : Int) (name : String) :
    (s.record pid code name).enabled = s.enabled := by
  obtain ⟨log, heq⟩ := s.record_eq pid code name
  rw [heq]

/-- Switching leaves the subscriber. -/
@[simp] theorem subscriber_setEnabledLocked :
    (s.setEnabledLocked pid enabled answers).1.subscriber = s.subscriber := by
  obtain ⟨on, b, log, heq⟩ := s.setEnabledLocked_eq pid enabled answers
  rw [heq]

/-! ### The chain of the switching calls -/

/-- The chain leaves `g_enabled`. -/
theorem enabled_switchAll (srcs : List Source) :
    (switchAll pid enabled answers srcs s).1.enabled = s.enabled := by
  obtain ⟨on, log, heq⟩ := switchAll_eq pid enabled answers srcs s
  rw [heq]

/-- The chain leaves the sources that are not in it. -/
theorem on_switchAll {srcs : List Source} {src : Source} (hnot : src ∉ srcs) :
    (switchAll pid enabled answers srcs s).1.on src = s.on src := by
  induction srcs generalizing s with
  | nil => rfl
  | cons first rest ih =>
      rw [List.mem_cons, not_or] at hnot
      obtain ⟨hne, hnot⟩ := hnot
      by_cases h : answers first = 0
      · rw [switchAll_cons_ok rest h, ih hnot]
        exact Function.update_of_ne hne _ _
      · rw [switchAll_cons_fail rest h, on_record]

/-- A chain that ends with 0 has switched all its sources. -/
theorem switchAll_ok {srcs : List Source} (hnodup : srcs.Nodup)
    (h : (switchAll pid enabled answers srcs s).2 = 0) :
    ∀ src ∈ srcs, (switchAll pid enabled answers srcs s).1.on src = enabled := by
  induction srcs generalizing s with
  | nil =>
      intro src hsrc
      cases hsrc
  -- A source that is switched keeps its state while the others are.
  | cons first rest ih =>
      obtain ⟨hnotin, hnodup⟩ := List.nodup_cons.mp hnodup
      by_cases hfirst : answers first = 0
      · rw [switchAll_cons_ok rest hfirst] at h ⊢
        intro src hsrc
        rcases List.mem_cons.mp hsrc with rfl | hsrc
        · rw [on_switchAll hnotin]
          exact Function.update_self _ _ _
        · exact ih hnodup h src hsrc
      · rw [switchAll_cons_fail rest hfirst] at h
        exact absurd h hfirst

/-- A chain that fails has not reached its last source. -/
theorem switchAll_fail {srcs : List Source} {last : Source} (hlast : last ∉ srcs)
    (h : (switchAll pid enabled answers (srcs ++ [last]) s).2 ≠ 0) :
    (switchAll pid enabled answers (srcs ++ [last]) s).1.on last = s.on last := by
  induction srcs generalizing s with
  | nil =>
      by_cases hans : answers last = 0
      · rw [List.nil_append, switchAll_cons_ok [] hans] at h
        exact absurd rfl h
      · rw [List.nil_append, switchAll_cons_fail [] hans, on_record]
  -- The list stops at the first source that refuses, before the last one.
  | cons first rest ih =>
      by_cases hfirst : answers first = 0
      · rw [List.cons_append, switchAll_cons_ok _ hfirst] at h ⊢
        rw [ih (fun hmem => hlast (List.mem_cons_of_mem _ hmem)) h]
        have hne : last ≠ first := by
          rintro rfl
          exact hlast List.mem_cons_self
        exact Function.update_of_ne hne _ _
      · rw [List.cons_append, switchAll_cons_fail _ hfirst, on_record]

/-- What `set_enabled_locked` can do: nothing, switch all sources, or fail and leave
`g_enabled` and the last source. -/
theorem setEnabledLocked_cases (s : State) (pid : UInt32) (enabled : Bool)
    (answers : Source → Int) :
    enabled = s.enabled ∧ s.setEnabledLocked pid enabled answers = (s, 0) ∨
      enabled ≠ s.enabled ∧ (s.setEnabledLocked pid enabled answers).2 = 0 ∧
        (s.setEnabledLocked pid enabled answers).1.enabled = enabled ∧
        (∀ src, (s.setEnabledLocked pid enabled answers).1.on src = enabled) ∨
      enabled ≠ s.enabled ∧ (s.setEnabledLocked pid enabled answers).2 ≠ 0 ∧
        (s.setEnabledLocked pid enabled answers).1.enabled = s.enabled ∧
        (s.setEnabledLocked pid enabled answers).1.on .runtimeApiActivity
          = s.on .runtimeApiActivity := by
  by_cases hsame : enabled = s.enabled
  · exact Or.inl ⟨hsame, if_pos hsame⟩
  · refine Or.inr ?_
    by_cases herror : (switchAll pid enabled answers Source.all s).2 = 0
    · have hall : s.setEnabledLocked pid enabled answers
          = (({ (switchAll pid enabled answers Source.all s).1 with enabled := enabled }
              : State).record pid 0 (if enabled then "enabled" else "disabled"), 0) := by
        rw [setEnabledLocked, if_neg hsame]
        exact if_pos herror
      rw [hall]
      refine Or.inl ⟨hsame, rfl, enabled_record _ _, fun src => ?_⟩
      rw [on_record]
      exact switchAll_ok (by decide) herror src (by cases src <;> decide)
    · have hfail : s.setEnabledLocked pid enabled answers
          = switchAll pid enabled answers Source.all s := by
        rw [setEnabledLocked, if_neg hsame]
        exact if_neg herror
      rw [hfail]
      refine Or.inr ⟨hsame, herror, enabled_switchAll _, ?_⟩
      -- The last source is switched after all others, so a failure comes before it has changed.
      have hlast : Source.runtimeApiActivity
          ∉ [.runtimeDomain, .hcclDomain, .kernelActivity, .hcclActivity] := by decide
      exact switchAll_fail hlast herror

/-! ### A start -/

/-- `cleanup_map` leaves the sources. -/
@[simp] theorem on_cleanupMap : s.cleanupMap.on = s.on := rfl

/-- `cleanup_map` leaves `g_enabled`. -/
@[simp] theorem enabled_cleanupMap : s.cleanupMap.enabled = s.enabled := rfl

/-- After `cleanup_map` there is no ring. -/
@[simp] theorem header_cleanupMap : s.cleanupMap.header = none := rfl

/-- `msptiUnsubscribe` leaves the sources. -/
@[simp] theorem on_unsubscribe (result : Int) : (s.unsubscribe result).on = s.on := by
  unfold unsubscribe
  split <;> rfl

/-- `msptiUnsubscribe` leaves `g_enabled`. -/
@[simp] theorem enabled_unsubscribe (result : Int) :
    (s.unsubscribe result).enabled = s.enabled := by
  unfold unsubscribe
  split <;> rfl

section Start

variable {path : String} {capacity : UInt64} {startAnswers : StartAnswers} {fd subscriber : Nat}

/-- The subscription leaves `g_enabled`. -/
@[simp] theorem enabled_subscribed :
    (s.subscribed pid path capacity startAnswers fd subscriber).enabled = s.enabled :=
  (s.mapped_filled pid path capacity startAnswers fd).enabled

/-- The callback domains of a new subscriber are off. -/
@[simp] theorem on_subscribed (src : Source) :
    (s.subscribed pid path capacity startAnswers fd subscriber).on src
      = if src.isDomain then false else s.on src := by
  rw [← (s.mapped_filled pid path capacity startAnswers fd).on]
  rfl

/-- A start that gets to the sources has mapped its ring. -/
theorem StartsUp.maps (h : s.StartsUp (some path) capacity startAnswers) :
    s.Maps path capacity startAnswers := by
  obtain ⟨p, hp, hnew⟩ := h.path
  obtain rfl := Option.some.inj hp
  exact ⟨⟨rfl, h.capacity, h.closed⟩, hnew, h.open_, h.ftruncate, h.mmap⟩

/-- A start in which nothing fails gets to the sources. -/
theorem startsUp_of_completes (hmaps : s.Maps path capacity startAnswers)
    (hcompletes : s.Completes startAnswers) : s.StartsUp (some path) capacity startAnswers where
  path := ⟨path, rfl, hmaps.new⟩
  capacity := hmaps.accepts.capacity
  closed := hmaps.accepts.closed
  open_ := hmaps.calls.open_
  ftruncate := hmaps.calls.ftruncate
  mmap := hmaps.calls.mmap
  memalign := hcompletes.memalign
  subscribe := hcompletes.subscribe
  register := hcompletes.register

end Start

/-! ### The invariant -/

/-- An open ring has a subscriber. While the ring is open or `g_enabled` is set, the last
source of the chain is as `g_enabled` says. -/
structure Kept (s : State) : Prop where
  subscriber : s.header.isSome → s.subscriber.isSome
  last : s.header.isSome ∨ s.enabled = true → s.on .runtimeApiActivity = s.enabled

/-- `set_enabled_locked` keeps the invariant of an open ring. -/
theorem Kept.setEnabledLocked (h : Kept s) (hheader : s.header.isSome) (pid : UInt32)
    (enabled : Bool) (answers : Source → Int) :
    Kept (s.setEnabledLocked pid enabled answers).1 := by
  constructor
  · intro _
    rw [subscriber_setEnabledLocked]
    exact h.subscriber hheader
  · -- The flag changes only together with the last source.
    intro _
    rcases setEnabledLocked_cases s pid enabled answers with
      ⟨-, hsame⟩ | ⟨-, -, henabled, hon⟩ | ⟨-, -, henabled, hon⟩
    · rw [hsame]
      exact h.last (Or.inl hheader)
    · rw [hon, henabled]
    · rw [hon, henabled]
      exact h.last (Or.inl hheader)

/-- The invariant without a ring is about `g_enabled` only. -/
theorem Kept.close (h : s.enabled = true → s.on .runtimeApiActivity = true) (result : Int) :
    Kept (s.unsubscribe result).cleanupMap where
  subscriber hheader := by cases hheader
  last hopen := by
    have henabled : s.enabled = true := by simpa using hopen
    simp [henabled, h henabled]

/-- Without a ring, the invariant is about `g_enabled` and the last source. -/
theorem Kept.of_closed {t : State} (h : Kept s) (hheader : t.header = none)
    (henabled : t.enabled = s.enabled)
    (hon : t.on .runtimeApiActivity = s.on .runtimeApiActivity) : Kept t where
  subscriber hopen := by
    rw [hheader] at hopen
    cases hopen
  last hopen := by
    rw [hheader, henabled] at hopen
    have hset : s.enabled = true := by simpa using hopen
    rw [hon, henabled]
    exact h.last (Or.inr hset)

/-- A start keeps the invariant. -/
theorem Kept.start {path : Option String} {capacity : UInt64} {answers : StartAnswers}
    {r : State × Int} (h : Kept s) (hstart : Start s pid capacity answers path r) : Kept r.1 := by
  cases hstart with
  | refused => exact h
  | unopened hclosed => exact h.of_closed hclosed rfl rfl
  | unmapped => exact h.of_closed rfl rfl rfl
  | @unfilled path fd =>
      have hmapped := s.mapped_filled pid path capacity answers fd
      exact h.of_closed rfl hmapped.enabled (congrFun hmapped.on _)
  | @unsubscribed path fd =>
      have hmapped := s.mapped_filled pid path capacity answers fd
      exact h.of_closed rfl (by simp [hmapped.enabled]) (by simp [hmapped.on])
  | unregistered => exact h.of_closed rfl (by simp) (by simp [Source.isDomain])
  -- The ring is closed, but some sources can stay on.
  | @unswitched path fd subscriber _ _ herror =>
      rw [switched] at herror ⊢
      rcases setEnabledLocked_cases (s.subscribed pid path capacity answers fd subscriber) pid true
        answers.enable with ⟨-, hsame⟩ | ⟨-, hok, -⟩ | ⟨-, -, henabled, hon⟩
      · rw [hsame] at herror
        exact absurd rfl herror
      · exact absurd hok herror
      · refine h.of_closed rfl ?_ ?_
        · simpa using henabled
        · simpa [Source.isDomain] using hon
  | @started path fd subscriber hmaps hcompletes =>
      have hok := (s.switched_eq_zero_iff pid path capacity answers fd subscriber).mpr
        hcompletes.enable
      show Kept (s.switched pid path capacity answers fd subscriber).1
      rw [switched] at hok ⊢
      constructor
      · intro _
        rw [subscriber_setEnabledLocked]
        rfl
      · intro _
        rcases setEnabledLocked_cases (s.subscribed pid path capacity answers fd subscriber) pid
          true answers.enable with ⟨hsame, heq⟩ | ⟨-, -, henabled, hon⟩ | ⟨-, herror, -⟩
        · -- The sources count as switched on already.
          rw [enabled_subscribed] at hsame
          rw [heq, on_subscribed, enabled_subscribed, ← hsame]
          exact (h.last (Or.inr hsame.symm)).trans hsame.symm
        · rw [hon, henabled]
        · exact absurd hok herror

/-- Only the process that has the ring open can switch the sources. -/
theorem hangMsptiSetEnabled_cases (s : State) (pid : UInt32) (enabled : Bool)
    (answers : Source → Int) :
    ¬ (s.header.isSome ∧ pid = s.owner) ∧ s.hangMsptiSetEnabled pid enabled answers = (s, EINVAL) ∨
      s.header.isSome ∧ pid = s.owner ∧
        s.hangMsptiSetEnabled pid enabled answers = s.setEnabledLocked pid enabled answers := by
  by_cases hopen : s.header.isSome ∧ pid = s.owner
  · obtain ⟨hheader, howner⟩ := hopen
    refine Or.inr ⟨hheader, howner, if_neg ?_⟩
    simp [howner, Option.isNone_iff_eq_none, ← Option.isSome_iff_ne_none, hheader]
  · refine Or.inl ⟨hopen, if_pos ?_⟩
    rwa [not_and_or, Bool.not_eq_true, Option.isSome_eq_false_iff] at hopen

/-- Every call keeps the invariant. -/
theorem Kept.call (h : Kept s) (a : Action) : Kept (s.call a).1 := by
  cases a with
  | start pid path capacity answers =>
      exact h.start (hangMsptiStart_cases s pid path capacity answers)
  | setEnabled pid enabled answers =>
      show Kept (s.hangMsptiSetEnabled pid enabled answers).1
      rcases s.hangMsptiSetEnabled_cases pid enabled answers with ⟨-, heq⟩ | ⟨hheader, -, heq⟩
      · exact heq ▸ h
      · exact heq ▸ h.setEnabledLocked hheader pid enabled answers
  | stop pid answers unsubscribe =>
      show Kept (s.hangMsptiStop pid answers unsubscribe)
      unfold hangMsptiStop
      split
      · exact h
      · -- The stop switches the sources off before it closes.
        rename_i hopen
        simp only [not_or, Option.isNone_iff_eq_none, ← ne_eq, Option.ne_none_iff_isSome] at hopen
        have hkept := h.setEnabledLocked hopen.1 pid false answers
        exact Kept.close (fun henabled => (hkept.last (Or.inr henabled)).trans henabled) _

/-! ### When a returned 0 is true -/

/-- A switch that is open, with all sources alike, is as `g_enabled` says. -/
theorem Kept.settled_iff (h : Kept s) (hheader : s.header.isSome) :
    s.Settled ↔ ∀ src, s.on src = s.enabled := by
  have hlast := h.last (Or.inl hheader)
  constructor
  · intro hsettled src
    rw [hsettled src .runtimeApiActivity, hlast]
  · intro hon src src'
    rw [hon, hon]

/-- A start that says it has switched the sources on has done so, unless `g_enabled` was
set before. -/
theorem truthful_start_iff (s : State) (pid : UInt32) (path : Option String) (capacity : UInt64)
    (answers : StartAnswers) :
    s.Truthful (.start pid path capacity answers) ↔ s.Sound (.start pid path capacity answers) := by
  have hcall : s.call (.start pid path capacity answers)
      = ((s.hangMsptiStart pid path capacity answers).1,
        some (s.hangMsptiStart pid path capacity answers).2) := rfl
  have hstart := hangMsptiStart_cases s pid path capacity answers
  generalize s.hangMsptiStart pid path capacity answers = r at hcall hstart
  by_cases hzero : r.2 = 0
  · cases hstart with
    | @started path fd subscriber hmaps hcompletes =>
        have hstarts := startsUp_of_completes hmaps hcompletes
        have hok := (s.switched_eq_zero_iff pid path capacity answers fd subscriber).mpr
          hcompletes.enable
        rw [switched] at hok hcall
        rcases setEnabledLocked_cases (s.subscribed pid path capacity answers fd subscriber) pid
          true answers.enable with ⟨hsame, heq⟩ | ⟨hdiff, -, -, hon⟩ | ⟨-, herror, -⟩
        · -- Nothing is switched, and the callback domains are off.
          rw [enabled_subscribed] at hsame
          refine iff_of_false (fun htruthful => ?_) fun hsound => ?_
          · have hon := (htruthful true rfl (by rw [hcall])).2 .runtimeDomain
            rw [hcall, heq, on_subscribed] at hon
            cases hon
          · cases hsame.trans (hsound hstarts)
        · -- All five sources are switched on.
          rw [enabled_subscribed] at hdiff
          refine iff_of_true (fun enabled hwanted _ => ?_) fun _ =>
            (Bool.not_eq_true _).mp hdiff.symm
          obtain rfl := Option.some.inj hwanted
          rw [hcall]
          refine ⟨fun _ => ?_, hon⟩
          rw [subscriber_setEnabledLocked]
          rfl
        · exact absurd hok herror
    | refused _ herror | unopened _ _ herror | unmapped _ _ _ herror => exact absurd hzero herror
    | unfilled => cases hzero
    | @unsubscribed _ _ e => exact absurd hzero e.ne
    | unregistered _ _ herror | unswitched _ _ herror => exact absurd hzero herror
  · -- A start that fails promises nothing.
    refine iff_of_true (fun enabled _ hrc => ?_) fun hstarts => ?_
    · rw [hcall] at hrc
      exact absurd (Option.some.inj hrc) hzero
    · -- A start that starts up with `g_enabled` set returns 0.
      cases path with
      | none =>
          obtain ⟨p, hp, -⟩ := hstarts.path
          cases hp
      | some path =>
          by_contra hset
          refine hzero (hstart.eq_zero_iff.mpr ⟨hstarts.maps, hstarts.memalign, hstarts.subscribe,
            hstarts.register, Or.inl ?_⟩)
          simpa using hset

/-- A switch that says so has all sources as it was asked, unless it found `g_enabled` so
and left them as they were. -/
theorem Kept.truthful_setEnabled_iff (h : Kept s) (pid : UInt32) (enabled : Bool)
    (answers : Source → Int) :
    s.Truthful (.setEnabled pid enabled answers) ↔ s.Sound (.setEnabled pid enabled answers) := by
  have hcall : s.call (.setEnabled pid enabled answers)
      = ((s.hangMsptiSetEnabled pid enabled answers).1,
        some (s.hangMsptiSetEnabled pid enabled answers).2) := rfl
  rcases s.hangMsptiSetEnabled_cases pid enabled answers with
    ⟨hnot, heq⟩ | ⟨hheader, howner, heq⟩
  · -- The library is not open for this process, so the call fails.
    rw [heq] at hcall
    refine iff_of_true (fun e _ hrc => ?_) fun hheader howner _ => absurd ⟨hheader, howner⟩ hnot
    rw [hcall] at hrc
    cases hrc
  · rw [heq] at hcall
    rcases setEnabledLocked_cases s pid enabled answers with
      ⟨hsame, hnothing⟩ | ⟨hdiff, -, -, hon⟩ | ⟨hdiff, herror, -⟩
    · -- The flag is as asked, and what it says is true if the sources are alike.
      rw [hnothing] at hcall
      constructor
      · intro htruthful _ _ _
        have hon := (htruthful enabled rfl (by rw [hcall])).2
        rw [hcall] at hon
        exact (h.settled_iff hheader).mpr fun src => (hon src).trans hsame
      · intro hsound e hwanted _
        obtain rfl := Option.some.inj hwanted
        rw [hcall]
        have hon := (h.settled_iff hheader).mp (hsound hheader howner hsame)
        exact ⟨fun _ => h.subscriber hheader, fun src => (hon src).trans hsame.symm⟩
    · -- All five sources are switched.
      refine iff_of_true (fun e hwanted _ => ?_) fun _ _ hsame => absurd hsame hdiff
      obtain rfl := Option.some.inj hwanted
      rw [hcall]
      refine ⟨fun _ => ?_, hon⟩
      rw [subscriber_setEnabledLocked]
      exact h.subscriber hheader
    · -- The call fails, and promises nothing.
      refine iff_of_true (fun e _ hrc => ?_) fun _ _ hsame => absurd hsame hdiff
      rw [hcall] at hrc
      exact absurd (Option.some.inj hrc) herror

/-- **One call.** Its 0 is true if and only if it is sound. -/
theorem Kept.truthful_iff_sound (h : Kept s) (a : Action) : s.Truthful a ↔ s.Sound a := by
  cases a with
  | start pid path capacity answers => exact truthful_start_iff s pid path capacity answers
  | setEnabled pid enabled answers => exact h.truthful_setEnabled_iff pid enabled answers
  | stop pid answers unsubscribe =>
      refine iff_of_true (fun enabled hwanted => ?_) trivial
      cases hwanted

end State

/-- **What a successful switch means.** From every state of the files and of the sources, in
every history of calls: every call that returns 0 has all five sources as it was asked if
and only if every call is sound. -/
theorem switched_truthful_iff (files : List String) (on : Source → Bool) (as : List Action) :
    Run.Along State.step (fun s a _ => s.Truthful a) (State.start files on) as ↔
      Run.Along State.step (fun s a _ => s.Sound a) (State.start files on) as := by
  -- Only the subscriber and the last source have to be known before a call.
  have hkept : ∀ pre s, Run State.step (State.start files on) pre s → s.Kept := by
    intro pre s hrun
    refine Run.invariant State.Kept (fun t a t' ht hs => ?_) hrun ⟨?_, ?_⟩
    · exact Option.some.inj hs ▸ ht.call a
    · intro hheader
      cases hheader
    · intro hopen
      rcases hopen with hheader | henabled
      · cases hheader
      · cases henabled
  constructor
  · intro h pre a post s s' heq hrun hstep
    exact ((hkept pre s hrun).truthful_iff_sound a).mp (h pre a post s s' heq hrun hstep)
  · intro h pre a post s s' heq hrun hstep
    exact ((hkept pre s hrun).truthful_iff_sound a).mpr (h pre a post s s' heq hrun hstep)

/-- A start in which nothing fails. -/
def granted : StartAnswers where
  open_ := .ok 3
  ftruncate := .ok ()
  mmap := .ok ()
  memalign i := some i
  subscribe := .ok 1
  register := 0
  enable _ := 0
  unsubscribe := 0

/-- A start, a switch off in which the third call fails, and a switch on. The switch on
returns 0, and the callback domains are off. -/
def halfDisabled : List Action :=
  [.start 5 (some "ring.msflight") 64 granted,
    .setEnabled 5 false fun src => if src = .kernelActivity then 9 else 0,
    .setEnabled 5 true fun _ => 0]

/-- The switch on of this history is not truthful. -/
theorem half_disabled :
    ¬ Run.Along State.step (fun s a _ => s.Truthful a) (State.start [] fun _ => false)
      halfDisabled := by
  intro h
  obtain ⟨s, hrun⟩ : ∃ s, Run State.step (State.start [] fun _ => false)
      (halfDisabled.take 2) s := ⟨_, rfl⟩
  have htruthful := h (halfDisabled.take 2) _ [] s _ rfl hrun rfl
  obtain rfl := Option.some.inj hrun
  have hon := (htruthful true rfl (by decide)).2 .runtimeDomain
  exact absurd hon (by decide)

end HangAnalyzer.Mspti.Switch
