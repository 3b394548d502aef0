import HangAnalyzer.Proofs.Checkpoint.WaitFree

/-!
# `HangAnalyzer.Proofs.Checkpoint.Poller`: the poller thread and its manager

When the control calls of a manager come one after the other, its thread object, its flags
and its deletion never get in each other's way. `Service.Orderly` is the invariant. What can
still go wrong is a misuse by the callers: `Service.Orderly.fault_run` says that nothing else
does. What they have to do is the subject of `HangAnalyzer.Proofs.Checkpoint.Destroy`.
-/

set_option autoImplicit false

namespace HangAnalyzer.Checkpoint

open HangAnalyzer.Lib

/-! ### The thread and the flags -/

namespace Service

/-- There is no thread. -/
def Idle (s : Service) : Prop := s.poller = none ∧ s.pollerRunning = false

/-- The thread is in its loop, or leaves it. -/
def Alive (s : Service) : Prop :=
  ∃ t, s.poller = some t ∧ t.pc ≠ .exited ∧ s.pollerRunning = true

/-- The thread has ended and is not joined. -/
def Gone (s : Service) : Prop :=
  ∃ t, s.poller = some t ∧ t.pc = .exited ∧ s.pollerRunning = false

/-- What a control call finds at its next step. -/
def Fits (s : Service) : ControlPc → Prop
  | .exchange _ | .setStop | .loadRunning | .done _ => s.Idle ∨ (s.Alive ∧ s.stopPoller = false)
  | .resetStop _ | .spawnFailed => s.poller = none ∧ s.pollerRunning = true
  | .spawn _ => s.poller = none ∧ s.pollerRunning = true ∧ s.stopPoller = false
  | .joinable => s.stopPoller = true ∧ (s.Idle ∨ s.Alive ∨ s.Gone)
  | .join => s.stopPoller = true ∧ (s.Alive ∨ s.Gone)
  | .loadJoinable | .slots _ | .teardown => s.Idle

/-- Before a control call starts, the ones before it have returned. -/
def Sequential (s : Service) (a : ServiceAction) (_ : Service) : Prop :=
  match a with
  | .startPoller .. | .stopPoller | .destroy => ∀ pc ∈ s.controls, pc.returned = true
  | _ => True

instance (s : Service) (a : ServiceAction) (s' : Service) : Decidable (s.Sequential a s') :=
  match a with
  | .startPoller .. | .stopPoller | .destroy =>
      inferInstanceAs (Decidable (∀ pc ∈ s.controls, pc.returned = true))
  | .control .. | .thread _ | .register .. | .pool _ => inferInstanceAs (Decidable True)

/-- The control calls come one after the other, and find the thread and the flags as they
should be. -/
structure Orderly (s : Service) : Prop where
  alone : ∀ (k j : Nat) pc pc', s.controls[k]? = some pc → s.controls[j]? = some pc' →
    pc.returned = false → pc'.returned = false → k = j
  fits : ∀ pc ∈ s.controls, pc.returned = false → s.Fits pc
  rest : (∀ pc ∈ s.controls, pc.returned = true) → s.Fits (.done 0)
  leaving : ∀ t, s.poller = some t → t.pc = .clear → s.stopPoller = true
  deleted : s.session.deleted = true → s.Idle ∧ ∀ pc ∈ s.controls, pc.returned = true

end Service

section
variable {s s' : Service} {t : PollerThread} {k : Nat} {rc : Int}

open Service

/-- Somebody uses the manager after its deletion, or the action does what it does to a manager
that is there. -/
theorem Service.step_cases {a : ServiceAction} (hs : s.step a = some s') :
    (s.session.deleted = true ∧ s.touches a = true ∧ s' = { s with fault := true }) ∨
    ((s.session.deleted = true → s.touches a = false) ∧ s.act a = some s') := by
  unfold Service.step at hs
  split at hs
  case isTrue hgone => exact .inl ⟨hgone.1, hgone.2, (Option.some.inj hs).symm⟩
  case isFalse hguard => exact .inr ⟨fun hd => Bool.eq_false_iff.mpr fun ht => hguard ⟨hd, ht⟩, hs⟩

/-- A control call that makes a step on a manager that is there. -/
theorem Service.control_cases {spawned : Bool}
    (hguard : s.session.deleted = true → s.touches (.control k spawned) = false)
    (hs : s.act (.control k spawned) = some s') :
    ∃ pc u pc', s.controls[k]? = some pc ∧ pc.returned = false ∧ s.session.deleted = false ∧
      s.controlStep spawned pc = some (u, pc') ∧
      s' = { u with controls := s.controls.set k pc' } := by
  obtain ⟨pc, hk, hs⟩ := Option.bind_eq_some_iff.mp hs
  obtain ⟨⟨u, pc'⟩, hstep, rfl⟩ := Option.map_eq_some_iff.mp hs
  have hreturned : pc.returned = false := by
    cases pc <;> first | rfl | cases hstep
  refine ⟨pc, u, pc', hk, hreturned, Bool.eq_false_iff.mpr fun hd => ?_, hstep, rfl⟩
  have htouches := hguard hd
  simp [touches, hk, hreturned] at htouches

/-- The thread object, the flags and the calls decide whether a service is orderly. -/
theorem Service.Orderly.session (h : s.Orderly) {session : Session}
    (hdeleted : session.deleted = true → s.session.deleted = true) :
    ({ s with session } : Service).Orderly :=
  ⟨h.alone, h.fits, h.rest, h.leaving, fun hd => h.deleted (hdeleted hd)⟩

/-- So a step of the pool leaves it orderly. -/
theorem Service.Orderly.advance (h : s.Orderly) {session : Session} {a : Action}
    (hs : s.session.advance a = some session) : ({ s with session } : Service).Orderly := by
  obtain ⟨pool, -, rfl⟩ := Option.map_eq_some_iff.mp hs
  exact h.session fun hd => hd

/-- A thread that goes on in its loop is in its loop. -/
theorem alive_setThread {pc : ThreadPc} (h : s.Alive) (hpc : pc ≠ .exited) :
    (s.setThread t pc).Alive := by
  obtain ⟨u, -, -, hrunning⟩ := h
  exact ⟨{ t with pc }, rfl, hpc, hrunning⟩

/-- The thread goes on. Nobody but the thread notices. -/
theorem fits_setThread {pc : ThreadPc} {c : ControlPc} (hpoller : s.poller = some t)
    (hgo : t.pc ≠ .exited) (hpc : pc ≠ .exited) (h : s.Fits c) : (s.setThread t pc).Fits c := by
  -- There is a thread, and it has not ended.
  have hidle : ¬ s.Idle := fun hidle => by
    rw [hidle.1] at hpoller
    cases hpoller
  have hgone : ¬ s.Gone := by
    rintro ⟨u, hu, hexited, -⟩
    obtain rfl := Option.some.inj (hpoller.symm.trans hu)
    exact hgo hexited
  -- A call that needs no thread does not run beside one, and the others fit it as before.
  cases c with
  | exchange | setStop | loadRunning | done =>
      rcases h with h | ⟨halive, hstop⟩
      · exact absurd h hidle
      · exact .inr ⟨alive_setThread halive hpc, hstop⟩
  | resetStop | spawnFailed =>
      rw [h.1] at hpoller
      cases hpoller
  | spawn =>
      rw [h.1] at hpoller
      cases hpoller
  | joinable =>
      obtain ⟨hstop, h | h | h⟩ := h
      · exact absurd h hidle
      · exact ⟨hstop, .inr (.inl (alive_setThread h hpc))⟩
      · exact absurd h hgone
  | join =>
      obtain ⟨hstop, h | h⟩ := h
      · exact ⟨hstop, .inl (alive_setThread h hpc)⟩
      · exact absurd h hgone
  | loadJoinable | slots | teardown => exact absurd h hidle

/-- The thread clears `poller_running` and ends. It does so only after a store of
`stop_poller`, and then a call waits to join it. -/
theorem fits_exit {c : ControlPc} (hpoller : s.poller = some t)
    (hstop : s.stopPoller = true) (h : s.Fits c) :
    ({ s with pollerRunning := false }.setThread t .exited).Fits c := by
  have hidle : ¬ s.Idle := fun hidle => by
    rw [hidle.1] at hpoller
    cases hpoller
  -- The thread has cleared the flag and ended, which is what the joining call waits for.
  have hgone : ({ s with pollerRunning := false }.setThread t .exited).Gone :=
    ⟨{ t with pc := .exited }, rfl, rfl, rfl⟩
  cases c with
  -- `stop_poller` is set, so no other call is in progress that runs beside a thread.
  | exchange | setStop | loadRunning | done =>
      rcases h with h | ⟨-, hgo⟩
      · exact absurd h hidle
      · rw [hstop] at hgo
        cases hgo
  | resetStop | spawnFailed =>
      rw [h.1] at hpoller
      cases hpoller
  | spawn =>
      rw [h.1] at hpoller
      cases hpoller
  | joinable => exact ⟨hstop, .inr (.inr hgone)⟩
  | join => exact ⟨hstop, .inr hgone⟩
  | loadJoinable | slots | teardown => exact absurd h hidle

/-- While there is a thread, the manager is there. -/
theorem Service.Orderly.alive (h : s.Orderly) (hpoller : s.poller = some t) :
    s.session.deleted = false := by
  rw [Bool.eq_false_iff]
  intro hdeleted
  rw [(h.deleted hdeleted).1.1] at hpoller
  cases hpoller

/-- The thread makes a step inside its loop. -/
theorem Service.Orderly.setThread (h : s.Orderly) {pc : ThreadPc} (hpoller : s.poller = some t)
    (hgo : t.pc ≠ .exited) (hpc : pc ≠ .exited)
    (hleaving : pc = .clear → s.stopPoller = true) : (s.setThread t pc).Orderly where
  alone := h.alone
  fits c hc hrunning := fits_setThread hpoller hgo hpc (h.fits c hc hrunning)
  rest hall := fits_setThread hpoller hgo hpc (h.rest hall)
  leaving u hu hclear := by
    obtain rfl := Option.some.inj hu
    exact hleaving hclear
  deleted hdeleted := by
    have hlive := h.alive hpoller
    rw [show s.session.deleted = true from hdeleted] at hlive
    cases hlive

/-! ### The steps -/

/-- A thread that makes a step is not deleted under its feet. -/
theorem Service.Orderly.thread_cases (h : s.Orderly) (hs : s.step (.thread rc) = some s') :
    ∃ t, s.poller = some t ∧ t.pc ≠ .exited ∧ s.threadStep t rc = some s' := by
  rcases Service.step_cases hs with ⟨hdeleted, htouches, -⟩ | ⟨-, hact⟩
  · simp [touches, (h.deleted hdeleted).1.1] at htouches
  · obtain ⟨t, hpoller, hstep⟩ := Option.bind_eq_some_iff.mp hact
    refine ⟨t, hpoller, fun hexited => ?_, hstep⟩
    simp [threadStep, hexited] at hstep

/-- One step of the thread. -/
theorem Service.Orderly.thread (h : s.Orderly) (hs : s.step (.thread rc) = some s') :
    s'.Orderly := by
  obtain ⟨t, hpoller, hgo, hs⟩ := h.thread_cases hs
  cases hpc : t.pc with
  | test =>
      simp only [threadStep, hpc, Option.some.injEq] at hs
      subst hs
      -- The thread leaves its loop only when it has seen `stop_poller`.
      refine h.setThread hpoller hgo (by split <;> simp) fun hclear => ?_
      by_contra hstop
      simp [hstop] at hclear
  | call =>
      simp only [threadStep, hpc] at hs
      -- The poll call of the thread is a step of the session.
      obtain ⟨session, hsession, rfl⟩ := Option.map_eq_some_iff.mp hs
      refine (h.advance hsession).setThread hpoller hgo ?_ ?_
      · split <;> simp
      · split <;> simp
  | polling =>
      simp only [threadStep, hpc] at hs
      obtain ⟨session, hsession, rfl⟩ := Option.map_eq_some_iff.mp hs
      refine (h.advance hsession).setThread hpoller hgo ?_ ?_
      · split <;> simp
      · split <;> simp
  | sleep =>
      simp only [threadStep, hpc, Option.some.injEq] at hs
      subst hs
      exact h.setThread hpoller hgo (by simp) (by simp)
  | clear =>
      simp only [threadStep, hpc, Option.some.injEq] at hs
      subst hs
      have hstop := h.leaving t hpoller hpc
      refine ⟨h.alone, fun c hc hrunning => fits_exit hpoller hstop (h.fits c hc hrunning),
        fun hall => fits_exit hpoller hstop (h.rest hall), fun u hu hclear => ?_, fun hd => ?_⟩
      · obtain rfl := Option.some.inj hu
        cases hclear
      · have hlive := h.alive hpoller
        rw [show s.session.deleted = true from hd] at hlive
        cases hlive
  | exited => exact absurd hpc hgo

/-- What a step of a control call leaves to the next step `pc'` of the call, or to the next
call when it has returned. -/
structure Service.Leaves (u : Service) (pc' : ControlPc) : Prop where
  fits : u.Fits pc'
  leaving : ∀ t, u.poller = some t → t.pc = .clear → u.stopPoller = true
  deleted : u.session.deleted = true → u.Idle ∧ pc'.returned = true

/-- The control call in progress makes a step to `u`, with the next step `pc'`. -/
theorem Service.Orderly.control_of (h : s.Orderly) {pc pc' : ControlPc} {u : Service}
    (hk : s.controls[k]? = some pc) (hpc : pc.returned = false) (hu : u.Leaves pc') :
    ({ u with controls := s.controls.set k pc' } : Service).Orderly := by
  -- The other calls have returned, so this one is the only one to look at.
  have hother : ∀ (i : Nat) c, (s.controls.set k pc')[i]? = some c → i ≠ k → c.returned = true := by
    intro i c hi hne
    rw [List.getElem?_set_ne (Ne.symm hne)] at hi
    by_contra hrunning
    exact hne (h.alone i k c pc hi hk (Bool.eq_false_iff.mpr hrunning) hpc)
  have hself : ∀ c, (s.controls.set k pc')[k]? = some c → c = pc' := by
    intro c hc
    rw [List.getElem?_set_self (List.getElem?_eq_some_iff.mp hk).1] at hc
    exact (Option.some.inj hc).symm
  have hmem : ∀ c ∈ s.controls.set k pc', c.returned = false → c = pc' := by
    intro c hc hrunning
    obtain ⟨i, hi⟩ := List.getElem?_of_mem hc
    by_cases hik : i = k
    · exact hself c (hik ▸ hi)
    · rw [hother i c hi hik] at hrunning
      cases hrunning
  refine ⟨?_, ?_, ?_, hu.leaving, ?_⟩
  · intro i j c c' hi hj hc hc'
    have hi' : i = k := by
      by_contra hne
      rw [hother i c hi hne] at hc
      cases hc
    have hj' : j = k := by
      by_contra hne
      rw [hother j c' hj hne] at hc'
      cases hc'
    rw [hi', hj']
  · intro c hc hrunning
    rw [hmem c hc hrunning]
    exact hu.fits
  · intro hall
    have hreturned := hall pc' (List.mem_iff_getElem?.mpr
      ⟨k, List.getElem?_set_self (List.getElem?_eq_some_iff.mp hk).1⟩)
    have hfits := hu.fits
    cases pc' <;> cases hreturned
    exact hfits
  · intro hd
    obtain ⟨hidle, hreturned⟩ := hu.deleted hd
    refine ⟨hidle, fun c hc => ?_⟩
    by_contra hrunning
    have heq := hmem c hc (Bool.eq_false_iff.mpr hrunning)
    exact hrunning (heq ▸ hreturned)

/-- A control call starts, and its next step finds what a call that has returned leaves. -/
theorem Service.Orderly.begin (h : s.Orderly) (hall : ∀ pc ∈ s.controls, pc.returned = true)
    {pc : ControlPc} (hlive : s.session.deleted = true → pc.returned = true)
    (hfits : s.Fits (.done 0) → s.Fits pc) :
    ({ s with controls := s.controls ++ [pc] } : Service).Orderly := by
  -- Only the new call can be in progress.
  have hlast : ∀ (i : Nat) c, (s.controls ++ [pc])[i]? = some c → c.returned = false →
      i = s.controls.length ∧ c = pc := by
    intro i c hi hrunning
    rcases Nat.lt_or_ge i s.controls.length with hlt | hge
    · rw [List.getElem?_append_left hlt] at hi
      rw [hall c (List.mem_of_getElem? hi)] at hrunning
      cases hrunning
    · rw [List.getElem?_append_right hge] at hi
      have hlt := (List.getElem?_eq_some_iff.mp hi).1
      have hzero : i - s.controls.length = 0 := by simpa using hlt
      rw [hzero] at hi
      exact ⟨by omega, (Option.some.inj hi).symm⟩
  refine ⟨?_, ?_, fun _ => h.rest hall, h.leaving, fun hd => ⟨(h.deleted hd).1, ?_⟩⟩
  · intro i j c c' hi hj hc hc'
    rw [(hlast i c hi hc).1, (hlast j c' hj hc').1]
  · intro c hc hrunning
    obtain ⟨i, hi⟩ := List.getElem?_of_mem hc
    rw [(hlast i c hi hrunning).2]
    exact hfits (h.rest hall)
  · intro c hc
    rcases List.mem_append.mp hc with hc | hc
    · exact hall c hc
    · rw [List.mem_singleton.mp hc]
      exact hlive hd

/-- One step of `flight_checkpoint_start_poller`. -/
theorem Service.Orderly.start_leaves (h : s.Orderly) (hlive : s.session.deleted = false)
    {pc pc' : ControlPc} {u : Service} {spawned : Bool} (hfits : s.Fits pc)
    (hpc : match pc with
      | .exchange _ | .resetStop _ | .spawn _ | .spawnFailed => True
      | _ => False)
    (hs : s.controlStep spawned pc = some (u, pc')) : u.Leaves pc' := by
  -- The manager is there, so nothing has to be said of a deleted one.
  have hnot : s.session.deleted = true → u.Idle ∧ pc'.returned = true := fun hd => by
    rw [hlive] at hd
    cases hd
  cases pc with
  | exchange budget =>
      simp only [controlStep] at hs
      split at hs
      case isTrue =>
        cases hs
        exact ⟨hfits, h.leaving, hnot⟩
      case isFalse hidle =>
        cases hs
        -- The flag was clear, so there is no thread.
        have hnone : s.poller = none := by
          rcases hfits with hidle | ⟨⟨t, -, -, hrunning⟩, -⟩
          · exact hidle.1
          · exact absurd hrunning hidle
        exact ⟨⟨hnone, rfl⟩, h.leaving, hnot⟩
  | resetStop budget =>
      cases hs
      refine ⟨⟨hfits.1, hfits.2, rfl⟩, fun t ht => ?_, hnot⟩
      exact absurd (hfits.1.symm.trans ht) (by simp)
  | spawn budget =>
      simp only [controlStep] at hs
      split at hs
      case isTrue =>
        cases hs
        -- The new thread starts before its loop.
        refine ⟨.inr ⟨⟨_, rfl, by simp, hfits.2.1⟩, hfits.2.2⟩, fun t ht hclear => ?_, hnot⟩
        obtain rfl := Option.some.inj ht
        cases hclear
      case isFalse =>
        cases hs
        exact ⟨⟨hfits.1, hfits.2.1⟩, h.leaving, hnot⟩
  | spawnFailed =>
      cases hs
      exact ⟨.inl ⟨hfits.1, rfl⟩, h.leaving, hnot⟩
  | _ => cases hpc

/-- One step of `flight_checkpoint_stop_poller`. -/
theorem Service.Orderly.stop_leaves (h : s.Orderly) (hlive : s.session.deleted = false)
    {pc pc' : ControlPc} {u : Service} {spawned : Bool} (hfits : s.Fits pc)
    (hpc : match pc with
      | .setStop | .joinable | .join => True
      | _ => False)
    (hs : s.controlStep spawned pc = some (u, pc')) : u.Leaves pc' := by
  have hnot : s.session.deleted = true → u.Idle ∧ pc'.returned = true := fun hd => by
    rw [hlive] at hd
    cases hd
  cases pc with
  | setStop =>
      cases hs
      refine ⟨⟨rfl, ?_⟩, fun _ _ _ => rfl, hnot⟩
      -- Either there is no thread or it is one that is still to be joined.
      rcases hfits with hidle | ⟨halive, -⟩
      · exact .inl hidle
      · exact .inr (.inl halive)
  | joinable =>
      cases hs
      obtain ⟨hstop, hidle | halive | hgone⟩ := hfits
      · -- Without a thread there is nothing to join.
        refine ⟨?_, h.leaving, hnot⟩
        rw [hidle.1]
        exact .inl hidle
      · refine ⟨?_, h.leaving, hnot⟩
        obtain ⟨t, hpoller, -⟩ := id halive
        rw [hpoller]
        exact ⟨hstop, .inl halive⟩
      · refine ⟨?_, h.leaving, hnot⟩
        obtain ⟨t, hpoller, -⟩ := id hgone
        rw [hpoller]
        exact ⟨hstop, .inr hgone⟩
  | join =>
      obtain ⟨hstop, ⟨t, hpoller, hgo, -⟩ | ⟨t, hpoller, hexited, hrunning⟩⟩ := hfits
      · -- The call waits for a thread that has not ended.
        simp only [controlStep, hpoller, if_neg hgo] at hs
        cases hs
      · -- The thread has ended, and the call takes it away.
        simp only [controlStep, hpoller, if_pos hexited] at hs
        cases hs
        exact ⟨.inl ⟨rfl, hrunning⟩, (fun t ht => by cases ht), hnot⟩
  | _ => cases hpc

/-- One step of `flight_checkpoint_destroy`. -/
theorem Service.Orderly.destroy_leaves (h : s.Orderly) (hlive : s.session.deleted = false)
    {pc pc' : ControlPc} {u : Service} {spawned : Bool} (hfits : s.Fits pc)
    (hpc : match pc with
      | .loadRunning | .loadJoinable | .slots _ | .teardown => True
      | _ => False)
    (hs : s.controlStep spawned pc = some (u, pc')) : u.Leaves pc' := by
  have hnot : s.session.deleted = true → s.Idle ∧ pc'.returned = true := fun hd => by
    rw [hlive] at hd
    cases hd
  cases pc with
  | loadRunning =>
      cases hs
      refine ⟨?_, h.leaving, hnot⟩
      split
      case isTrue => exact hfits
      case isFalse hrunning =>
        -- The flag is clear, so there is no thread.
        rcases hfits with hidle | ⟨⟨t, -, -, hrunning'⟩, -⟩
        · exact hidle
        · exact absurd hrunning' hrunning
  | loadJoinable =>
      cases hs
      refine ⟨?_, h.leaving, hnot⟩
      rw [hfits.1]
      exact hfits
  | slots n =>
      simp only [controlStep] at hs
      split at hs
      · cases hs
        refine ⟨?_, h.leaving, hnot⟩
        split
        · -- The slots go on, or the manager is taken down when there is none left.
          exact hfits
        · exact .inl hfits
      · cases hs
        exact ⟨hfits, h.leaving, hnot⟩
  | teardown =>
      -- Nobody is there who could use the manager.
      cases hs
      exact ⟨.inl hfits, h.leaving, fun _ => ⟨hfits, rfl⟩⟩
  | _ => cases hpc

/-- One step of a control call. -/
theorem Service.Orderly.control (h : s.Orderly) {spawned : Bool}
    (hguard : s.session.deleted = true → s.touches (.control k spawned) = false)
    (hs : s.act (.control k spawned) = some s') : s'.Orderly := by
  obtain ⟨pc, u, pc', hk, hpc, hlive, hstep, rfl⟩ := Service.control_cases hguard hs
  have hfits := h.fits pc (List.mem_of_getElem? hk) hpc
  refine h.control_of hk hpc ?_
  cases pc with
  | exchange | resetStop | spawn | spawnFailed => exact h.start_leaves hlive hfits trivial hstep
  | setStop | joinable | join => exact h.stop_leaves hlive hfits trivial hstep
  | loadRunning | loadJoinable | slots | teardown =>
      exact h.destroy_leaves hlive hfits trivial hstep
  | done rc => cases hpc

/-- One step. -/
theorem Service.Orderly.step (h : s.Orderly) {a : ServiceAction} (hs : s.step a = some s')
    (hsequential : s.Sequential a s') : s'.Orderly := by
  -- A call that comes after the deletion leaves everything as it is.
  rcases Service.step_cases hs with ⟨-, -, rfl⟩ | ⟨hguard, hact⟩
  · exact ⟨h.alone, h.fits, h.rest, h.leaving, h.deleted⟩
  have hfresh : s.touches a = true → s.session.deleted = true → ∀ pc : ControlPc,
      pc.returned = true := fun htouches hd => by
    rw [hguard hd] at htouches
    cases htouches
  cases a with
  | startPoller intervalUs budget =>
      cases hact
      refine h.begin hsequential (fun hd => ?_) fun hfits => ?_
      · have hrefused := hguard hd
        -- Of a deleted manager only a refused call can be made.
        simp only [touches, Bool.and_eq_false_iff, decide_eq_false_iff_not, not_not] at hrefused
        rw [if_pos hrefused]
        rfl
      · split <;> exact hfits
  | stopPoller =>
      cases hact
      exact h.begin hsequential (fun hd => hfresh rfl hd _) id
  | destroy =>
      cases hact
      exact h.begin hsequential (fun hd => hfresh rfl hd _) id
  | control k spawned => exact h.control hguard hact
  | thread rc => exact h.thread hs
  | register id handle codes =>
      simp only [act] at hact
      split at hact
      case isTrue => cases hact
      case isFalse =>
        -- A registration in front of a call in progress changes the fault only.
        split at hact
        · cases hact
          exact h.session fun hd => hd
        · cases hact
          exact ⟨h.alone, h.fits, h.rest, h.leaving, h.deleted⟩
  | pool a =>
      simp only [act] at hact
      split at hact
      case isTrue => cases hact
      case isFalse =>
        split at hact
        · cases hact
          -- The same for a submit or poll call after the deletion.
          exact h
        · obtain ⟨session, hsession, rfl⟩ := Option.map_eq_some_iff.mp hact
          exact h.advance hsession

/-- A new manager has no thread and no calls. -/
theorem orderly_start (m : Manager) : (Service.start m).Orderly where
  alone := by simp [start]
  fits := by simp [start]
  rest _ := .inl ⟨rfl, rfl⟩
  leaving := by simp [start]
  deleted hd := by cases hd

/-! ### Misuse -/

/-- The action is the registration of a stream. -/
def ServiceAction.registers : ServiceAction → Bool
  | register .. => true
  | _           => false

/-- The action is a use of the manager after its deletion, or it registers a stream in front
of a submit or poll call in progress. -/
def Service.misuses (s : Service) (a : ServiceAction) : Bool :=
  s.session.deleted && s.touches a || a.registers && !s.session.pool.quiescent

/-- The thread breaks nothing. -/
theorem threadStep_fault (hs : s.threadStep t rc = some s') : s'.fault = s.fault := by
  unfold threadStep at hs
  split at hs
  case h_1 | h_4 | h_5 =>
    cases hs
    rfl
  case h_2 | h_3 =>
    obtain ⟨session, -, rfl⟩ := Option.map_eq_some_iff.mp hs
    rfl
  case h_6 => cases hs

/-- Nor does a control call that finds the thread and the flags as they should be. -/
theorem controlStep_fault {pc pc' : ControlPc} {u : Service} {spawned : Bool} (hfits : s.Fits pc)
    (hs : s.controlStep spawned pc = some (u, pc')) : u.fault = s.fault := by
  cases pc with
  | spawn budget =>
      -- There is no thread that the new one could overwrite.
      simp only [controlStep, hfits.1] at hs
      split at hs <;> cases hs
      · exact Bool.or_false _
      · rfl
  | join =>
      -- There is a thread to join.
      obtain ⟨-, ⟨t, hpoller, -⟩ | ⟨t, hpoller, -⟩⟩ := hfits
      all_goals
        simp only [controlStep, hpoller] at hs
        split at hs <;> cases hs
        rfl
  | teardown =>
      cases hs
      -- Nobody is left, so no thread object is deleted.
      show (s.fault || s.poller.isSome) = s.fault
      rw [hfits.1]
      exact Bool.or_false _
  | exchange | slots =>
      simp only [controlStep] at hs
      split at hs <;> cases hs <;> rfl
  | resetStop | spawnFailed | setStop | joinable | loadRunning | loadJoinable =>
      cases hs
      rfl
  | done => cases hs

/-- A step breaks something if and only if it is a misuse. -/
theorem Service.Orderly.fault_step (h : s.Orderly) {a : ServiceAction} (hs : s.step a = some s') :
    s'.fault = (s.fault || s.misuses a) := by
  -- Either the step uses a deleted manager, or it finds the manager.
  rcases Service.step_cases hs with ⟨hdeleted, htouches, rfl⟩ | ⟨hguard, hact⟩
  · simp [misuses, hdeleted, htouches]
  have hthere : (s.session.deleted && s.touches a) = false := by
    cases hd : s.session.deleted with
    | false => rfl
    | true => exact hguard hd
  rw [misuses, hthere, Bool.false_or]
  cases a with
  | startPoller | stopPoller | destroy =>
      cases hact
      exact (Bool.or_false _).symm
  | control k spawned =>
      obtain ⟨pc, u, pc', hk, hpc, -, hstep, rfl⟩ := Service.control_cases hguard hact
      exact (controlStep_fault (h.fits pc (List.mem_of_getElem? hk) hpc) hstep).trans
        (Bool.or_false _).symm
  | thread rc =>
      obtain ⟨t, -, -, hstep⟩ := h.thread_cases hs
      exact (threadStep_fault hstep).trans (Bool.or_false _).symm
  | register id handle codes =>
      simp only [act] at hact
      split at hact
      case isTrue => cases hact
      case isFalse =>
        split at hact
        · -- A registration in front of a call in progress is the fault of the caller.
          rename_i hquiescent
          cases hact
          simp [ServiceAction.registers, hquiescent]
        · rename_i hbusy
          cases hact
          simp [ServiceAction.registers, hbusy]
  | pool a =>
      simp only [act] at hact
      split at hact
      case isTrue => cases hact
      case isFalse =>
        split at hact
        · cases hact
          exact (Bool.or_false _).symm
        · obtain ⟨session, -, rfl⟩ := Option.map_eq_some_iff.mp hact
          exact (Bool.or_false _).symm

/-- The run breaks nothing if and only if none of its steps is a misuse. -/
theorem Service.Orderly.fault_run {as : List ServiceAction} (h : s.Orderly)
    (hrun : Run Service.step s as s')
    (hsequential : Run.Along Service.step Service.Sequential s as) :
    s'.fault = false ↔
      s.fault = false ∧ Run.Along Service.step (fun t a _ => t.misuses a = false) s as := by
  induction as generalizing s with
  | nil =>
      obtain rfl := Run.nil_iff.mp hrun
      exact ⟨fun hfault => ⟨hfault, Run.along_nil⟩, And.left⟩
  | cons a as ih =>
      obtain ⟨t, ht, hrest⟩ := Run.cons_iff.mp hrun
      obtain ⟨hP, hAlong⟩ := Run.along_cons_iff.mp hsequential t ht
      rw [ih (h.step ht hP) hrest hAlong, h.fault_step ht, Bool.or_eq_false_iff,
        Run.along_cons_iff, and_assoc]
      refine and_congr_right fun _ => ⟨fun hall u hu => ?_, fun hall => hall t ht⟩
      obtain rfl := Option.some.inj (ht.symm.trans hu)
      exact hall

/-! ### What the service does to the session -/

/-- A step of the service is one of its session, or leaves the session alone, or deletes the
manager. -/
theorem session_step {a : ServiceAction} (hs : s.step a = some s') :
    s'.session = s.session ∨ (∃ b, s.session.step b = some s'.session) ∨
      (∃ k : Nat, s.controls[k]? = some .teardown) ∧ s.session.deleted = false ∧
        s'.session = s.session.delete := by
  rcases Service.step_cases hs with ⟨-, -, rfl⟩ | ⟨hguard, hact⟩
  · exact .inl rfl
  -- A step of a call is a step of the session.
  have hpool : ∀ {session : Session} {b : Action}, ¬ s.session.deleted = true →
      s.session.advance b = some session → ∃ b, s.session.step b = some session := by
    intro session b hlive hadvance
    exact ⟨.pool b, by rw [Session.step, if_neg hlive, hadvance]⟩
  cases a with
  | startPoller | stopPoller | destroy =>
      cases hact
      exact .inl rfl
  | control k spawned =>
      obtain ⟨pc, u, pc', hk, -, hlive, hstep, rfl⟩ := Service.control_cases hguard hact
      cases pc with
      -- Only the last step of `destroy` deletes.
      | teardown =>
          cases hstep
          exact .inr (.inr ⟨⟨k, hk⟩, hlive, rfl⟩)
      | exchange | spawn | slots =>
          simp only [controlStep] at hstep
          split at hstep <;> cases hstep <;> exact .inl rfl
      | join =>
          simp only [controlStep] at hstep
          split at hstep
          · split at hstep <;> cases hstep
            exact .inl rfl
          · cases hstep
            exact .inl rfl
      | done => cases hstep
      | resetStop | spawnFailed | setStop | joinable | loadRunning | loadJoinable =>
          cases hstep
          exact .inl rfl
  | thread rc =>
      obtain ⟨t, hpoller, hstep⟩ := Option.bind_eq_some_iff.mp hact
      cases hpc : t.pc with
      | call | polling =>
          -- The thread polls a manager that is there.
          have hlive : ¬ s.session.deleted = true := fun hd => by
            have htouches := hguard hd
            simp [touches, hpoller, hpc] at htouches
          simp only [threadStep, hpc] at hstep
          obtain ⟨session, hsession, rfl⟩ := Option.map_eq_some_iff.mp hstep
          exact .inr (.inl (hpool hlive hsession))
      | test | sleep | clear =>
          simp only [threadStep, hpc, Option.some.injEq] at hstep
          subst hstep
          exact .inl rfl
      | exited => simp [threadStep, hpc] at hstep
  | register id handle codes =>
      have hlive : ¬ s.session.deleted = true := fun hd => by
        cases hguard hd
      simp only [act] at hact
      split at hact
      case isTrue => cases hact
      case isFalse =>
        split at hact
        · rename_i hquiescent
          cases hact
          refine .inr (.inl ⟨.register id handle codes, ?_⟩)
          simp only [Session.step]
          rw [if_neg hlive, if_pos hquiescent]
        · cases hact
          exact .inl rfl
  | pool a =>
      simp only [act] at hact
      split at hact
      case isTrue => cases hact
      case isFalse =>
        split at hact
        · cases hact
          exact .inl rfl
        · rename_i hlive
          obtain ⟨session, hsession, rfl⟩ := Option.map_eq_some_iff.mp hact
          exact .inr (.inl (hpool hlive hsession))

end

end HangAnalyzer.Checkpoint
