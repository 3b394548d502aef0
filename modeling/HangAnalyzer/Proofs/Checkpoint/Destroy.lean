import HangAnalyzer.Proofs.Checkpoint.Poller

/-!
# `HangAnalyzer.Proofs.Checkpoint.Destroy`: a manager and its deletion

`flight_checkpoint_destroy` looks at the slots and not at the calls. A submit call in front
of its compare-exchange has no slot yet, so a destroy call deletes the manager under it:
`destroy_deletes` says so of every manager whose slots are free.

`Service.Careful` is what the callers have to do about it. No submit, poll or register call
overlaps a destroy call. Then the slots that it has found free are free when it deletes the
manager, nobody uses the manager after that, and what the service does to the pool is a run
of a session, so that all that is proved of sessions holds. `service_safe` puts this together.
-/

set_option autoImplicit false

namespace HangAnalyzer.Checkpoint

open HangAnalyzer.Lib

section
variable {s s' : Service} {t : PollerThread} {k : Nat} {rc : Int}

open Service

/-! ### What the callers have to do -/

/-- The call is `flight_checkpoint_destroy`. -/
def ControlPc.destroys : ControlPc → Bool
  | loadRunning | loadJoinable | slots _ | teardown => true
  | _ => false

namespace Service

/-- The manager is there, and no destroy call is in progress. -/
def Usable (s : Service) : Prop :=
  s.session.deleted = false ∧ ∀ pc ∈ s.controls, pc.destroys = false

/-- No submit call is in progress, and no poll call but the thread's. -/
def Quiet (s : Service) : Prop :=
  s.session.pool.submits.all SubmitCall.returned = true ∧
    (s.session.pool.poll.isSome = true → s.threadPolls = true)

/-- The control calls come one after the other, and no submit, poll or register call overlaps
a destroy call or comes after the deletion. Streams are registered while no submit or poll
call is in progress. -/
def Careful (s : Service) (a : ServiceAction) (s' : Service) : Prop :=
  s.Sequential a s' ∧
    match a with
    | .control .. | .thread _ => True
    | .destroy => s.Usable ∧ s.Quiet
    | .register .. => s.Usable ∧ s.session.pool.quiescent = true
    | .startPoller .. | .stopPoller | .pool _ => s.touches a = true → s.Usable

instance (s : Service) : Decidable s.Usable := inferInstanceAs (Decidable (_ ∧ _))

instance (s : Service) : Decidable s.Quiet := inferInstanceAs (Decidable (_ ∧ _))

instance (s : Service) (a : ServiceAction) (s' : Service) : Decidable (s.Careful a s') :=
  match a with
  | .control .. | .thread _ => inferInstanceAs (Decidable (_ ∧ True))
  | .destroy | .register .. => inferInstanceAs (Decidable (_ ∧ _ ∧ _))
  | .startPoller .. | .stopPoller | .pool _ => inferInstanceAs (Decidable (_ ∧ (_ → _)))

/-- What a destroy call has seen at its next step. -/
def Seen (s : Service) : ControlPc → Prop
  | .slots n => ∀ i slot, i < n → s.session.pool.manager.slots[i]? = some slot → slot.state = .free
  | .teardown => ∀ slot ∈ s.session.pool.manager.slots, slot.state = .free
  | _ => True

/-- During a destroy call nobody else uses the manager, and what the call has seen is so. -/
structure Inspected (s : Service) : Prop where
  quiet : ∀ pc ∈ s.controls, pc.destroys = true → s.Quiet
  seen : ∀ pc ∈ s.controls, s.Seen pc
  gone : s.session.deleted = true → s.session.pool.quiescent = true

end Service

/-- A careful caller does not misuse the manager. -/
theorem Service.Orderly.not_misuses (h : s.Orderly) {a : ServiceAction}
    (hcareful : s.Careful a s') :
    s.misuses a = false := by
  -- What touches the manager comes while the manager is there.
  have hlive : s.touches a = true → s.session.deleted = false := by
    intro htouches
    cases a with
    | control k spawned =>
        refine Bool.eq_false_iff.mpr fun hd => ?_
        simp only [touches, Option.any_eq_true] at htouches
        obtain ⟨pc, hk, hreturned⟩ := htouches
        simp [(h.deleted hd).2 pc (List.mem_of_getElem? hk)] at hreturned
    | thread rc =>
        simp only [touches, Option.any_eq_true] at htouches
        obtain ⟨t, hpoller, -⟩ := htouches
        exact h.alive hpoller
    | destroy | register => exact hcareful.2.1.1
    | startPoller | stopPoller | pool => exact (hcareful.2 htouches).1
  -- A misuse touches a deleted manager, or registers while others use the streams.
  rw [misuses, Bool.or_eq_false_iff]
  constructor
  · cases htouches : s.touches a with
    | false => exact Bool.and_false _
    | true => rw [hlive htouches, Bool.false_and]
  · cases a with
    | register => simp [hcareful.2.2]
    | _ => rfl

/-- Without a destroy call there is nothing to see. -/
theorem inspected_of_usable (hnone : ∀ pc ∈ s.controls, pc.destroys = false)
    (hgone : s.session.deleted = true → s.session.pool.quiescent = true) : s.Inspected where
  quiet pc hpc hdestroys := by
    rw [hnone pc hpc] at hdestroys
    cases hdestroys
  seen pc hpc := by
    have hother := hnone pc hpc
    cases pc with
    | slots | teardown => cases hother
    | _ => trivial
  gone := hgone

/-- A call that returns before it looks at the manager leaves the calls and the slots alone. -/
theorem untouched_step {pool pool' : State} {a : Action} (h : a.touches pool = false)
    (hs : pool.step a = some pool') :
    pool'.manager = pool.manager ∧ pool'.submits = pool.submits ∧ pool'.poll = pool.poll := by
  cases a with
  | submit id seq checkpoint =>
      -- A submission with the number 0 is refused before it looks at the manager.
      have hzero : seq = 0 := by simpa [Action.touches] using h
      simp only [State.step, State.submit, if_pos hzero] at hs
      cases hs
      exact ⟨rfl, rfl, rfl⟩
  | advance k rc =>
      obtain ⟨call, hk, hstep⟩ := Option.bind_eq_some_iff.mp hs
      -- A call that has returned makes no further step.
      have hreturned : call.returned = true := by simpa [Action.touches, hk] using h
      obtain ⟨id, seq, checkpoint, stream, pc⟩ := call
      cases pc with
      | done rc gen => cases hstep
      | _ => cases hreturned
  | poll budget =>
      -- A poll with no budget returns at once.
      have hzero : budget = 0 := by simpa [Action.touches] using h
      obtain rfl := Option.some.inj hs
      rw [State.startPoll, if_pos (.inl hzero)]
      exact ⟨rfl, rfl, rfl⟩
  | advancePoll rc =>
      obtain ⟨call, hcall, -⟩ := Option.bind_eq_some_iff.mp hs
      simp [Action.touches, hcall] at h
  | host c =>
      cases hs
      exact ⟨rfl, rfl, rfl⟩

/-- The poll calls leave the submit calls alone. -/
theorem submits_poll {pool pool' : State} {a : Action} (hs : pool.step a = some pool')
    (ha : (∃ budget, a = .poll budget) ∨ ∃ rc, a = .advancePoll rc) :
    pool'.submits = pool.submits := by
  have hstep := State.step_cases hs
  rcases ha with ⟨budget, rfl⟩ | ⟨rc, rfl⟩ <;> cases hstep <;> rfl

/-- A step of the thread leaves the others quiet. -/
theorem Service.Quiet.thread (h : s.Quiet) (hpoller : s.poller = some t)
    (hs : s.threadStep t rc = some s') : s'.Quiet := by
  -- While the thread is not in its poll call, nobody is.
  have hidle : t.pc ≠ .polling → s.session.pool.poll = none := fun hpc => by
    cases hpoll : s.session.pool.poll with
    | none => rfl
    | some call =>
        have hpolls := h.2 (by rw [hpoll]; rfl)
        simp [threadPolls, hpoller, hpc] at hpolls
  have hsame : ∀ u : Service, u.session = s.session → s.session.pool.poll = none → u.Quiet := by
    intro u hu hnone
    rw [Quiet, hu, hnone]
    exact ⟨h.1, fun hsome => by cases hsome⟩
  cases hpc : t.pc with
  | test | sleep | clear =>
      simp only [threadStep, hpc, Option.some.injEq] at hs
      subst hs
      exact hsame _ rfl (hidle (by simp [hpc]))
  | call =>
      simp only [threadStep, hpc] at hs
      obtain ⟨session, hsession, rfl⟩ := Option.map_eq_some_iff.mp hs
      obtain ⟨pool, hpool, rfl⟩ := Option.map_eq_some_iff.mp hsession
      refine ⟨?_, fun hsome => ?_⟩
      · show pool.submits.all _ = true
        rw [submits_poll hpool (.inl ⟨_, rfl⟩)]
        exact h.1
      · have hsome : pool.poll.isSome = true := hsome
        simp [threadPolls, setThread, hidle (by simp [hpc]), hsome]
  | polling =>
      simp only [threadStep, hpc] at hs
      obtain ⟨session, hsession, rfl⟩ := Option.map_eq_some_iff.mp hs
      obtain ⟨pool, hpool, rfl⟩ := Option.map_eq_some_iff.mp hsession
      refine ⟨?_, fun hsome => ?_⟩
      · show pool.submits.all _ = true
        rw [submits_poll hpool (.inr ⟨_, rfl⟩)]
        exact h.1
      · have hsome : pool.poll.isSome = true := hsome
        simp [threadPolls, setThread, hsome]
  | exited => simp [threadStep, hpc] at hs

/-- When nobody but the thread polls and there is no thread, nobody is in a call. -/
theorem Service.Quiet.quiescent (h : s.Quiet) (hnone : s.poller = none) :
    s.session.pool.quiescent = true := by
  rw [State.quiescent, Bool.and_eq_true]
  refine ⟨?_, h.1⟩
  cases hpoll : s.session.pool.poll with
  | none => rfl
  | some call =>
      have hpolls := h.2 (by rw [hpoll]; rfl)
      simp [threadPolls, hnone] at hpolls

/-- One step of a control call. -/
theorem Service.Inspected.control (h : s.Inspected) (horderly : s.Orderly) {spawned : Bool}
    (hguard : s.session.deleted = true → s.touches (.control k spawned) = false)
    (hs : s.act (.control k spawned) = some s') : s'.Inspected := by
  obtain ⟨pc, u, pc', hk, hpc, hlive, hstep, rfl⟩ := Service.control_cases hguard hs
  have hmem := List.mem_of_getElem? hk
  have hfits := horderly.fits pc hmem hpc
  -- The other control calls have returned.
  have hothers : ∀ c ∈ s.controls.set k pc', c = pc' ∨ c.returned = true := by
    intro c hc
    obtain ⟨i, hi⟩ := List.getElem?_of_mem hc
    by_cases hik : i = k
    · subst hik
      rw [List.getElem?_set_self (List.getElem?_eq_some_iff.mp hk).1] at hi
      exact .inl (Option.some.inj hi).symm
    · rw [List.getElem?_set_ne (Ne.symm hik)] at hi
      refine .inr (Bool.eq_true_of_not_eq_false fun hrunning => hik ?_)
      exact horderly.alone i k c pc hi hk hrunning hpc
  have hnone : pc'.destroys = false → ∀ c ∈ s.controls.set k pc', c.destroys = false := by
    intro hother c hc
    rcases hothers c hc with rfl | hreturned
    · exact hother
    · cases c <;> first | rfl | cases hreturned
  -- The call goes on with a load, and nothing else happens.
  have hload : pc.destroys = true → u = s → s.Seen pc' →
      ({ u with controls := s.controls.set k pc' } : Service).Inspected := by
    rintro hdestroys rfl hseen
    refine ⟨fun _ _ _ => h.quiet pc hmem hdestroys, fun c hc => ?_, h.gone⟩
    rcases List.mem_or_eq_of_mem_set hc with hc | rfl
    · exact h.seen c hc
    · exact hseen
  have hgone : u.session = s.session →
      (u.session.deleted = true → u.session.pool.quiescent = true) := fun hsame => by
    rw [hsame]
    exact h.gone
  cases pc with
  | loadRunning =>
      cases hstep
      refine hload rfl rfl ?_
      split <;> trivial
  | loadJoinable =>
      cases hstep
      refine hload rfl rfl ?_
      split
      · trivial
      · exact fun i slot hi => absurd hi (Nat.not_lt_zero i)
  | slots n =>
      have hseen := h.seen _ hmem
      simp only [controlStep] at hstep
      split at hstep
      · rename_i slot hslot
        cases hstep
        refine hload rfl rfl ?_
        split
        · rename_i hfree
          intro i slot' hi hslot'
          rcases Nat.lt_succ_iff_lt_or_eq.mp hi with hi | rfl
          · exact hseen i slot' hi hslot'
          · obtain rfl := Option.some.inj (hslot.symm.trans hslot')
            exact hfree
        · trivial
      · rename_i hend
        cases hstep
        refine hload rfl rfl fun slot hslot => ?_
        obtain ⟨i, hi⟩ := List.getElem?_of_mem hslot
        have hlt := (List.getElem?_eq_some_iff.mp hi).1
        exact hseen i slot (Nat.lt_of_lt_of_le hlt (List.getElem?_eq_none_iff.mp hend)) hi
  | teardown =>
      cases hstep
      exact inspected_of_usable (hnone rfl) fun _ => (h.quiet _ hmem rfl).quiescent hfits.1
  | exchange budget =>
      simp only [controlStep] at hstep
      split at hstep <;> cases hstep <;> exact inspected_of_usable (hnone rfl) (hgone rfl)
  | spawn budget =>
      simp only [controlStep] at hstep
      split at hstep <;> cases hstep <;> exact inspected_of_usable (hnone rfl) (hgone rfl)
  | joinable =>
      cases hstep
      exact inspected_of_usable (hnone (by split <;> rfl)) (hgone rfl)
  | join =>
      simp only [controlStep] at hstep
      split at hstep
      · split at hstep <;> cases hstep
        exact inspected_of_usable (hnone rfl) (hgone rfl)
      · cases hstep
        exact inspected_of_usable (hnone rfl) (hgone rfl)
  | resetStop | spawnFailed | setStop =>
      cases hstep
      exact inspected_of_usable (hnone rfl) (hgone rfl)
  | done => cases hpc

/-- One step of a careful run. -/
theorem Service.Inspected.step (h : s.Inspected) (horderly : s.Orderly) {a : ServiceAction}
    (hs : s.step a = some s') (hcareful : s.Careful a s') : s'.Inspected := by
  rcases Service.step_cases hs with ⟨-, -, rfl⟩ | ⟨hguard, hact⟩
  · exact ⟨h.quiet, h.seen, h.gone⟩
  -- A control call starts when the others have returned.
  have hbegin : ∀ pc : ControlPc, (∀ pc ∈ s.controls, pc.returned = true) → pc.destroys = false →
      ({ s with controls := s.controls ++ [pc] } : Service).Inspected := by
    intro pc hall hother
    refine inspected_of_usable (fun c hc => ?_) h.gone
    rcases List.mem_append.mp hc with hc | hc
    · have hreturned := hall c hc
      cases c <;> first | rfl | cases hreturned
    · rw [List.mem_singleton.mp hc]
      exact hother
  cases a with
  | startPoller intervalUs budget =>
      cases hact
      exact hbegin _ hcareful.1 (by split <;> rfl)
  | stopPoller =>
      cases hact
      exact hbegin _ hcareful.1 rfl
  | destroy =>
      cases hact
      refine ⟨fun _ _ _ => hcareful.2.2, fun pc hpc => ?_, h.gone⟩
      rcases List.mem_append.mp hpc with hpc | hpc
      · exact h.seen pc hpc
      · rw [List.mem_singleton.mp hpc]
        trivial
  | control k spawned => exact h.control horderly hguard hact
  | thread rc =>
      obtain ⟨t, hpoller, -, hstep⟩ := horderly.thread_cases hs
      have hlive := horderly.alive hpoller
      have hkept : s'.controls = s.controls ∧ s'.session.deleted = s.session.deleted := by
        unfold threadStep at hstep
        split at hstep
        case h_1 | h_4 | h_5 =>
          cases hstep
          exact ⟨rfl, rfl⟩
        case h_2 | h_3 =>
          obtain ⟨session, hsession, rfl⟩ := Option.map_eq_some_iff.mp hstep
          obtain ⟨pool, -, rfl⟩ := Option.map_eq_some_iff.mp hsession
          exact ⟨rfl, rfl⟩
        case h_6 => cases hstep
      refine ⟨fun pc hpc hdestroys => ?_, fun pc hpc => ?_, fun hd => ?_⟩
      · rw [hkept.1] at hpc
        exact (h.quiet pc hpc hdestroys).thread hpoller hstep
      · rw [hkept.1] at hpc
        -- A call that looks at the slots has found no thread.
        cases pc with
        | slots n =>
            have hnone := (horderly.fits _ hpc rfl).1
            rw [hpoller] at hnone
            cases hnone
        | teardown =>
            have hnone := (horderly.fits _ hpc rfl).1
            rw [hpoller] at hnone
            cases hnone
        | _ => trivial
      · rw [hkept.2, hlive] at hd
        cases hd
  | register id handle codes =>
      obtain ⟨⟨hlive, hnone⟩, -⟩ := hcareful.2
      simp only [act] at hact
      split at hact
      case isTrue => cases hact
      case isFalse =>
        split at hact
        · cases hact
          refine inspected_of_usable hnone fun hd => ?_
          rw [show s.session.deleted = true from hd] at hlive
          cases hlive
        · cases hact
          exact ⟨h.quiet, h.seen, h.gone⟩
  | pool a =>
      simp only [act] at hact
      split at hact
      case isTrue => cases hact
      case isFalse =>
        split at hact
        · cases hact
          exact h
        · rename_i hlive
          obtain ⟨session, hsession, rfl⟩ := Option.map_eq_some_iff.mp hact
          obtain ⟨pool, hpool, rfl⟩ := Option.map_eq_some_iff.mp hsession
          have hgone : s.session.deleted = true → pool.quiescent = true := fun hd => absurd hd hlive
          cases htouches : s.touches (.pool a) with
          | true => exact inspected_of_usable (hcareful.2 htouches).2 hgone
          | false =>
              obtain ⟨hmanager, hsubmits, hpoll⟩ := untouched_step htouches hpool
              refine ⟨fun pc hpc hdestroys => ?_, fun pc hpc => ?_, hgone⟩
              · obtain ⟨hall, hpolls⟩ := h.quiet pc hpc hdestroys
                refine ⟨?_, ?_⟩
                · show pool.submits.all _ = true
                  rw [hsubmits]
                  exact hall
                · show pool.poll.isSome = true → _
                  rw [hpoll]
                  exact hpolls
              · have hseen := h.seen pc hpc
                cases pc with
                | slots n =>
                    show ∀ i slot, i < n → pool.manager.slots[i]? = some slot → slot.state = .free
                    rw [hmanager]
                    exact hseen
                | teardown =>
                    show ∀ slot ∈ pool.manager.slots, slot.state = .free
                    rw [hmanager]
                    exact hseen
                | _ => trivial

/-! ### The session -/

/-- When all slots are free, the deletion is the one of a session. -/
theorem destroy_eq_delete {session : Session}
    (hfree : ∀ slot ∈ session.pool.manager.slots, slot.state = .free) :
    (session.destroy false).1 = session.delete := by
  have hnone : ¬ (false = true ∨ ∃ stream ∈ session.pool.manager.streams,
      ∃ slot ∈ stream.slots, slot.state ≠ .free) := by
    rintro (hfalse | ⟨stream, hstream, slot, hslot, hbusy⟩)
    · cases hfalse
    · exact hbusy (hfree slot (List.mem_flatMap.mpr ⟨stream, hstream, hslot⟩))
  rw [Session.destroy, flightCheckpointDestroy, if_neg hnone]
  rfl

/-- A step of a careful run is one of the session, or leaves the session alone. -/
theorem Service.Inspected.session_step (h : s.Inspected) (horderly : s.Orderly)
    {a : ServiceAction} (hs : s.step a = some s') :
    s'.session = s.session ∨ ∃ b, s.session.step b = some s'.session := by
  rcases Checkpoint.session_step hs with hsame | hb | ⟨⟨k, hk⟩, hlive, hdelete⟩
  · exact .inl hsame
  · exact .inr hb
  · have hmem := List.mem_of_getElem? hk
    have hquiescent := (h.quiet _ hmem rfl).quiescent (horderly.fits _ hmem rfl).1
    refine .inr ⟨.destroy false, ?_⟩
    simp only [Session.step]
    rw [if_neg (by simp [hlive]), if_pos hquiescent, destroy_eq_delete (h.seen _ hmem), hdelete]

/-! ### A destroy call does not wait -/

/-- The last control call makes a step. -/
theorem step_last {cs : List ControlPc} {pc pc' : ControlPc} {u : Service}
    (hlive : s.session.deleted = false) (hcontrols : s.controls = cs ++ [pc])
    (hstep : s.controlStep true pc = some (u, pc')) :
    s.step (.control cs.length true) = some { u with controls := cs ++ [pc'] } := by
  have hk : s.controls[cs.length]? = some pc := by
    rw [hcontrols, List.getElem?_concat_length]
  have hset : s.controls.set cs.length pc' = cs ++ [pc'] := by
    rw [hcontrols, List.set_append_right _ _ le_rfl, Nat.sub_self]
    rfl
  simp only [Service.step, hlive, Bool.false_eq_true, false_and, if_false, act, hk,
    Option.bind_some, hstep, Option.map_some, hset]

/-- The last control call loads something and goes on. -/
theorem load_last {cs : List ControlPc} {pc pc' : ControlPc} (hlive : s.session.deleted = false)
    (hload : ({ s with controls := cs ++ [pc] } : Service).controlStep true pc
      = some ({ s with controls := cs ++ [pc] }, pc')) :
    ({ s with controls := cs ++ [pc] } : Service).step (.control cs.length true)
      = some { s with controls := cs ++ [pc'] } :=
  step_last (s := { s with controls := cs ++ [pc] }) (u := { s with controls := cs ++ [pc] })
    hlive rfl hload

/-- The call finds one free slot after the other, up to the last one. -/
theorem run_slots (cs : List ControlPc) (hlive : s.session.deleted = false)
    (hfree : ∀ slot ∈ s.session.pool.manager.slots, slot.state = .free) :
    ∀ left n, n + left = s.session.pool.manager.slots.length →
      Run Service.step { s with controls := cs ++ [.slots n] }
        (List.replicate (left + 1) (.control cs.length true))
        { s with controls := cs ++ [.teardown] } := by
  intro left
  -- The slots are all looked at, and the last load finds none left.
  induction left with
  | zero =>
      intro n hn
      refine Run.single (load_last hlive ?_)
      simp only [controlStep]
      rw [List.getElem?_eq_none (by omega)]
  | succ left ih =>
      intro n hn
      have hlt : n < s.session.pool.manager.slots.length := by omega
      rw [List.replicate_succ]
      refine Run.cons_iff.mpr ⟨_, load_last hlive ?_, ih (n + 1) (by omega)⟩
      simp only [controlStep]
      rw [List.getElem?_eq_getElem hlt]
      simp only [hfree _ (List.getElem_mem hlt), if_true]

/-- **A destroy call deletes a manager without a thread whose slots are free**, whoever else is
in a call. The next step of a submit or poll call in progress is a use after the deletion. -/
theorem destroy_deletes (hlive : s.session.deleted = false) (hnone : s.poller = none)
    (hstopped : s.pollerRunning = false)
    (hfree : ∀ slot ∈ s.session.pool.manager.slots, slot.state = .free) :
    ∃ s', Run Service.step s (.destroy ::
        List.replicate (s.session.pool.manager.slots.length + 4)
          (.control s.controls.length true)) s' ∧
      s'.session = s.session.delete ∧ s'.fault = s.fault ∧
      ∀ a : Action, a.touches s.session.pool = true →
        s'.step (.pool a) = some { s' with fault := true } := by
  -- Nothing runs, so the call goes through all its tests.
  have hbegin : s.step .destroy = some { s with controls := s.controls ++ [.loadRunning] } := by
    simp only [Service.step, hlive, Bool.false_eq_true, false_and, if_false, act]
  have hrunning : ({ s with controls := s.controls ++ [.loadRunning] } : Service).step
      (.control s.controls.length true)
        = some { s with controls := s.controls ++ [.loadJoinable] } :=
    load_last hlive (by simp [controlStep, hstopped])
  have hjoinable : ({ s with controls := s.controls ++ [.loadJoinable] } : Service).step
      (.control s.controls.length true)
        = some { s with controls := s.controls ++ [.slots 0] } :=
    load_last hlive (by simp [controlStep, hnone])
  have hslots := run_slots s.controls hlive hfree s.session.pool.manager.slots.length 0
    (Nat.zero_add _)
  have hteardown : ({ s with controls := s.controls ++ [.teardown] } : Service).step
      (.control s.controls.length true)
        = some { s with
            session := s.session.delete
            fault := s.fault || s.poller.isSome
            controls := s.controls ++ [.done 0] } :=
    step_last (s := { s with controls := s.controls ++ [.teardown] }) hlive rfl rfl
  refine ⟨{ s with
    session := s.session.delete
    fault := s.fault || s.poller.isSome
    controls := s.controls ++ [.done 0] }, ?_, rfl, ?_, fun a htouches => ?_⟩
  · have hrun := Run.cons_iff.mpr ⟨_, hbegin, Run.cons_iff.mpr ⟨_, hrunning,
      Run.cons_iff.mpr ⟨_, hjoinable, hslots.append (Run.single hteardown)⟩⟩⟩
    rw [← List.replicate_succ', ← List.replicate_succ, ← List.replicate_succ] at hrun
    exact hrun
  · show (s.fault || s.poller.isSome) = s.fault
    rw [hnone]
    exact Bool.or_false _
  · exact if_pos ⟨rfl, htouches⟩

end

section
variable {s : Service} {m : Manager} {as : List ServiceAction}

/-- **The manager and its end**: when the control calls of a manager come one after the other, a
deleted manager has no thread, when all calls have returned and `stop_poller` is set no thread
is left, and nothing breaks but by a misuse. When the callers are careful, nothing breaks at
all, no call is in progress after the deletion, and what the thread and the callers do to the
pool and to its events is a run of a session. -/
theorem service_safe (h : Run Service.step (Service.start m) as s)
    (hsequential : Run.Along Service.step Service.Sequential (Service.start m) as) :
    (s.session.deleted = true → s.poller = none ∧ s.pollerRunning = false) ∧
    (s.stopPoller = true → (∀ pc ∈ s.controls, pc.returned = true) → s.poller = none) ∧
    (s.fault = false ↔
      Run.Along Service.step (fun t a _ => t.misuses a = false) (Service.start m) as) ∧
    (Run.Along Service.step Service.Careful (Service.start m) as →
      s.fault = false ∧ (s.session.deleted = true → s.session.pool.quiescent = true) ∧
        ∃ bs, Run Session.step (Session.start m) bs s.session) := by
  have horderly : s.Orderly :=
    Run.invariant_along Service.Orderly (fun t a t' ht hstep hP => ht.step hstep hP) hsequential h
      (orderly_start m)
  refine ⟨fun hd => (horderly.deleted hd).1, fun hstop hall => ?_, ?_, fun hcareful => ?_⟩
  · -- The thread is gone, or a start that came later has cleared the flag.
    rcases horderly.rest hall with hidle | ⟨-, hgo⟩
    · exact hidle.1
    · rw [hstop] at hgo
      cases hgo
  · rw [(orderly_start m).fault_run h hsequential]
    exact and_iff_right rfl
  · -- The invariant, with a run of the session that has the same state.
    let I : Service → Prop := fun t => t.Orderly ∧ t.Inspected ∧ t.fault = false ∧
      ∃ bs, Run Session.step (Session.start m) bs t.session
    have hstart : I (Service.start m) :=
      ⟨orderly_start m, inspected_of_usable (by simp [Service.start]) (fun hd => by cases hd), rfl,
        [], Run.nil_iff.mpr rfl⟩
    have hinv : I s := by
      refine Run.invariant_along I (fun t a t' ht hstep hP => ?_) hcareful h hstart
      obtain ⟨ho, hi, hfault, bs, hbs⟩ := ht
      refine ⟨ho.step hstep hP.1, hi.step ho hstep hP, ?_, ?_⟩
      · rw [ho.fault_step hstep, hfault, ho.not_misuses hP]
        rfl
      · rcases hi.session_step ho hstep with hsame | ⟨b, hb⟩
        · exact ⟨bs, hsame ▸ hbs⟩
        · exact ⟨bs ++ [b], Run.concat_iff.mpr ⟨t.session, hbs, hb⟩⟩
    exact ⟨hinv.2.2.1, hinv.2.1.gone, hinv.2.2.2⟩

/-- A poller is started, polls once, is stopped and joined, and the manager is deleted. -/
def onePoll : List ServiceAction :=
  [.register 7 0 fun _ => 0, .startPoller 100 8, .control 0 true, .control 0 true,
    .control 0 true, .thread 0, .thread 0, .stopPoller, .control 1 true, .control 1 true,
    .thread 0, .thread 0, .thread 0, .thread 0, .thread 0, .control 1 true,
    .destroy, .control 2 true, .control 2 true, .control 2 true, .control 2 true,
    .control 2 true]

/-- Nothing breaks in this run, and the manager is gone at its end. -/
theorem service_safe_once :
    ∃ m s, flightCheckpointCreate 1 = some m ∧ Run Service.step (Service.start m) onePoll s ∧
      s.session.deleted = true ∧ s.fault = false ∧ s.poller = none := by
  have hcreate : flightCheckpointCreate 1 = some ⟨1, [], false, 0⟩ := rfl
  have hrun : Run Service.step (Service.start ⟨1, [], false, 0⟩) onePoll _ := rfl
  obtain ⟨hdeleted, -, -, hcareful⟩ := service_safe hrun (by decide)
  exact ⟨_, _, hcreate, hrun, rfl, (hcareful (by decide)).1, (hdeleted rfl).1⟩

end

end HangAnalyzer.Checkpoint
