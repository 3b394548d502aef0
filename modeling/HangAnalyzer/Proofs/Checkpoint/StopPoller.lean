import HangAnalyzer.Proofs.Checkpoint.Poller

/-!
# `HangAnalyzer.Proofs.Checkpoint.StopPoller`: the poller thread comes to its end

`stop_returns` says that `flight_checkpoint_stop_poller` is not kept waiting: from its store
of `stop_poller` on the thread makes a bounded number of steps, each of them possible, and
then the call returns. The thread may be in the middle of a poll call, which is wait-free, and
it may find the flag of the poll calls taken, in which case its own call returns at once.

The control calls come one after the other, and no stream is registered meanwhile. Nothing
else is asked of the callers: a manager is not deleted while a control call is in progress
that was there before, so this is also true of a run that misuses it later.
-/

set_option autoImplicit false

namespace HangAnalyzer.Checkpoint

open HangAnalyzer.Lib

/-! ### What is left to do -/

/-- The steps that a thread has still to make once `stop_poller` is set. -/
def ThreadPc.rank (pool : State) : ThreadPc → Nat
  | exited  => 0
  | clear   => 1
  | test    => 2
  | sleep   => 3
  | polling => pool.pollRank + 3
  | call    => pool.manager.total * 6 + 10

/-- The steps of a control call after its store of `stop_poller`. -/
def ControlPc.joinLeft : ControlPc → Nat
  | joinable => 2
  | join     => 1
  | _        => 0

namespace Service

/-- The poll call that the thread is in is in progress. -/
def Attended (s : Service) : Prop :=
  ∀ t, s.poller = some t → t.pc = .polling → s.session.pool.poll.isSome

/-- The steps that the thread has still to make once `stop_poller` is set. -/
def threadRank (s : Service) : Nat := (s.poller.map fun t => t.pc.rank s.session.pool).getD 0

/-- The steps that control call `k` has still to make after its store of `stop_poller`. -/
def joinRank (k : Nat) (s : Service) : Nat := (s.controls[k]?.map ControlPc.joinLeft).getD 0

/-- Control call `k` has set `stop_poller` and not returned. -/
def Joining (k : Nat) (s : Service) : Prop :=
  s.controls[k]? = some .joinable ∨ s.controls[k]? = some .join

/-- What makes a thread come to its end. -/
structure Watched (slotsPerStream : UInt32) (s : Service) : Prop where
  orderly : s.Orderly
  attended : s.Attended
  sound : s.session.deleted = false → s.session.Sound slotsPerStream
  within : s.session.deleted = false → s.session.pool.PollWithin

end Service

/-- The action is a step of the thread or of control call `k`. -/
def ServiceAction.ends (k : Nat) : ServiceAction → Bool
  | thread _    => true
  | control j _ => j = k
  | _           => false

/-- While control call `k` waits, no control call starts and no stream is registered. -/
def Service.Ending (k : Nat) (s : Service) (a : ServiceAction) (s' : Service) : Prop :=
  s.Sequential a s' ∧ s.Joining k ∧ a.registers = false

instance (k : Nat) (s : Service) : Decidable (s.Joining k) := inferInstanceAs (Decidable (_ ∨ _))

instance (k : Nat) (s : Service) (a : ServiceAction) (s' : Service) :
    Decidable (s.Ending k a s') := inferInstanceAs (Decidable (_ ∧ _ ∧ _))

section
variable {s s' : Service} {slotsPerStream : UInt32} {k : Nat} {rc : Int} {t : PollerThread}

open Service

/-- A control call leaves the pool alone, and the thread object as it is, or without a thread,
or with a new one. -/
theorem control_pool {spawned : Bool} (hs : s.step (.control k spawned) = some s') :
    s'.session.pool = s.session.pool ∧
      (s'.poller = s.poller ∨ s'.poller = none ∨ ∃ budget, s'.poller = some ⟨budget, .test⟩) := by
  rcases Service.step_cases hs with ⟨-, -, rfl⟩ | ⟨hguard, hact⟩
  · exact ⟨rfl, .inl rfl⟩
  obtain ⟨pc, u, pc', -, -, -, hstep, rfl⟩ := Service.control_cases hguard hact
  -- Only the constructor and the destructor of the thread object change the thread.
  cases pc with
  | spawn budget =>
      simp only [controlStep] at hstep
      split at hstep
      case isTrue =>
        cases hstep
        exact ⟨rfl, .inr (.inr ⟨budget, rfl⟩)⟩
      case isFalse =>
        cases hstep
        exact ⟨rfl, .inl rfl⟩
  | exchange | slots =>
      simp only [controlStep] at hstep
      split at hstep <;> cases hstep <;> exact ⟨rfl, .inl rfl⟩
  | join =>
      simp only [controlStep] at hstep
      split at hstep
      · split at hstep <;> cases hstep
        exact ⟨rfl, .inr (.inl rfl)⟩
      · cases hstep
        exact ⟨rfl, .inl rfl⟩
  | done => cases hstep
  | resetStop | spawnFailed | setStop | joinable | loadRunning | loadJoinable | teardown =>
      cases hstep
      exact ⟨rfl, .inl rfl⟩

/-- A step of another caller leaves the thread and the control calls alone. If it is a step
of the pool, it is not one of the thread's own poll call. -/
theorem pool_step {a : Action} (hs : s.step (.pool a) = some s') :
    s'.poller = s.poller ∧ s'.controls = s.controls ∧
      (s'.session = s.session ∨ s.session.deleted = false ∧
        (s.threadPolls = true → a.isAdvancePoll = false) ∧
        s.session.advance a = some s'.session) := by
  rcases Service.step_cases hs with ⟨-, -, rfl⟩ | ⟨-, hact⟩
  · exact ⟨rfl, rfl, .inl rfl⟩
  simp only [act] at hact
  split at hact
  case isTrue => cases hact
  case isFalse hown =>
    split at hact
    · cases hact
      exact ⟨rfl, rfl, .inl rfl⟩
    · rename_i hlive
      obtain ⟨session, hsession, rfl⟩ := Option.map_eq_some_iff.mp hact
      refine ⟨rfl, rfl, .inr ⟨Bool.eq_false_iff.mpr hlive, fun hpolls => ?_, hsession⟩⟩
      exact Bool.eq_false_iff.mpr fun ha => hown ⟨hpolls, ha⟩

/-- A thread in its poll call polls. -/
theorem threadPolls_of (hpoller : s.poller = some t) (hpc : t.pc = .polling) :
    s.threadPolls = true := by
  simp [threadPolls, hpoller, hpc]

/-- A step leaves the thread in its poll call as long as the call is in progress. -/
theorem Service.Watched.attended_step (h : s.Watched slotsPerStream) {a : ServiceAction}
    (hs : s.step a = some s') : s'.Attended := by
  cases a with
  -- The call only begins, and nothing else changes.
  | startPoller | stopPoller | destroy =>
      rcases Service.step_cases hs with ⟨-, -, rfl⟩ | ⟨-, hact⟩
      · exact h.attended
      · cases hact
        exact h.attended
  | control k spawned =>
      obtain ⟨hpool, hpoller⟩ := control_pool hs
      rw [Attended, hpool]
      -- The thread is the old one, or gone, or a new one before its first test.
      rcases hpoller with hsame | hnone | ⟨budget, hnew⟩
      · rw [hsame]
        exact h.attended
      · rw [hnone]
        simp
      · rw [hnew]
        rintro t ht hpc
        obtain rfl := Option.some.inj ht
        cases hpc
  | thread rc =>
      obtain ⟨t, hpoller, hgo, hs⟩ := h.orderly.thread_cases hs
      cases hpc : t.pc with
      -- After the test the thread has still not called `poll`.
      | test =>
          simp only [threadStep, hpc, Option.some.injEq] at hs
          subst hs
          intro u hu hpolling
          obtain rfl := Option.some.inj hu
          have hpolling : (if s.stopPoller then ThreadPc.clear else .call) = .polling := hpolling
          split at hpolling <;> cases hpolling
      -- It is in the call only if the call took `poll_lock`.
      | call =>
          simp only [threadStep, hpc] at hs
          obtain ⟨session, -, rfl⟩ := Option.map_eq_some_iff.mp hs
          intro u hu hpolling
          obtain rfl := Option.some.inj hu
          have hpolling : (if (s.session.pool.poll.isNone && session.pool.poll.isSome) = true
            then ThreadPc.polling else .sleep) = .polling := hpolling
          split at hpolling
          case isTrue htook => exact (Bool.and_eq_true_iff.mp htook).2
          case isFalse => cases hpolling
      -- The call is still in progress if the thread is in it.
      | polling =>
          simp only [threadStep, hpc] at hs
          obtain ⟨session, -, rfl⟩ := Option.map_eq_some_iff.mp hs
          intro u hu hpolling
          obtain rfl := Option.some.inj hu
          have hpolling : (if session.pool.poll.isSome = true then ThreadPc.polling else .sleep)
            = .polling := hpolling
          split at hpolling
          case isTrue hsome => exact hsome
          case isFalse => cases hpolling
      | sleep | clear =>
          simp only [threadStep, hpc, Option.some.injEq] at hs
          subst hs
          intro u hu hpolling
          obtain rfl := Option.some.inj hu
          cases hpolling
      | exited => exact absurd hpc hgo
  | register id handle codes =>
      rcases Service.step_cases hs with ⟨-, -, rfl⟩ | ⟨-, hact⟩
      · exact h.attended
      simp only [act] at hact
      split at hact
      case isTrue => cases hact
      case isFalse =>
        split at hact
        · rename_i hquiescent
          cases hact
          -- A stream is registered only while no poll call is in progress.
          intro t ht hpolling
          have hsome := h.attended t ht hpolling
          rw [(State.idle_of_quiescent hquiescent).1] at hsome
          cases hsome
        · cases hact
          exact h.attended
  | pool a =>
      obtain ⟨hpoller, -, hsame | ⟨hlive, hown, hadvance⟩⟩ := pool_step hs
      · rw [Attended, hpoller, hsame]
        exact h.attended
      · obtain ⟨pool, hpool, hsession⟩ := Option.map_eq_some_iff.mp hadvance
        -- Another caller does not advance the thread's poll call.
        intro t ht hpolling
        rw [hpoller] at ht
        have hpoll := poll_eq (h.sound hlive).balanced.inv (h.attended t ht hpolling)
          (hown (threadPolls_of ht hpolling)) hpool
        rw [← hsession]
        show pool.poll.isSome = true
        rw [hpoll]
        exact h.attended t ht hpolling

/-- One step. -/
theorem Service.Watched.step (h : s.Watched slotsPerStream) {a : ServiceAction}
    (hs : s.step a = some s') (hsequential : s.Sequential a s') : s'.Watched slotsPerStream := by
  refine ⟨h.orderly.step hs hsequential, h.attended_step hs, fun hlive => ?_, fun hlive => ?_⟩
  · -- The session makes a step of its own, or it stays, or it is gone.
    rcases session_step hs with hsame | ⟨b, hb⟩ | ⟨-, -, hdeleted⟩
    · rw [hsame] at hlive ⊢
      exact h.sound hlive
    · exact (h.sound (Session.step_cases hb).1).step hb
    · rw [hdeleted] at hlive
      cases hlive
  · rcases session_step hs with hsame | ⟨b, hb⟩ | ⟨-, -, hdeleted⟩
    · rw [hsame] at hlive ⊢
      exact h.within hlive
    · have hbefore := (Session.step_cases hb).1
      exact Session.pollWithin_step (h.sound hbefore) (h.within hbefore) hb
    · rw [hdeleted] at hlive
      cases hlive

/-! ### Its steps are bounded -/

/-- A control call that waits has set `stop_poller`, and the manager is there. -/
theorem Service.Joining.stopped (h : s.Joining k) (horderly : s.Orderly) :
    s.stopPoller = true ∧ s.session.deleted = false := by
  obtain ⟨pc, hk, hreturned, hfits⟩ : ∃ pc, s.controls[k]? = some pc ∧ pc.returned = false ∧
      (s.Fits pc → s.stopPoller = true) := by
    rcases h with hk | hk
    · exact ⟨_, hk, rfl, And.left⟩
    · exact ⟨_, hk, rfl, And.left⟩
  have hmem := List.mem_of_getElem? hk
  refine ⟨hfits (horderly.fits pc hmem hreturned), Bool.eq_false_iff.mpr fun hd => ?_⟩
  rw [(horderly.deleted hd).2 pc hmem] at hreturned
  cases hreturned

/-- The rank of a service with a thread is that of the thread. -/
theorem threadRank_eq (hpoller : s.poller = some t) :
    s.threadRank = t.pc.rank s.session.pool := by
  rw [threadRank, hpoller]
  rfl

/-- The thread leaves the control calls alone. -/
theorem threadStep_controls (hs : s.threadStep t rc = some s') : s'.controls = s.controls := by
  unfold threadStep at hs
  split at hs
  case h_1 | h_4 | h_5 =>
    cases hs
    rfl
  case h_2 | h_3 =>
    obtain ⟨session, -, rfl⟩ := Option.map_eq_some_iff.mp hs
    rfl
  case h_6 => cases hs

/-- A step of the thread after the store of `stop_poller` lowers its rank. -/
theorem Service.Watched.thread_rank (h : s.Watched slotsPerStream) (hstop : s.stopPoller = true)
    (hs : s.step (.thread rc) = some s') : s'.threadRank + 1 ≤ s.threadRank := by
  obtain ⟨t, hpoller, hgo, hs⟩ := h.orderly.thread_cases hs
  rw [threadRank_eq hpoller]
  cases hpc : t.pc with
  | test =>
      simp only [threadStep, hpc, hstop, if_true, Option.some.injEq] at hs
      subst hs
      exact le_rfl
  -- The call that it makes takes at most six steps for each slot, and six more.
  | call =>
      simp only [threadStep, hpc] at hs
      obtain ⟨session, hsession, rfl⟩ := Option.map_eq_some_iff.mp hs
      obtain ⟨pool, hpool, rfl⟩ := Option.map_eq_some_iff.mp hsession
      have hle := pollRank_le pool
      rw [(sameSlots_step _ hpool).total] at hle
      show (if _ then ThreadPc.polling else .sleep).rank pool + 1
        ≤ s.session.pool.manager.total * 6 + 10
      split
      case isTrue =>
        show pool.pollRank + 3 + 1 ≤ _
        omega
      case isFalse =>
        show 3 + 1 ≤ _
        omega
  -- The poll call it is in gets closer to its end.
  | polling =>
      simp only [threadStep, hpc] at hs
      obtain ⟨session, hsession, rfl⟩ := Option.map_eq_some_iff.mp hs
      obtain ⟨pool, hpool, rfl⟩ := Option.map_eq_some_iff.mp hsession
      have hlive := h.orderly.alive hpoller
      obtain ⟨-, hlower⟩ := pollRank_step (h.sound hlive).balanced.inv (h.within hlive)
        (h.attended t hpoller hpc) hpool
      have hlower : pool.pollRank + 1 ≤ s.session.pool.pollRank := hlower
      show (if _ then ThreadPc.polling else .sleep).rank pool + 1 ≤ s.session.pool.pollRank + 3
      split
      case isTrue =>
        show pool.pollRank + 3 + 1 ≤ _
        omega
      case isFalse =>
        show 3 + 1 ≤ _
        omega
  | sleep =>
      simp only [threadStep, hpc, Option.some.injEq] at hs
      subst hs
      exact le_rfl
  | clear =>
      simp only [threadStep, hpc, Option.some.injEq] at hs
      subst hs
      exact le_rfl
  | exited => exact absurd hpc hgo

/-- A step of another caller leaves the thread's rank as it is, or lowers it. -/
theorem Service.Watched.pool_rank (h : s.Watched slotsPerStream) {a : Action}
    (hs : s.step (.pool a) = some s') : s'.threadRank ≤ s.threadRank := by
  obtain ⟨hpoller, -, hsame | ⟨hlive, hown, hadvance⟩⟩ := pool_step hs
  · rw [threadRank, threadRank, hpoller, hsame]
  obtain ⟨pool, hpool, hsession⟩ := Option.map_eq_some_iff.mp hadvance
  have hsession : s'.session.pool = pool := by rw [← hsession]
  rw [threadRank, threadRank, hpoller, hsession]
  -- Only a thread in its poll call depends on the pool.
  cases ht : s.poller with
  | none => exact le_rfl
  | some t =>
      show t.pc.rank pool ≤ t.pc.rank s.session.pool
      cases hpc : t.pc with
      | polling =>
          have hlower := (pollRank_step (h.sound hlive).balanced.inv (h.within hlive)
            (h.attended t ht hpc) hpool).2
          rw [hown (threadPolls_of ht hpc)] at hlower
          exact Nat.add_le_add_right hlower 3
      | call =>
          show pool.manager.total * 6 + 10 ≤ s.session.pool.manager.total * 6 + 10
          rw [(sameSlots_step _ hpool).total]
      | _ => exact le_rfl

/-- A control step while control call `k` waits is its own. -/
theorem Service.Joining.control_cases {spawned : Bool} {j : Nat} (h : s.Joining k)
    (horderly : s.Orderly) (hs : s.step (.control j spawned) = some s') :
    j = k ∧ ((s.controls[k]? = some .joinable ∧
        s' = { s with
          controls := s.controls.set k (if s.poller.isSome then .join else .done 0) }) ∨
      (s.controls[k]? = some .join ∧ ∃ t, s.poller = some t ∧ t.pc = .exited ∧
        s' = { s with poller := none, controls := s.controls.set k (.done 0) })) := by
  have hlive := (h.stopped horderly).2
  rcases Service.step_cases hs with ⟨hdeleted, -, -⟩ | ⟨hguard, hact⟩
  · -- The manager is there, so the step is one of a call in progress.
    rw [hlive] at hdeleted
    cases hdeleted
  obtain ⟨pc, u, pc', hj, hreturned, -, hstep, rfl⟩ := Service.control_cases hguard hact
  obtain rfl : j = k := by
    rcases h with hk | hk
    · exact horderly.alone j k pc _ hj hk hreturned rfl
    · exact horderly.alone j k pc _ hj hk hreturned rfl
  refine ⟨rfl, ?_⟩
  -- It looks for a thread, or it waits for one that has ended.
  rcases h with hk | hk
  · obtain rfl := Option.some.inj (hk.symm.trans hj)
    cases hstep
    exact .inl ⟨hk, rfl⟩
  · obtain rfl := Option.some.inj (hk.symm.trans hj)
    obtain ⟨-, hfits⟩ := horderly.fits _ (List.mem_of_getElem? hk) rfl
    obtain ⟨t, hpoller⟩ : ∃ t, s.poller = some t := by
      rcases hfits with ⟨t, ht, -⟩ | ⟨t, ht, -⟩
      · exact ⟨t, ht⟩
      · exact ⟨t, ht⟩
    simp only [controlStep, hpoller] at hstep
    split at hstep
    case isTrue hexited =>
      cases hstep
      exact .inr ⟨hk, t, hpoller, hexited, rfl⟩
    case isFalse => cases hstep

/-- While control call `k` waits, every step that is its own or the thread's brings it closer
to its return, and no other step takes it away. -/
theorem Service.Watched.end_rank (h : s.Watched slotsPerStream) {a : ServiceAction}
    (hs : s.step a = some s') (hP : s.Ending k a s') :
    s'.threadRank + s'.joinRank k + (if a.ends k then 1 else 0) ≤ s.threadRank + s.joinRank k := by
  obtain ⟨hsequential, hjoining, hregister⟩ := hP
  -- A call waits, so no other control call starts.
  have hbusy : ¬ ∀ pc ∈ s.controls, pc.returned = true := by
    intro hall
    rcases hjoining with hk | hk <;> cases hall _ (List.mem_of_getElem? hk)
  cases a with
  | startPoller | stopPoller | destroy => exact absurd hsequential hbusy
  | register id handle codes => cases hregister
  | control j spawned =>
      obtain ⟨rfl, hcases⟩ := hjoining.control_cases h.orderly hs
      rw [if_pos (by simp [ServiceAction.ends])]
      rcases hcases with ⟨hk, rfl⟩ | ⟨hk, t, hpoller, hexited, rfl⟩
      · -- It has seen whether there is a thread to wait for.
        have hlt := (List.getElem?_eq_some_iff.mp hk).1
        show s.threadRank + _ + 1 ≤ s.threadRank + _
        rw [joinRank, joinRank, hk, List.getElem?_set_self hlt]
        show _ + (if s.poller.isSome then ControlPc.join else .done 0).joinLeft + 1 ≤ _ + 2
        split
        case isTrue => exact le_rfl
        case isFalse => exact Nat.le_succ _
      · -- The thread has ended, and the call returns.
        have hlt := (List.getElem?_eq_some_iff.mp hk).1
        show 0 + _ + 1 ≤ _
        rw [joinRank, joinRank, hk, List.getElem?_set_self hlt]
        exact Nat.le_add_left 1 _
  | thread rc =>
      have hlower := h.thread_rank (hjoining.stopped h.orderly).1 hs
      obtain ⟨t, -, -, hstep⟩ := h.orderly.thread_cases hs
      rw [joinRank, joinRank, threadStep_controls hstep, if_pos (by rfl)]
      omega
  | pool a =>
      have hle := h.pool_rank hs
      obtain ⟨-, hcontrols, -⟩ := pool_step hs
      rw [joinRank, joinRank, hcontrols, if_neg (by simp [ServiceAction.ends])]
      omega

/-- The thread can make its next step until it has ended. -/
theorem Service.Watched.thread_enabled (h : s.Watched slotsPerStream) (hpoller : s.poller = some t)
    (hgo : t.pc ≠ .exited) (rc : Int) : ∃ s', s.step (.thread rc) = some s' := by
  have hlive := h.orderly.alive hpoller
  simp only [Service.step, act, hpoller, Option.bind_some, hlive, Bool.false_eq_true, false_and,
    if_false]
  -- Its poll call can go on, and its other steps need nothing.
  cases hpc : t.pc with
  | polling =>
      obtain ⟨-, session, hsession⟩ :=
        Session.advancePoll_enabled (h.sound hlive) (h.attended t hpoller hpc) rc
      simp only [threadStep, hpc, hsession, Option.map_some]
      exact ⟨_, rfl⟩
  | exited => exact absurd hpc hgo
  | test | call | sleep | clear =>
      simp only [threadStep, hpc]
      exact ⟨_, rfl⟩

/-- A call that waits for a thread that has ended, or looks for one, can make its next step. -/
theorem Service.Watched.joining_enabled (h : s.Watched slotsPerStream) (hjoining : s.Joining k) :
    (∃ s', s.step (.control k true) = some s') ∨ ∀ rc, ∃ s', s.step (.thread rc) = some s' := by
  have hlive := (hjoining.stopped h.orderly).2
  rcases hjoining with hk | hk
  · left
    simp only [Service.step, act, hk, Option.bind_some, hlive, Bool.false_eq_true, false_and,
      if_false]
    exact ⟨_, rfl⟩
  · obtain ⟨-, ⟨t, hpoller, hgo, -⟩ | ⟨t, hpoller, hexited, -⟩⟩ :=
      h.orderly.fits _ (List.mem_of_getElem? hk) rfl
    · -- The thread has not ended, so it is its turn.
      exact .inr (h.thread_enabled hpoller hgo)
    · left
      simp only [Service.step, act, hk, Option.bind_some, hlive, Bool.false_eq_true, false_and,
        if_false, controlStep, hpoller, hexited, if_true]
      exact ⟨_, rfl⟩

end

section
variable {s s' : Service} {slotsPerStream : UInt32} {m : Manager} {as bs : List ServiceAction}
  {k : Nat}

/-- The control calls of a new manager come one after the other, so it is watched. -/
theorem watched_run (hm : flightCheckpointCreate slotsPerStream = some m)
    (h : Run Service.step (Service.start m) as s)
    (hsequential : Run.Along Service.step Service.Sequential (Service.start m) as) :
    s.Watched slotsPerStream := by
  refine Run.invariant_along (Service.Watched slotsPerStream)
    (fun t a t' ht hstep hP => ht.step hstep hP) hsequential h ?_
  have hstart := session_within hm (Run.nil_iff.mpr rfl : Run Session.step (Session.start m) [] _)
  exact ⟨orderly_start m, by simp [Service.Attended, Service.start], fun _ => hstart.1,
    fun _ => hstart.2⟩

/-- **`flight_checkpoint_stop_poller` returns**: once it has set `stop_poller`, the thread and
the call make at most six steps for each slot and twelve more until the call returns, whatever
the submit and poll calls of the others do between them, and until then one of the two can
make its next step. The control calls come one after the other, and no stream is registered
while this one waits. -/
theorem stop_returns (hm : flightCheckpointCreate slotsPerStream = some m)
    (hbefore : Run Service.step (Service.start m) bs s)
    (hsequential : Run.Along Service.step Service.Sequential (Service.start m) bs)
    (h : Run Service.step s as s')
    (hending : Run.Along Service.step (Service.Ending k) s as) :
    as.countP (ServiceAction.ends k) ≤ s.session.pool.manager.total * 6 + 12 ∧
      (s'.Joining k → (∃ s'', s'.step (.control k true) = some s'') ∨
        ∀ rc, ∃ s'', s'.step (.thread rc) = some s'') := by
  have hs := watched_run hm hbefore hsequential
  have hs' : s'.Watched slotsPerStream :=
    Run.invariant_along (Service.Watched slotsPerStream)
      (fun t a t' ht hstep hP => ht.step hstep hP.1) hending h hs
  -- The rank counts what the thread and the call have still to do, and it starts low enough.
  constructor
  · have hcount := Run.countP_add_rank_le (ServiceAction.ends k)
      (fun s => s.threadRank + s.joinRank k) (Service.Watched slotsPerStream)
      (fun t a t' ht hstep hP => ht.step hstep hP.1)
      (fun t a t' ht hstep hP => ht.end_rank hstep hP) hending h hs
    have hthread : s.threadRank ≤ s.session.pool.manager.total * 6 + 10 := by
      rw [Service.threadRank]
      cases s.poller with
      | none => exact Nat.zero_le _
      | some t =>
          have hle := pollRank_le s.session.pool
          show t.pc.rank s.session.pool ≤ _
          cases t.pc <;> simp only [ThreadPc.rank] <;> omega
    have hjoin : s.joinRank k ≤ 2 := by
      rw [Service.joinRank]
      cases s.controls[k]? with
      | none => exact Nat.zero_le _
      | some pc =>
          show pc.joinLeft ≤ 2
          cases pc <;> simp [ControlPc.joinLeft]
    omega
  · exact hs'.joining_enabled

/-- The call waits while the thread goes on with its poll call and a submit call starts. -/
theorem stop_returns_one :
    ∃ m s s', flightCheckpointCreate 1 = some m ∧
      Run Service.step (Service.start m)
        [.register 7 0 fun _ => 0, .startPoller 100 8, .control 0 true, .control 0 true,
          .control 0 true, .thread 0, .thread 0, .stopPoller, .control 1 true] s ∧
      Run Service.step s [.thread 0, .pool (.submit 7 100 1), .control 1 true] s' ∧
      s'.Joining 1 ∧ ((∃ s'', s'.step (.control 1 true) = some s'') ∨
        ∀ rc, ∃ s'', s'.step (.thread rc) = some s'') := by
  have hcreate : flightCheckpointCreate 1 = some ⟨1, [], false, 0⟩ := rfl
  have hbefore : Run Service.step (Service.start ⟨1, [], false, 0⟩)
      [.register 7 0 fun _ => 0, .startPoller 100 8, .control 0 true, .control 0 true,
        .control 0 true, .thread 0, .thread 0, .stopPoller, .control 1 true] _ := rfl
  have hwaits := (@stop_returns _ _ 1 _ [.thread 0, .pool (.submit 7 100 1), .control 1 true] _ 1
    hcreate hbefore (by decide) rfl (by decide)).2
  exact ⟨_, _, _, hcreate, hbefore, rfl, by decide, hwaits (by decide)⟩

end

end HangAnalyzer.Checkpoint
