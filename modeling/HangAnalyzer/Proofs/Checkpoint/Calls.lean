import HangAnalyzer.Proofs.Checkpoint.Steps

/-!
# `HangAnalyzer.Proofs.Checkpoint.Calls`: what one submit call has done

`accessesBy` is the trace seen from one submit call. It is a function of how far
the call is (`told_run`): the call reserves, numbers and fills one slot, enqueues
its event, and, if that succeeds, records the submission once and publishes the
slot.
-/

set_option autoImplicit false

namespace HangAnalyzer.Checkpoint

open HangAnalyzer.Lib

namespace SubmitCall

/-- The accesses with which call `k` prepares the slot at `p`. -/
def prepared (k : Nat) (call : SubmitCall) (p : Place) : List (Place × Access) :=
  [(p, .reserve k), (p, .number k), (p, .fill k call.submittedSeq call.checkpointId)]

/-- The accesses with which call `k` submits at `p`. -/
def recorded (k : Nat) (call : SubmitCall) (p : Place) (gen : UInt64) :
    List (Place × Access) :=
  call.prepared k p ++ [(p, .enqueue k 0), (p, .submitted k (call.stamp gen))]

/-- What call `k` has done before its next step. -/
def Did (k : Nat) (call : SubmitCall) (ds : List (Place × Access)) : Prop :=
  match call.pc with
  | .scan ..         => ds = []
  | .number i        => ds = (call.prepared k ⟨call.stream, i⟩).take 1
  | .fill i _        => ds = (call.prepared k ⟨call.stream, i⟩).take 2
  | .enqueue i _     => ds = call.prepared k ⟨call.stream, i⟩
  | .release i rc    =>
      rc ≠ 0 ∧ ds = call.prepared k ⟨call.stream, i⟩ ++ [(⟨call.stream, i⟩, .enqueue k rc)]
  | .report i _      => ds = call.prepared k ⟨call.stream, i⟩ ++ [(⟨call.stream, i⟩, .enqueue k 0)]
  | .publish i gen   => ds = call.recorded k ⟨call.stream, i⟩ gen
  | .done _ none     => ds = [] ∨ ∃ i rc, rc ≠ 0 ∧
      ds = call.prepared k ⟨call.stream, i⟩ ++ [(⟨call.stream, i⟩, .enqueue k rc)]
  | .done _ (some gen) => ∃ i,
      ds = call.recorded k ⟨call.stream, i⟩ gen ++ [(⟨call.stream, i⟩, .publish k)]

/-- A step at the held slot is the call's own, or the release that no call is
named in. -/
theorem hold_did {k : Nat} {call : SubmitCall} {slot slot' : Slot} {rc : Int} {a : Access}
    {pc : SubmitPc} {p : Place} {ds : List (Place × Access)}
    (hhold : call.hold k slot rc = some (slot', a, pc)) (hplace : call.place = some p)
    (h : call.Did k ds) :
    (∀ j, a.call? = some j → j = k) ∧
      ({ call with pc } : SubmitCall).Did k
        (if a.call? = some k then ds ++ [(p, a)] else ds) := by
  cases hold_cases hhold with
  | number hpc =>
      rw [place, hpc] at hplace
      rw [Did, hpc] at h
      obtain rfl := Option.some.inj hplace
      obtain rfl := h
      refine ⟨fun j hj => (Option.some.inj hj).symm, ?_⟩
      rw [if_pos (show Access.call? (.number k) = some k from rfl)]
      rfl
  | fill hpc =>
      rw [place, hpc] at hplace
      rw [Did, hpc] at h
      obtain rfl := Option.some.inj hplace
      obtain rfl := h
      refine ⟨fun j hj => (Option.some.inj hj).symm, ?_⟩
      rw [if_pos (show Access.call? (.fill k _ _) = some k from rfl)]
      rfl
  | enqueue hpc =>
      rw [place, hpc] at hplace
      rw [Did, hpc] at h
      obtain rfl := Option.some.inj hplace
      obtain rfl := h
      refine ⟨fun j hj => (Option.some.inj hj).symm, ?_⟩
      rw [if_pos (show Access.call? (.enqueue k 0) = some k from rfl)]
      rfl
  | refuse hpc hrc =>
      rw [place, hpc] at hplace
      rw [Did, hpc] at h
      obtain rfl := Option.some.inj hplace
      obtain rfl := h
      refine ⟨fun j hj => (Option.some.inj hj).symm, ?_⟩
      rw [if_pos (show Access.call? (.enqueue k rc) = some k from rfl)]
      exact ⟨hrc, rfl⟩
  | @release i rc₀ _ hpc =>
      -- The release names no call, so the call has done what it had.
      rw [Did, hpc] at h
      refine ⟨fun j hj => (by cases hj), ?_⟩
      rw [if_neg (by intro hcall; cases hcall)]
      exact Or.inr ⟨i, rc₀, h⟩
  | report hpc =>
      rw [place, hpc] at hplace
      rw [Did, hpc] at h
      obtain rfl := Option.some.inj hplace
      obtain rfl := h
      refine ⟨fun j hj => (Option.some.inj hj).symm, ?_⟩
      rw [if_pos (show Access.call? (.submitted k _) = some k from rfl)]
      show _ ++ _ = recorded k call _ _
      rw [recorded, List.append_assoc]
      rfl
  | @publish i gen _ hpc =>
      rw [place, hpc] at hplace
      rw [Did, hpc] at h
      obtain rfl := Option.some.inj hplace
      obtain rfl := h
      refine ⟨fun j hj => (Option.some.inj hj).symm, i, ?_⟩
      rw [if_pos (show Access.call? (.publish k) = some k from rfl)]
      rfl

end SubmitCall

/-- A step of the poll call names no submit call. -/
theorem PollCall.hold_call? {id : UInt32} {call call' : PollCall} {slot slot' : Slot} {rc : Int}
    {a : Access} (hhold : call.hold id slot rc = some (slot', some a, call')) :
    a.call? = none := by
  cases hold_cases hhold <;> rfl

/-! ### The invariant -/

/-- The trace tells of each submit call what its next step says it has done. -/
structure Told (s : State) : Prop where
  did : ∀ (k : Nat) (call : SubmitCall), s.submits[k]? = some call →
    call.Did k (accessesBy s.trace k)
  none : ∀ k, s.submits.length ≤ k → accessesBy s.trace k = []

section
variable {s s' : State} {k : Nat} {rc : Int}

/-- The last access is one of the call that made it. -/
theorem accessesBy_concat (trace : List Entry) (p : Place) (a : Access) (k : Nat) :
    accessesBy (trace ++ [.access p a]) k
      = if a.call? = some k then accessesBy trace k ++ [(p, a)] else accessesBy trace k := by
  simp only [accessesBy, List.filterMap_append]
  split <;> simp_all

/-- An entry that is no access tells nothing about submit calls. -/
theorem accessesBy_other (trace : List Entry) {e : Entry} (h : ∀ p a, e ≠ .access p a) (k : Nat) :
    accessesBy (trace ++ [e]) k = accessesBy trace k := by
  cases e with
  | access p a => exact absurd rfl (h p a)
  | poolFull | host | polled => simp [accessesBy]

/-- Nothing is told of the calls, and no call with something to tell changes. -/
theorem Told.idle (h : Told s) (htrace : ∀ k, accessesBy s'.trace k = accessesBy s.trace k)
    (hlen : s.submits.length ≤ s'.submits.length)
    (hcalls : ∀ (k : Nat) (call : SubmitCall), s'.submits[k]? = some call →
      s.submits[k]? = some call ∨ call.Did k (accessesBy s.trace k)) : Told s' where
  did k call hk := by
    rw [htrace]
    rcases hcalls k call hk with hold | hdid
    · exact h.did k call hold
    · exact hdid
  none k hk := by
    rw [htrace]
    exact h.none k (Nat.le_trans hlen hk)

/-- A step of submit call `k` that leaves the slots alone. -/
theorem Told.replace (h : Told s) {call' : SubmitCall} {manager : Manager} {poll : Option PollCall}
    {trace : List Entry} (htrace : ∀ j, accessesBy trace j = accessesBy s.trace j)
    (hdid : call'.Did k (accessesBy s.trace k)) :
    Told ⟨manager, s.submits.set k call', poll, trace⟩ := by
  refine h.idle htrace (Nat.le_of_eq List.length_set.symm) fun j c hj => ?_
  rcases getElem?_set_cases hj with ⟨rfl, rfl⟩ | ⟨-, hj⟩
  · exact Or.inr hdid
  · exact Or.inl hj

/-- A step of submit call `k` at a slot. -/
theorem Told.access (h : Told s) {call call' : SubmitCall} {p : Place} {slot : Slot} {a : Access}
    (hk : s.submits[k]? = some call) (hcall : ∀ j, a.call? = some j → j = k)
    (hdid : call'.Did k (if a.call? = some k then accessesBy s.trace k ++ [(p, a)]
      else accessesBy s.trace k)) :
    Told ((s.access p slot a).setSubmit k call') := by
  have hlt : k < s.submits.length := (List.getElem?_eq_some_iff.mp hk).1
  -- The accesses of the other calls are the same.
  have hother : ∀ j, j ≠ k →
      accessesBy (s.trace ++ [.access p a]) j = accessesBy s.trace j := fun j hj => by
    rw [accessesBy_concat, if_neg fun hc => hj (hcall j hc)]
  constructor
  · intro j c hj
    show c.Did j (accessesBy (s.trace ++ [.access p a]) j)
    simp only [State.setSubmit, State.access] at hj
    rcases getElem?_set_cases hj with ⟨rfl, rfl⟩ | ⟨hjk, hj⟩
    · -- The call has one more access.
      rw [accessesBy_concat]
      exact hdid
    · rw [hother j hjk]
      exact h.did j c hj
  · intro j hj
    simp only [State.setSubmit, State.access, List.length_set] at hj
    show accessesBy (s.trace ++ [.access p a]) j = []
    rw [hother j (by omega)]
    exact h.none j hj

/-- A step of a submit call is told by its accesses. -/
theorem told_advance (h : Told s) (hs : s.advance k rc = some s') : Told s' := by
  cases State.advance_cases hs with
  -- While it scans it has done nothing to a slot.
  | reserve hk hpc =>
      have hdid := h.did k _ hk
      rw [SubmitCall.Did, hpc] at hdid
      refine h.access hk (fun j hj => (Option.some.inj hj).symm) ?_
      rw [hdid, if_pos (show Access.call? (.reserve k) = some k from rfl)]
      rfl
  | skip hk hpc =>
      have hdid := h.did k _ hk
      rw [SubmitCall.Did, hpc] at hdid
      exact h.replace (fun _ => rfl) hdid
  | full hk hpc =>
      have hdid := h.did k _ hk
      rw [SubmitCall.Did, hpc] at hdid
      exact h.replace (fun j => accessesBy_other _ (by simp) j) (Or.inl hdid)
  -- At its slot it does the next one in order.
  | hold hk hp _ hhold =>
      obtain ⟨hcall, hdid⟩ := SubmitCall.hold_did hhold hp (h.did k _ hk)
      exact h.access hk hcall hdid

/-- Every step is told by the accesses of the calls. -/
theorem told_step (h : Told s) (a : Action) (hs : s.step a = some s') : Told s' := by
  -- The steps of a poll call are no accesses of a submit call.
  have hsilent : (∀ j, accessesBy s'.trace j = accessesBy s.trace j) → s'.submits = s.submits →
      Told s' := fun htrace hsubmits =>
    h.idle htrace (Nat.le_of_eq (congrArg List.length hsubmits.symm)) fun j c hj =>
      Or.inl (hsubmits ▸ hj)
  have hpolled : ∀ {p : Place} {x : Access}, x.call? = none →
      ∀ j, accessesBy (s.trace ++ [.access p x]) j = accessesBy s.trace j := by
    intro p x hx j
    rw [accessesBy_concat, hx, if_neg (by simp)]
  cases State.step_cases hs with
  | refused => exact h
  | submit =>
      refine h.idle (fun _ => rfl) (by simp) fun j c hj => ?_
      rcases getElem?_concat_cases hj with hold | ⟨rfl, rfl⟩
      · exact Or.inl hold
      · -- The new call has done nothing.
        exact Or.inr (h.none _ (Nat.le_refl _))
  | reserve | skip | full | hold => exact told_advance h hs
  | acquire => exact hsilent (hpolled rfl) rfl
  | pollHold _ _ _ _ hhold => exact hsilent (hpolled (PollCall.hold_call? hhold)) rfl
  | poll | pass | pollQuiet => exact hsilent (fun _ => rfl) rfl
  | pollRefused | finish | host =>
      exact hsilent (fun j => accessesBy_other _ (by simp) j) rfl

/-- In every state that is reached, the trace tells what the calls have done. -/
theorem told_run {m : Manager} {as : List Action}
    (h : Run State.step (State.start m) as s) : Told s := by
  refine Run.invariant Told (fun _ a _ ht hs => told_step ht a hs) h ?_
  exact ⟨fun k call hk => by simp [State.start] at hk, fun k _ => rfl⟩

end

end HangAnalyzer.Checkpoint
