import HangAnalyzer.Proofs.Checkpoint.Steps

/-!
# `HangAnalyzer.Proofs.Checkpoint.Refines`: the pool refines the life of its slots

In every state that the calls reach, in any order of their steps and with any
answers of the backend, the accesses at each slot are a run of `Life.step`, and
the slot's words show the life that this run ends in (`inv_run`).

The invariant has one clause for each direction of who holds what. A call that
is past its reservation holds the slot of its place in the phase of its next
step, and a slot in such a phase is held by that call.
-/

set_option autoImplicit false

namespace HangAnalyzer.Checkpoint

open HangAnalyzer.Lib

/-- The words of a slot show a life. -/
structure Agree (l : Life) (slot : Slot) : Prop where
  state : slot.state = l.phase.state
  generation : slot.generation = UInt64.ofNat l.generation
  submittedSeq : slot.submittedSeq = l.submittedSeq
  checkpointId : slot.checkpointId = l.checkpointId
  reported : ∀ mark, l.seen mark = true → slot.reported mark = slot.generation

/-- A new slot agrees with a life that has not begun. -/
theorem agree_new (event : Nat) : Agree .init (Slot.new event) where
  state := rfl
  generation := rfl
  submittedSeq := rfl
  checkpointId := rfl
  reported _ h := by cases h

/-- The fields of the slot make the stamp of its life. -/
theorem Agree.stamp {l : Life} {slot : Slot} (h : Agree l slot) (id : UInt32) :
    PollCall.stamp id slot slot.generation = l.stamp id := by
  rw [PollCall.stamp, Life.stamp, h.submittedSeq, h.checkpointId, h.generation]

/-! ### The slot a call holds -/

/-- The life of the slot that submit call `k` holds, before its next step. -/
def SubmitCall.Holds (k : Nat) (call : SubmitCall) (l : Life) : Prop :=
  match call.pc with
  | .scan .. | .done .. => False
  | .number _           => l.phase = .reserved k
  | .fill _ gen         => l.phase = .numbered k ∧ gen = UInt64.ofNat l.generation
  | .enqueue _ gen      => l.phase = .filled k ∧ call.stamp gen = l.stamp call.streamId
  | .release ..         => l.phase = .failed k
  | .report _ gen       => l.phase = .queued k ∧ call.stamp gen = l.stamp call.streamId
  | .publish _ gen      => l.phase = .submitted k ∧ call.stamp gen = l.stamp call.streamId

/-- The life of the slot that the poll call holds, before its next step. -/
def PollCall.Holds (call : PollCall) (l : Life) : Prop :=
  match call.pc with
  | .scan => False
  | .load _ | .withdraw _ => ∃ k, l.phase = .querying k
  | .query _ gen | .confirm _ gen | .observe _ _ gen =>
      (∃ k, l.phase = .querying k) ∧ gen = UInt64.ofNat l.generation
  | .release _ => ∃ k, l.phase = .confirmed k

/-- A submit call holds its slot in one of its own phases. -/
theorem SubmitCall.Holds.holder {k : Nat} {call : SubmitCall} {l : Life} (h : call.Holds k l) :
    l.phase.holder = some k := by
  obtain ⟨streamId, seq, checkpoint, stream, pc⟩ := call
  cases pc with
  | scan | done => cases h
  | number | release =>
      rw [show l.phase = _ from h]
      rfl
  | fill | enqueue | report | publish =>
      rw [h.1]
      rfl

/-- The poll call holds its slot in one of the phases of polls. -/
theorem PollCall.Holds.polled {call : PollCall} {l : Life} (h : call.Holds l) :
    l.phase.polled = true := by
  -- The poll call is at its slot, whose life is in the phase of being polled.
  obtain ⟨budget, start, offset, checked, completed, pc⟩ := call
  cases pc with
  | scan => cases h
  | load | withdraw | release =>
      obtain ⟨k, hphase⟩ := h
      rw [hphase]
      rfl
  | query | confirm | observe =>
      obtain ⟨⟨k, hphase⟩, -⟩ := h
      rw [hphase]
      rfl

/-- No phase is a submit call's and a poll's. -/
theorem Phase.polled_of_holder {phase : Phase} {k : Nat} (h : phase.holder = some k) :
    phase.polled = false := by
  cases phase with
  | querying | confirmed => cases h
  | free | reserved | numbered | filled | failed | queued | submitted | pending => rfl

/-- In the hand of the polls no submit call holds the slot. -/
theorem Phase.holder_of_polled {phase : Phase} (h : phase.polled = true) : phase.holder = none := by
  cases phase with
  | querying | confirmed => rfl
  | free | reserved | numbered | filled | failed | queued | submitted | pending => cases h

/-- A step that changes the phase, but not the word that shows it. -/
theorem Agree.rephase {l : Life} {slot : Slot} (h : Agree l slot) {phase : Phase}
    (hstate : phase.state = l.phase.state) : Agree { l with phase } slot :=
  ⟨h.state.trans hstate.symm, h.generation, h.submittedSeq, h.checkpointId, h.reported⟩

/-- A step that changes the phase and the word that shows it. -/
theorem Agree.restate {l : Life} {slot : Slot} (h : Agree l slot) (phase : Phase) :
    Agree { l with phase } { slot with state := phase.state } :=
  ⟨rfl, h.generation, h.submittedSeq, h.checkpointId, h.reported⟩

/-- A new generation starts, and what was reported is forgotten. -/
theorem Agree.renumber {l : Life} {slot : Slot} (h : Agree l slot) {k : Nat}
    (hphase : l.phase = .reserved k) :
    Agree { l with generation := l.generation + 1, phase := .numbered k, seen := fun _ => false }
      { slot with generation := slot.generation + 1 } := by
  refine ⟨?_, ?_, h.submittedSeq, h.checkpointId, fun _ hm => by cases hm⟩
  · rw [h.state, hphase]
    rfl
  · show slot.generation + 1 = UInt64.ofNat (l.generation + 1)
    rw [h.generation, UInt64.ofNat_add]
    rfl

/-- A mark is reported for the generation of the slot. -/
theorem Agree.report {l : Life} {slot : Slot} (h : Agree l slot) (mark : Mark) :
    Agree { l with seen := Function.update l.seen mark true }
      (slot.setReported mark slot.generation) := by
  refine ⟨?_, ?_, ?_, ?_, fun other hother => ?_⟩
  · -- The mark is written for the generation of the slot, and no other field changes.
    cases mark <;> exact h.state
  · cases mark <;> exact h.generation
  · cases mark <;> exact h.submittedSeq
  · cases mark <;> exact h.checkpointId
  · by_cases hmark : other = mark
    · subst hmark
      cases other <;> rfl
    · have hold := h.reported other (by simpa [hmark] using hother)
      cases mark <;> cases other <;> first | exact hold | exact absurd rfl hmark

/-- A submit call goes on along the life of its slot. -/
theorem SubmitCall.hold_spec {k : Nat} {call : SubmitCall} {slot slot' : Slot} {rc : Int}
    {a : Access} {pc : SubmitPc} {p : Place} {l : Life}
    (hhold : call.hold k slot rc = some (slot', a, pc)) (hplace : call.place = some p)
    (hagree : Agree l slot) (h : call.Holds k l) :
    ∃ l', l.step call.streamId a = some l' ∧ Agree l' slot' ∧ l'.phase.polled = false ∧
      (({ call with pc } : SubmitCall).place = none ∧ l'.phase.holder = none ∨
        ({ call with pc } : SubmitCall).place = some p ∧ l'.phase.holder = some k ∧
          ({ call with pc } : SubmitCall).Holds k l') := by
  cases hold_cases hhold with
  -- The call keeps the slot, up to a refused event or the store of `PENDING`.
  | number hpc =>
      rw [Holds, hpc] at h
      rw [place, hpc] at hplace
      exact ⟨_, (Life.Step.number h).step_eq, hagree.renumber h, rfl,
        Or.inr ⟨hplace, rfl, rfl, (hagree.renumber h).generation⟩⟩
  | fill hpc =>
      rw [Holds, hpc] at h
      rw [place, hpc] at hplace
      obtain ⟨hphase, rfl⟩ := h
      refine ⟨_, (Life.Step.fill hphase).step_eq,
        ⟨?_, hagree.generation, rfl, rfl, hagree.reported⟩, rfl, Or.inr ⟨hplace, rfl, rfl, rfl⟩⟩
      rw [hagree.state, hphase]
      rfl
  | enqueue hpc =>
      rw [Holds, hpc] at h
      rw [place, hpc] at hplace
      obtain ⟨hphase, hstamp⟩ := h
      exact ⟨_, (Life.Step.enqueue hphase).step_eq, hagree.rephase (by rw [hphase]; rfl), rfl,
        Or.inr ⟨hplace, rfl, rfl, hstamp⟩⟩
  | refuse hpc hrc =>
      rw [Holds, hpc] at h
      rw [place, hpc] at hplace
      obtain ⟨hphase, -⟩ := h
      exact ⟨_, (Life.Step.refuse hphase hrc).step_eq, hagree.rephase (by rw [hphase]; rfl), rfl,
        Or.inr ⟨hplace, rfl, rfl⟩⟩
  | release hpc =>
      rw [Holds, hpc] at h
      exact ⟨_, (Life.Step.giveUp h).step_eq, hagree.restate .free, rfl, Or.inl ⟨rfl, rfl⟩⟩
  | report hpc =>
      rw [Holds, hpc] at h
      rw [place, hpc] at hplace
      obtain ⟨hphase, hstamp⟩ := h
      rw [hstamp]
      exact ⟨_, (Life.Step.submit hphase).step_eq, hagree.rephase (by rw [hphase]; rfl), rfl,
        Or.inr ⟨hplace, rfl, rfl, hstamp⟩⟩
  | publish hpc =>
      rw [Holds, hpc] at h
      exact ⟨_, (Life.Step.publish h.1).step_eq, hagree.restate (.pending k), rfl,
        Or.inl ⟨rfl, rfl⟩⟩

/-- The poll call goes on along the life of its slot. -/
theorem PollCall.hold_spec {id : UInt32} {call call' : PollCall} {slot slot' : Slot} {rc : Int}
    {a : Option Access} {p : Place} {l : Life}
    (hhold : call.hold id slot rc = some (slot', a, call')) (hplace : call.place = some p)
    (hagree : Agree l slot) (h : call.Holds l) :
    ∃ l', (match a with | some a => l.step id a = some l' | none => l' = l ∧ slot' = slot) ∧
      Agree l' slot' ∧ l'.phase.holder = none ∧
      (call'.place = none ∧ l'.phase.polled = false ∨
        call'.place = some p ∧ l'.phase.polled = true ∧ call'.Holds l') := by
  have hpolled := h.polled
  have hholder := Phase.holder_of_polled hpolled
  cases hold_cases hhold with
  | load hpc =>
      rw [Holds, hpc] at h
      rw [place, hpc] at hplace
      obtain ⟨k, hphase⟩ := h
      exact ⟨l, (Life.Step.load hphase).step_eq, hagree, hholder,
        Or.inr ⟨hplace, hpolled, ⟨k, hphase⟩, hagree.generation⟩⟩
  | ready hpc | unready hpc =>
      rw [Holds, hpc] at h
      rw [place, hpc] at hplace
      obtain ⟨⟨k, hphase⟩, hgen⟩ := h
      exact ⟨l, (Life.Step.query hphase).step_eq, hagree, hholder,
        Or.inr ⟨hplace, hpolled, ⟨k, hphase⟩, hgen⟩⟩
  | confirm hpc =>
      rw [Holds, hpc] at h
      rw [place, hpc] at hplace
      obtain ⟨⟨k, hphase⟩, hgen⟩ := h
      rw [hgen, ← hagree.generation, hagree.stamp]
      exact ⟨_, (Life.Step.confirm hphase).step_eq, hagree.rephase (by rw [hphase]; rfl), rfl,
        Or.inr ⟨hplace, rfl, k, rfl⟩⟩
  | release hpc =>
      rw [Holds, hpc] at h
      obtain ⟨k, hphase⟩ := h
      exact ⟨_, (Life.Step.release hphase).step_eq, hagree.restate .free, rfl, Or.inl ⟨rfl, rfl⟩⟩
  | @observe q mark gen rc hpc hnew =>
      rw [Holds, hpc] at h
      rw [place, hpc] at hplace
      obtain ⟨⟨k, hphase⟩, hgen⟩ := h
      obtain rfl : gen = slot.generation := hgen.trans hagree.generation.symm
      -- What was reported for this generation would still be remembered.
      have hseen : l.seen mark = false := by
        by_contra hs
        rw [Bool.not_eq_false] at hs
        exact hnew (hagree.reported mark hs)
      rw [hagree.stamp]
      exact ⟨_, (Life.Step.observe hphase hseen).step_eq, hagree.report mark, hholder,
        Or.inr ⟨hplace, hpolled, k, hphase⟩⟩
  | again hpc =>
      rw [Holds, hpc] at h
      rw [place, hpc] at hplace
      exact ⟨l, ⟨rfl, rfl⟩, hagree, hholder, Or.inr ⟨hplace, hpolled, h.1⟩⟩
  | withdraw hpc =>
      rw [Holds, hpc] at h
      obtain ⟨k, hphase⟩ := h
      exact ⟨_, (Life.Step.withdraw hphase).step_eq, hagree.restate (.pending k), rfl,
        Or.inl ⟨rfl, rfl⟩⟩

/-! ### The invariant -/

/-- The slot at a place, its stream and its life so far. -/
structure HasLife (s : State) (p : Place) (id : UInt32) (slot : Slot) (l : Life) : Prop where
  slot_eq : s.manager.slot? p = some slot
  stream_eq : s.manager.streamId? p.stream = some id
  lived : Lived id (s.accesses p) l
  agree : Agree l slot

/-- The slots refine their lives, and calls and slots agree on who holds what. -/
structure Inv (s : State) : Prop where
  life : ∀ p slot, s.manager.slot? p = some slot → ∃ id l, HasLife s p id slot l
  absent : ∀ p, s.manager.slot? p = none → s.accesses p = []
  stream : ∀ (k : Nat) (call : SubmitCall), s.submits[k]? = some call →
    s.manager.streamId? call.stream = some call.streamId
  submit : ∀ (k : Nat) (call : SubmitCall) p, s.submits[k]? = some call → call.place = some p →
    ∃ slot l, HasLife s p call.streamId slot l ∧ call.Holds k l
  holder : ∀ p id slot l k, HasLife s p id slot l → l.phase.holder = some k →
    ∃ call : SubmitCall, s.submits[k]? = some call ∧ call.place = some p
  poll : ∀ (call : PollCall) p, s.poll = some call → call.place = some p →
    ∃ id slot l, HasLife s p id slot l ∧ call.Holds l
  polled : ∀ p id slot l, HasLife s p id slot l → l.phase.polled = true →
    ∃ call : PollCall, s.poll = some call ∧ call.place = some p
  flag : s.manager.polling = s.poll.isSome

/-- Registered streams without traffic: every slot is new. -/
def Manager.Fresh (m : Manager) : Prop :=
  m.polling = false ∧ (∀ p slot, m.slot? p = some slot → slot = Slot.new slot.event) ∧
    ∀ p slot, m.slot? p = some slot → ∃ id, m.streamId? p.stream = some id

section
variable {s s' : State} {p q : Place} {id id' : UInt32} {slot slot' : Slot} {l l' : Life}
  {a : Access} {k : Nat}

/-- A life depends on the slot, its stream and its accesses only. -/
theorem hasLife_congr (hslot : s'.manager.slot? p = s.manager.slot? p)
    (hstream : s'.manager.streamId? p.stream = s.manager.streamId? p.stream)
    (haccesses : s'.accesses p = s.accesses p) :
    HasLife s' p id slot l ↔ HasLife s p id slot l := by
  constructor
  · rintro ⟨h₁, h₂, h₃, h₄⟩
    exact ⟨hslot ▸ h₁, hstream ▸ h₂, haccesses ▸ h₃, h₄⟩
  · rintro ⟨h₁, h₂, h₃, h₄⟩
    exact ⟨hslot.trans h₁, hstream.trans h₂, haccesses.symm ▸ h₃, h₄⟩

/-- A change of a submit call leaves the lives. -/
@[simp] theorem hasLife_setSubmit {call : SubmitCall} :
    HasLife (s.setSubmit k call) p id slot l ↔ HasLife s p id slot l :=
  hasLife_congr rfl rfl rfl

/-- A change of the poll call leaves the lives. -/
@[simp] theorem hasLife_setPoll {call : Option PollCall} :
    HasLife (s.setPoll call) p id slot l ↔ HasLife s p id slot l :=
  hasLife_congr rfl rfl rfl

/-- A place has one life. -/
theorem HasLife.unique (h : HasLife s p id slot l) (h' : HasLife s p id' slot' l') :
    id = id' ∧ slot = slot' ∧ l = l' := by
  obtain rfl := Option.some.inj (h.stream_eq.symm.trans h'.stream_eq)
  exact ⟨rfl, Option.some.inj (h.slot_eq.symm.trans h'.slot_eq), h.lived.deterministic h'.lived⟩

/-- Nothing has happened at the slots of a fresh manager. -/
theorem inv_start {m : Manager} (h : m.Fresh) : Inv (State.start m) where
  life p slot hslot := by
    -- Every slot begins its life free.
    obtain ⟨id, hid⟩ := h.2.2 p slot hslot
    exact ⟨id, .init, hslot, hid, Run.nil_iff.mpr rfl, h.2.1 p slot hslot ▸ agree_new _⟩
  absent p _ := rfl
  stream k call hk := by simp [State.start] at hk
  submit k call p hk := by simp [State.start] at hk
  holder p id slot l k hl hholder := by
    obtain rfl := Run.nil_iff.mp hl.lived
    cases hholder
  poll call p hcall := by simp [State.start] at hcall
  polled p id slot l hl hpolled := by
    obtain rfl := Run.nil_iff.mp hl.lived
    cases hpolled
  flag := h.1

/-! ### A step at a slot -/

/-- An access that the life allows takes the life a step further. -/
theorem HasLife.access_self (h : HasLife s p id slot l) (hstep : l.step id a = some l')
    (hagree : Agree l' slot') : HasLife (s.access p slot' a) p id slot' l' where
  slot_eq := by
    rw [State.access, Manager.slot?_modifySlot, if_pos rfl, h.slot_eq]
    rfl
  stream_eq := by rw [State.access, Manager.streamId?_modifySlot, h.stream_eq]
  lived := by
    rw [State.accesses_access, if_pos rfl]
    exact h.lived.append (Run.single hstep)
  agree := hagree

/-- An access leaves the lives at the other places. -/
theorem hasLife_access_of_ne (hq : q ≠ p) :
    HasLife (s.access p slot' a) q id slot l ↔ HasLife s q id slot l := by
  refine hasLife_congr ?_ ?_ ?_
  · rw [State.access, Manager.slot?_modifySlot, if_neg hq]
  · rw [State.access, Manager.streamId?_modifySlot]
  · rw [State.accesses_access, if_neg hq.symm]

/-- A step at a slot keeps what the invariant says about slots alone. -/
theorem Inv.life_access (h : Inv s) (hl : HasLife s p id slot l)
    (hstep : l.step id a = some l') (hagree : Agree l' slot') :
    (∀ q slot₁, (s.access p slot' a).manager.slot? q = some slot₁ →
        ∃ id₁ l₁, HasLife (s.access p slot' a) q id₁ slot₁ l₁) ∧
      ∀ q, (s.access p slot' a).manager.slot? q = none → (s.access p slot' a).accesses q = [] := by
  have hself := hl.access_self hstep hagree
  -- The slot of the access goes on with its life, and the others are as before.
  constructor
  · intro q slot₁ hq
    by_cases hqp : q = p
    · subst hqp
      obtain rfl := Option.some.inj (hself.slot_eq.symm.trans hq)
      exact ⟨id, l', hself⟩
    · rw [State.access, Manager.slot?_modifySlot, if_neg hqp] at hq
      obtain ⟨id₁, l₁, h₁⟩ := h.life q slot₁ hq
      exact ⟨id₁, l₁, (hasLife_access_of_ne hqp).mpr h₁⟩
  · intro q hq
    by_cases hqp : q = p
    · subst hqp
      rw [hself.slot_eq] at hq
      cases hq
    · rw [State.access, Manager.slot?_modifySlot, if_neg hqp] at hq
      rw [State.accesses_access, if_neg (Ne.symm hqp)]
      exact h.absent q hq

/-- A step of submit call `k` at a slot that no other call holds. -/
theorem Inv.submit_access (h : Inv s) {call call' : SubmitCall} (hk : s.submits[k]? = some call)
    (hl : HasLife s p call.streamId slot l) (hplace : ∀ q, call.place = some q → q = p)
    (hholder : ∀ j, l.phase.holder = some j → j = k) (hpolled : l.phase.polled = false)
    (hstep : l.step call.streamId a = some l') (hagree : Agree l' slot')
    (hpolled' : l'.phase.polled = false)
    (hsame : call'.streamId = call.streamId ∧ call'.stream = call.stream)
    (hnew : call'.place = none ∧ l'.phase.holder = none ∨
      call'.place = some p ∧ l'.phase.holder = some k ∧ call'.Holds k l') :
    Inv ((s.access p slot' a).setSubmit k call') := by
  have hself : HasLife ((s.access p slot' a).setSubmit k call') p call.streamId slot' l' :=
    hasLife_setSubmit.mpr (hl.access_self hstep hagree)
  have hother : ∀ {q id₁ slot₁ l₁}, q ≠ p →
      (HasLife ((s.access p slot' a).setSubmit k call') q id₁ slot₁ l₁ ↔
        HasLife s q id₁ slot₁ l₁) :=
    fun hq => hasLife_setSubmit.trans (hasLife_access_of_ne hq)
  have hklt : k < s.submits.length := (List.getElem?_eq_some_iff.mp hk).1
  -- A submit call after the step is the new call `k` or an old one.
  have hcalls : ∀ j c, (s.submits.set k call')[j]? = some c →
      j = k ∧ c = call' ∨ j ≠ k ∧ s.submits[j]? = some c :=
    fun _ _ => getElem?_set_cases
  obtain ⟨hlife, habsent⟩ := h.life_access hl hstep hagree
  constructor
  case absent => exact habsent
  case life =>
      intro q slot₁ hq
      obtain ⟨id₁, l₁, hl₁⟩ := hlife q slot₁ hq
      exact ⟨id₁, l₁, hasLife_setSubmit.mpr hl₁⟩
  case stream =>
      intro j c hj
      show (s.manager.modifySlot p fun _ => slot').streamId? c.stream = _
      rw [Manager.streamId?_modifySlot]
      rcases hcalls j c hj with ⟨-, rfl⟩ | ⟨-, hold⟩
      · rw [hsame.1, hsame.2]
        exact h.stream k call hk
      · exact h.stream j c hold
  case submit =>
      intro j c q hj hq
      rcases hcalls j c hj with ⟨rfl, rfl⟩ | ⟨hjk, hold⟩
      · rcases hnew with ⟨hnone, -⟩ | ⟨hp, -, hholds⟩
        · rw [hnone] at hq
          cases hq
        · obtain rfl := Option.some.inj (hp.symm.trans hq)
          exact ⟨slot', l', hsame.1 ▸ hself, hholds⟩
      · obtain ⟨slot₁, l₁, hl₁, hholds⟩ := h.submit j c q hold hq
        have hqp : q ≠ p := by
          rintro rfl
          obtain ⟨-, -, rfl⟩ := hl.unique hl₁
          exact hjk (hholder j hholds.holder)
        exact ⟨slot₁, l₁, (hother hqp).mpr hl₁, hholds⟩
  case holder =>
      intro q id₁ slot₁ l₁ j hl₁ hj
      by_cases hqp : q = p
      · subst hqp
        obtain ⟨-, -, rfl⟩ := hself.unique hl₁
        rcases hnew with ⟨-, hnone⟩ | ⟨hp, hholder', -⟩
        · rw [hnone] at hj
          cases hj
        · obtain rfl := Option.some.inj (hholder'.symm.trans hj)
          exact ⟨call', List.getElem?_set_self hklt, hp⟩
      · obtain ⟨c, hc, hcq⟩ := h.holder q id₁ slot₁ l₁ j ((hother hqp).mp hl₁) hj
        have hjk : k ≠ j := by
          rintro rfl
          obtain rfl := Option.some.inj (hk.symm.trans hc)
          exact hqp (hplace q hcq)
        exact ⟨c, (List.getElem?_set_ne hjk).trans hc, hcq⟩
  case poll =>
      intro c q hc hq
      obtain ⟨id₁, slot₁, l₁, hl₁, hholds⟩ := h.poll c q hc hq
      have hqp : q ≠ p := by
        rintro rfl
        obtain ⟨-, -, rfl⟩ := hl.unique hl₁
        rw [hholds.polled] at hpolled
        cases hpolled
      exact ⟨id₁, slot₁, l₁, (hother hqp).mpr hl₁, hholds⟩
  case polled =>
      intro q id₁ slot₁ l₁ hl₁ hpoll
      have hqp : q ≠ p := by
        rintro rfl
        obtain ⟨-, -, rfl⟩ := hself.unique hl₁
        rw [hpolled'] at hpoll
        cases hpoll
      exact h.polled q id₁ slot₁ l₁ ((hother hqp).mp hl₁) hpoll
  case flag =>
      exact h.flag

/-- A step of the poll call at a slot that no submit call holds. -/
theorem Inv.poll_access (h : Inv s) {call call' : PollCall} (hcall : s.poll = some call)
    (hl : HasLife s p id slot l) (hplace : ∀ q, call.place = some q → q = p)
    (hholder : l.phase.holder = none) (hstep : l.step id a = some l') (hagree : Agree l' slot')
    (hholder' : l'.phase.holder = none)
    (hnew : call'.place = none ∧ l'.phase.polled = false ∨
      call'.place = some p ∧ l'.phase.polled = true ∧ call'.Holds l') :
    Inv ((s.access p slot' a).setPoll (some call')) := by
  have hself : HasLife ((s.access p slot' a).setPoll (some call')) p id slot' l' :=
    hasLife_setPoll.mpr (hl.access_self hstep hagree)
  have hother : ∀ {q id₁ slot₁ l₁}, q ≠ p →
      (HasLife ((s.access p slot' a).setPoll (some call')) q id₁ slot₁ l₁ ↔
        HasLife s q id₁ slot₁ l₁) :=
    fun hq => hasLife_setPoll.trans (hasLife_access_of_ne hq)
  obtain ⟨hlife, habsent⟩ := h.life_access hl hstep hagree
  constructor
  case absent => exact habsent
  case life =>
      intro q slot₁ hq
      obtain ⟨id₁, l₁, hl₁⟩ := hlife q slot₁ hq
      exact ⟨id₁, l₁, hasLife_setPoll.mpr hl₁⟩
  case stream =>
      intro j c hj
      show (s.manager.modifySlot p fun _ => slot').streamId? c.stream = _
      rw [Manager.streamId?_modifySlot]
      exact h.stream j c hj
  -- A submit call holds another slot than `p`, where the step changes nothing.
  case submit =>
      intro j c q hj hq
      obtain ⟨slot₁, l₁, hl₁, hholds⟩ := h.submit j c q hj hq
      have hqp : q ≠ p := by
        rintro rfl
        obtain ⟨-, -, rfl⟩ := hl.unique hl₁
        rw [hholds.holder] at hholder
        cases hholder
      exact ⟨slot₁, l₁, (hother hqp).mpr hl₁, hholds⟩
  case holder =>
      intro q id₁ slot₁ l₁ j hl₁ hj
      have hqp : q ≠ p := by
        rintro rfl
        obtain ⟨-, -, rfl⟩ := hself.unique hl₁
        rw [hholder'] at hj
        cases hj
      exact h.holder q id₁ slot₁ l₁ j ((hother hqp).mp hl₁) hj
  case poll =>
      intro c q hc hq
      obtain rfl := Option.some.inj hc
      rcases hnew with ⟨hnone, -⟩ | ⟨hp, -, hholds⟩
      · rw [hnone] at hq
        cases hq
      · obtain rfl := Option.some.inj (hp.symm.trans hq)
        exact ⟨id, slot', l', hself, hholds⟩
  -- A slot that is being polled is `p`: there is one poll call, and it was nowhere else.
  case polled =>
      intro q id₁ slot₁ l₁ hl₁ hpoll
      by_cases hqp : q = p
      · subst hqp
        obtain ⟨-, -, rfl⟩ := hself.unique hl₁
        rcases hnew with ⟨-, hfalse⟩ | ⟨hp, -, -⟩
        · rw [hfalse] at hpoll
          cases hpoll
        · exact ⟨call', rfl, hp⟩
      · obtain ⟨c, hc, hcq⟩ := h.polled q id₁ slot₁ l₁ ((hother hqp).mp hl₁) hpoll
        obtain rfl := Option.some.inj (hcall.symm.trans hc)
        exact absurd (hplace q hcq) hqp
  case flag =>
      show (s.manager.modifySlot p fun _ => slot').polling = true
      rw [Manager.polling_modifySlot, h.flag, hcall]
      rfl

/-! ### A step that leaves the slots alone -/

/-- A step at no slot: submit calls that hold a slot stay as they are, and the
poll call keeps its place. -/
theorem Inv.idle (h : Inv s) (hslot : ∀ p, s'.manager.slot? p = s.manager.slot? p)
    (hstream : ∀ i, s'.manager.streamId? i = s.manager.streamId? i)
    (haccesses : ∀ p, s'.accesses p = s.accesses p)
    (hnew : ∀ (k : Nat) (call : SubmitCall), s'.submits[k]? = some call →
      s.submits[k]? = some call ∨
        call.place = none ∧ s.manager.streamId? call.stream = some call.streamId)
    (hold : ∀ (k : Nat) (call : SubmitCall) p, s.submits[k]? = some call →
      call.place = some p → s'.submits[k]? = some call)
    (hpollNew : ∀ (call' : PollCall) p, s'.poll = some call' → call'.place = some p →
      ∃ call, s.poll = some call ∧ call.place = some p ∧
        ∀ id slot l, HasLife s p id slot l → call.Holds l → call'.Holds l)
    (hpollOld : ∀ (call : PollCall) p, s.poll = some call → call.place = some p →
      ∃ call', s'.poll = some call' ∧ call'.place = some p)
    (hflag : s'.manager.polling = s'.poll.isSome) : Inv s' := by
  have hlife : ∀ {p id slot l}, HasLife s' p id slot l ↔ HasLife s p id slot l :=
    hasLife_congr (hslot _) (hstream _) (haccesses _)
  constructor
  case flag => exact hflag
  case life =>
      intro p slot hp
      obtain ⟨id, l, hl⟩ := h.life p slot (hslot p ▸ hp)
      exact ⟨id, l, hlife.mpr hl⟩
  case absent =>
      intro p hp
      rw [haccesses]
      exact h.absent p (hslot p ▸ hp)
  case stream =>
      intro k call hk
      rw [hstream]
      rcases hnew k call hk with hsome | ⟨-, hid⟩
      · exact h.stream k call hsome
      · exact hid
  -- A call that is new or has moved holds no slot.
  case submit =>
      intro k call p hk hp
      rcases hnew k call hk with hsome | ⟨hnone, -⟩
      · obtain ⟨slot, l, hl, hholds⟩ := h.submit k call p hsome hp
        exact ⟨slot, l, hlife.mpr hl, hholds⟩
      · rw [hnone] at hp
        cases hp
  case holder =>
      intro p id slot l k hl hk
      obtain ⟨call, hcall, hp⟩ := h.holder p id slot l k (hlife.mp hl) hk
      exact ⟨call, hold k call p hcall hp, hp⟩
  case poll =>
      intro call' p hcall' hp
      obtain ⟨call, hcall, hcp, hholds⟩ := hpollNew call' p hcall' hp
      obtain ⟨id, slot, l, hl, hh⟩ := h.poll call p hcall hcp
      exact ⟨id, slot, l, hlife.mpr hl, hholds id slot l hl hh⟩
  case polled =>
      intro p id slot l hl hpolled
      obtain ⟨call, hcall, hp⟩ := h.polled p id slot l (hlife.mp hl) hpolled
      exact hpollOld call p hcall hp

end

/-! ### The steps -/

section
variable {s s' : State} {k : Nat} {rc : Int}

/-- Only a slot that nobody has is `FREE`. -/
theorem Phase.eq_free {phase : Phase} (h : phase.state = .free) : phase = .free := by
  cases phase <;> first | rfl | cases h

/-- Only a published slot is `PENDING`. -/
theorem Phase.eq_pending {phase : Phase} (h : phase.state = .pending) :
    ∃ k, phase = .pending k := by
  cases phase
  case pending k => exact ⟨k, rfl⟩
  all_goals cases h

/-- A submit call that scans holds no slot. -/
theorem SubmitCall.place_scan {call : SubmitCall} {start : UInt32} {n : Nat}
    (h : call.pc = .scan start n) : call.place = none := by
  rw [SubmitCall.place, h]

/-- A poll call that scans holds no slot. -/
theorem PollCall.place_scan {call : PollCall} (h : call.pc = .scan) : call.place = none := by
  rw [PollCall.place, h]

/-- Replacing a submit call that holds no slot by one that holds none. -/
theorem Inv.setSubmit_idle (h : Inv s) {call call' : SubmitCall} (hk : s.submits[k]? = some call)
    (hplace : call.place = none) (hsubmits : s'.submits = s.submits.set k call')
    (hplace' : call'.place = none)
    (hsame : call'.streamId = call.streamId ∧ call'.stream = call.stream)
    (hmanager : s'.manager = s.manager) (hpoll : s'.poll = s.poll)
    (haccesses : ∀ p, s'.accesses p = s.accesses p) : Inv s' := by
  refine h.idle (fun p => by rw [hmanager]) (fun i => by rw [hmanager]) haccesses ?_ ?_ ?_ ?_ ?_
  · -- The call itself holds no slot before or after.
    intro j c hj
    rw [hsubmits] at hj
    rcases getElem?_set_cases hj with ⟨rfl, rfl⟩ | ⟨-, hj⟩
    · refine Or.inr ⟨hplace', ?_⟩
      rw [hsame.1, hsame.2]
      exact h.stream j call hk
    · exact Or.inl hj
  · -- Another call is not touched.
    intro j c p hj hp
    have hjk : k ≠ j := by
      rintro rfl
      obtain rfl := Option.some.inj (hk.symm.trans hj)
      rw [hplace] at hp
      cases hp
    rw [hsubmits, List.getElem?_set_ne hjk, hj]
  · intro c p hc hp
    exact ⟨c, hpoll ▸ hc, hp, fun _ _ _ _ hh => hh⟩
  · intro c p hc hp
    exact ⟨c, hpoll.trans hc, hp⟩
  · rw [hmanager, hpoll]
    exact h.flag

/-- Replacing a poll call that holds no slot by one that holds none, or by no
call. -/
theorem Inv.setPoll_idle (h : Inv s) (hplace : ∀ c, s.poll = some c → c.place = none)
    (hplace' : ∀ c, s'.poll = some c → c.place = none)
    (hslot : ∀ p, s'.manager.slot? p = s.manager.slot? p)
    (hstream : ∀ i, s'.manager.streamId? i = s.manager.streamId? i)
    (haccesses : ∀ p, s'.accesses p = s.accesses p) (hsubmits : s'.submits = s.submits)
    (hflag : s'.manager.polling = s'.poll.isSome) : Inv s' := by
  refine h.idle hslot hstream haccesses ?_ ?_ ?_ ?_ hflag
  · -- No poll call holds a slot, before or after.
    intro j c hj
    exact Or.inl (hsubmits ▸ hj)
  · intro j c p hj _
    rw [hsubmits, hj]
  · intro c p hc hp
    rw [hplace' c hc] at hp
    cases hp
  · intro c p hc hp
    rw [hplace c hc] at hp
    cases hp

/-- A step of a submit call keeps the invariant. A scan that succeeds starts a life, and a
held slot goes on with its own. -/
theorem inv_advance (h : Inv s) (hs : s.advance k rc = some s') : Inv s' := by
  cases State.advance_cases hs with
  | @reserve _ _ call start n slot hk hpc hslot hfree =>
      -- The slot was free, so no call holds it.
      obtain ⟨id, l, hl⟩ := h.life _ slot hslot
      obtain rfl : id = call.streamId :=
        Option.some.inj (hl.stream_eq.symm.trans (h.stream k call hk))
      have hphase : l.phase = .free := Phase.eq_free (hl.agree.state.symm.trans hfree)
      refine h.submit_access hk hl ?_ ?_ ?_ (Life.Step.reserve hphase).step_eq
        (hl.agree.restate (.reserved k)) rfl ⟨rfl, rfl⟩ (Or.inr ⟨rfl, rfl, rfl⟩)
      · intro q hq
        rw [SubmitCall.place_scan hpc] at hq
        cases hq
      · intro j hj
        rw [hphase] at hj
        cases hj
      · rw [hphase]
        rfl
  | skip hk hpc =>
      exact h.setSubmit_idle hk (SubmitCall.place_scan hpc) rfl rfl ⟨rfl, rfl⟩ rfl rfl fun _ => rfl
  | full hk hpc =>
      refine h.setSubmit_idle hk (SubmitCall.place_scan hpc) rfl rfl ⟨rfl, rfl⟩ rfl rfl fun q => ?_
      simp [State.accesses, accessesAt]
  | @hold _ _ call p slot _ _ _ hk hp hslot hhold =>
      obtain ⟨slot₁, l, hl, hholds⟩ := h.submit k call p hk hp
      obtain rfl := Option.some.inj (hl.slot_eq.symm.trans hslot)
      obtain ⟨l', hstep, hagree, hpolled', hnew⟩ := SubmitCall.hold_spec hhold hp hl.agree hholds
      have hpolled := Phase.polled_of_holder hholds.holder
      refine h.submit_access hk hl ?_ ?_ hpolled hstep hagree hpolled' ⟨rfl, rfl⟩ hnew
      · intro q hq
        exact Option.some.inj (hq.symm.trans hp)
      · intro j hj
        exact Option.some.inj (hj.symm.trans hholds.holder)

/-- A step of the poll call keeps the invariant. -/
theorem inv_advancePoll (h : Inv s) (hs : s.advancePoll rc = some s') : Inv s' := by
  have hold : ∀ {call}, s.poll = some call → ∀ c, s.poll = some c → c = call :=
    fun hcall c hc => Option.some.inj (hc.symm.trans hcall)
  have hflag : ∀ {call : PollCall}, s.poll = some call → s.manager.polling = true := by
    intro call hcall
    rw [h.flag, hcall]
    rfl
  cases State.advancePoll_cases hs with
  | @acquire _ call slot hcall hpc hslot hpending =>
      obtain ⟨id, l, hl⟩ := h.life _ slot hslot
      obtain ⟨k, hphase⟩ := Phase.eq_pending (hl.agree.state.symm.trans hpending)
      refine h.poll_access hcall hl ?_ ?_ (Life.Step.acquire hphase).step_eq
        (hl.agree.restate (.querying k)) rfl (Or.inr ⟨rfl, rfl, k, rfl⟩)
      · intro q hq
        rw [PollCall.place_scan hpc] at hq
        cases hq
      · rw [hphase]
        rfl
  -- A call that scans or ends holds no slot.
  | pass hcall hpc =>
      refine h.setPoll_idle ?_ ?_ (fun _ => rfl) (fun _ => rfl) (fun _ => rfl) rfl (hflag hcall)
      · intro c hc
        rw [hold hcall c hc]
        exact PollCall.place_scan hpc
      · intro c hc
        obtain rfl := Option.some.inj hc
        rfl
  | finish hcall hpc =>
      refine h.setPoll_idle ?_ ?_ (fun _ => rfl) (fun _ => rfl) (fun q => ?_) rfl rfl
      · intro c hc
        rw [hold hcall c hc]
        exact PollCall.place_scan hpc
      · intro c hc
        cases hc
      · simp [State.accesses, accessesAt]
  | @pollHold _ call _ p _ _ _ _ hcall hp hslot hid hhold =>
      obtain ⟨id₁, slot₁, l, hl, hholds⟩ := h.poll call p hcall hp
      obtain rfl := Option.some.inj (hl.slot_eq.symm.trans hslot)
      obtain rfl := Option.some.inj (hl.stream_eq.symm.trans hid)
      obtain ⟨l', hstep, hagree, hholder', hnew⟩ := PollCall.hold_spec hhold hp hl.agree hholds
      have hholder := Phase.holder_of_polled hholds.polled
      refine h.poll_access hcall hl ?_ hholder hstep hagree hholder' hnew
      intro q hq
      exact Option.some.inj (hq.symm.trans hp)
  -- The record was written before, so the life of the slot stays where it is.
  | @pollQuiet _ call call' p _ _ _ hcall hp hslot hid hhold =>
      obtain ⟨id₁, slot₁, l, hl, hholds⟩ := h.poll call p hcall hp
      obtain rfl := Option.some.inj (hl.slot_eq.symm.trans hslot)
      obtain rfl := Option.some.inj (hl.stream_eq.symm.trans hid)
      obtain ⟨l', ⟨rfl, -⟩, -, -, hnew⟩ := PollCall.hold_spec hhold hp hl.agree hholds
      obtain ⟨hp', -, hholds'⟩ := hnew.resolve_left fun hnone => by
        cases hnone.2.symm.trans hholds.polled
      refine h.idle (fun _ => rfl) (fun _ => rfl) (fun _ => rfl) (fun _ _ hj => Or.inl hj)
        (fun _ _ _ hj _ => hj) ?_ ?_ (hflag hcall)
      · intro c q hc hq
        obtain rfl := Option.some.inj hc
        obtain rfl := Option.some.inj (hp'.symm.trans hq)
        refine ⟨call, hcall, hp, fun _ _ l₁ hl₁ _ => ?_⟩
        obtain ⟨-, -, rfl⟩ := hl.unique hl₁
        exact hholds'
      · intro c q hc hq
        rw [hold hcall c hc] at hq
        obtain rfl := Option.some.inj (hp.symm.trans hq)
        exact ⟨call', rfl, hp'⟩

/-- A new submit call holds no slot. -/
theorem inv_submit (h : Inv s) {id : UInt32} (seq checkpoint : UInt64) {i : Nat} (start : UInt32)
    (hfound : s.manager.findStream id = some i) :
    Inv { s with
      manager := s.manager.bumpCursor i
      submits := s.submits ++ [⟨id, seq, checkpoint, i, .scan start 0⟩] } := by
  refine h.idle (fun p => Manager.slot?_bumpCursor _ _ _)
    (fun j => Manager.streamId?_bumpCursor _ _ _) (fun _ => rfl) ?_ ?_
    (fun c p hc hp => ⟨c, hc, hp, fun _ _ _ _ hh => hh⟩) (fun c p hc hp => ⟨c, hc, hp⟩) h.flag
  · intro j c hj
    show s.submits[j]? = some c ∨ _
    -- The new call has found its stream, and holds no slot yet.
    rcases getElem?_concat_cases hj with hold | ⟨-, rfl⟩
    · exact Or.inl hold
    · exact Or.inr ⟨rfl, Manager.streamId?_of_findStream hfound⟩
  · intro j c p hj _
    show (s.submits ++ _)[j]? = some c
    rw [List.getElem?_append_left (List.getElem?_eq_some_iff.mp hj).1, hj]

/-- An entry that is no access leaves the lives as they are. -/
theorem inv_entry (h : Inv s) {e : Entry} (he : ∀ p x, e ≠ .access p x) :
    Inv { s with trace := s.trace ++ [e] } := by
  have haccesses : ∀ p, accessesAt (s.trace ++ [e]) p = accessesAt s.trace p := by
    intro p
    cases e with
    | access q x => exact absurd rfl (he q x)
    | poolFull | host | polled => simp [accessesAt]
  exact h.idle (fun _ => rfl) (fun _ => rfl) haccesses (fun _ _ hj => Or.inl hj)
    (fun _ _ _ hj _ => hj) (fun c p hc hp => ⟨c, hc, hp, fun _ _ _ _ hh => hh⟩)
    (fun c p hc hp => ⟨c, hc, hp⟩) h.flag

/-- One step of anybody keeps the invariant. -/
theorem inv_step (h : Inv s) (a : Action) (hs : s.step a = some s') : Inv s' := by
  cases State.step_cases hs with
  | refused => exact h
  | submit hfound => exact inv_submit h _ _ _ hfound
  | reserve | skip | full | hold => exact inv_advance h hs
  | pollRefused | host => exact inv_entry h (by simp)
  | poll hgo =>
      -- The lock was free, so no poll call was in progress.
      have hnone : s.poll = none := by
        have hflag := h.flag
        simp only [not_or] at hgo
        rw [Bool.eq_false_iff.mpr hgo.2.1] at hflag
        exact Option.isNone_iff_eq_none.mp (Option.isSome_eq_false_iff.mp hflag.symm)
      refine h.setPoll_idle ?_ ?_ (fun _ => rfl) (fun _ => rfl) (fun _ => rfl) rfl rfl
      · intro c hc
        rw [hnone] at hc
        cases hc
      · intro c hc
        obtain rfl := Option.some.inj hc
        rfl
  | acquire | pass | finish | pollHold | pollQuiet => exact inv_advancePoll h hs

/-- **The refinement.** Whatever the order of the steps and the answers of the
backend, the slots live as `Life.step` says. -/
theorem inv_run {m : Manager} (hm : m.Fresh) {as : List Action}
    (h : Run State.step (State.start m) as s) : Inv s :=
  Run.invariant Inv (fun _ a _ hi hs => inv_step hi a hs) h (inv_start hm)

end

end HangAnalyzer.Checkpoint
