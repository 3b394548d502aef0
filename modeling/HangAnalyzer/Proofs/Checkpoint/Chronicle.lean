import Mathlib.Data.List.Induction
import Mathlib.Data.List.Nodup
import HangAnalyzer.Proofs.Checkpoint.Steps

/-!
# `HangAnalyzer.Proofs.Checkpoint.Chronicle`: the generations of one slot

What a life leaves behind in its records. The accesses of a slot are dated by its
generation, which each `number` starts. A generation that is over has a failed enqueue
and no record, or the records of one submission: submitted, each mark at most once, and
confirmed (`Over`). `Present` says how much of that there is in each phase, and
`chronicle_lived` that the two describe every life.

`confirmed_between` and `submitted_count` are about the accesses of all generations:
nothing is enqueued between a submission and its confirmation, and a slot whose
submission is not confirmed is one submission ahead.
-/

set_option autoImplicit false

namespace HangAnalyzer.Checkpoint

open HangAnalyzer.Lib

/-! ### Generations -/

/-- The access that starts a generation. -/
def Access.isNumber : Access → Bool
  | number _ => true
  | _        => false

/-- The answer of `backend.record`. -/
def Access.answer? : Access → Option Int
  | enqueue _ rc => some rc
  | _            => none

/-- The accesses with the generation that they belong to, after the generation `g`. -/
def dated (g : Nat) : List Access → List (Nat × Access)
  | []      => []
  | a :: as =>
      let g := if a.isNumber then g + 1 else g
      (g, a) :: dated g as

/-- The accesses of a slot in its generation `g`. -/
def ofGeneration (g : Nat) (as : List Access) : List Access :=
  ((dated 0 as).filter fun x => x.1 = g).map Prod.snd

/-- The answers of `backend.record` in a generation. -/
def answers (g : Nat) (as : List Access) : List Int :=
  (ofGeneration g as).filterMap Access.answer?

/-- The records of a generation. -/
def records (g : Nat) (as : List Access) : List Record :=
  (ofGeneration g as).filterMap Access.record?

/-- The last access has the generation that it leaves the slot in. -/
theorem dated_concat (g : Nat) (as : List Access) (a : Access) :
    dated g (as ++ [a]) = dated g as ++ [(g + (as ++ [a]).countP Access.isNumber, a)] := by
  induction as generalizing g with
  | nil =>
      by_cases ha : a.isNumber <;> simp [dated, ha]
  | cons b as ih =>
      rw [List.cons_append, dated, dated, ih, List.countP_cons]
      by_cases hb : b.isNumber
      · simp only [hb, if_true, List.cons_append]
        congr 4
        omega
      · simp only [hb, Bool.false_eq_true, if_false, List.cons_append, Nat.add_zero]

/-- The last access belongs to the generation that it leaves the slot in. -/
theorem ofGeneration_concat (g : Nat) (as : List Access) (a : Access) :
    ofGeneration g (as ++ [a])
      = if (as ++ [a]).countP Access.isNumber = g then ofGeneration g as ++ [a]
        else ofGeneration g as := by
  rw [ofGeneration, dated_concat, List.filter_append, List.map_append, Nat.zero_add]
  generalize (as ++ [a]).countP Access.isNumber = n
  by_cases h : n = g
  · simp [ofGeneration, h]
  · simp [ofGeneration, h]

/-! ### What a generation leaves behind -/

/-- The records of a submission that is not yet confirmed. -/
def Stamp.history (stamp : Stamp) (marks : List Mark) : List Record :=
  stamp.record FL_CHECKPOINT FL_CHECKPOINT_SUBMITTED ::
    marks.map fun mark => stamp.record FL_CHECKPOINT mark.flag

/-- The record of its confirmation. -/
def Stamp.confirmation (stamp : Stamp) : Record := stamp.record FL_DEVICE_CONFIRMED 0

/-- The answers and the records of a generation that is over. The slot is in generation
zero before it is used. -/
inductive Over (id : UInt32) : Nat → List Int → List Record → Prop where
  | unused : Over id 0 [] []
  | failed (g : Nat) (rc : Int) (h : rc ≠ 0) : Over id g [rc] []
  | confirmed (g : Nat) (stamp : Stamp) (marks : List Mark) (stream : stamp.stream = id)
      (generation : stamp.generation = UInt64.ofNat g) (once : marks.Nodup) :
      Over id g [0] (stamp.history marks ++ [stamp.confirmation])

/-- The answers and the records of the generation that the slot is in. -/
def Present (id : UInt32) (l : Life) (rcs : List Int) (rs : List Record) : Prop :=
  match l.phase with
  | .free | .reserved _   => Over id l.generation rcs rs
  | .numbered _ | .filled _ => rcs = [] ∧ rs = [] ∧ ∀ mark, l.seen mark = false
  | .failed _ => ∃ rc, rc ≠ 0 ∧ rcs = [rc] ∧ rs = []
  | .queued _ => rcs = [0] ∧ rs = [] ∧ ∀ mark, l.seen mark = false
  | .submitted _ | .pending _ | .querying _ =>
      rcs = [0] ∧ ∃ marks : List Mark, marks.Nodup ∧ (∀ mark, mark ∈ marks ↔ l.seen mark = true) ∧
        rs = (l.stamp id).history marks
  | .confirmed _ =>
      rcs = [0] ∧ ∃ marks : List Mark, marks.Nodup ∧
        rs = (l.stamp id).history marks ++ [(l.stamp id).confirmation]

/-- The accesses of a life, generation by generation. -/
structure Chronicle (id : UInt32) (as : List Access) (l : Life) : Prop where
  generation : as.countP Access.isNumber = l.generation
  past : ∀ g < l.generation, Over id g (answers g as) (records g as)
  present : Present id l (answers l.generation as) (records l.generation as)
  future : ∀ g, l.generation < g → ofGeneration g as = []

section
variable {id : UInt32} {as : List Access} {a : Access} {l l' : Life}

/-- A life that has not begun has no records. -/
theorem chronicle_init (id : UInt32) : Chronicle id [] .init where
  generation := rfl
  past g hg := absurd hg (Nat.not_lt_zero g)
  present := .unused
  future _ _ := rfl

/-- An access within a generation adds to what the generation has. -/
theorem Chronicle.concat (h : Chronicle id as l) (ha : a.isNumber = false)
    (hgeneration : l'.generation = l.generation)
    (hpresent : Present id l' (answers l.generation as ++ a.answer?.toList)
      (records l.generation as ++ a.record?.toList)) : Chronicle id (as ++ [a]) l' := by
  have hcount : (as ++ [a]).countP Access.isNumber = l.generation := by
    rw [List.countP_append, h.generation, List.countP_singleton, ha]
    rfl
  -- Only the present generation has a new access.
  have hother : ∀ g, g ≠ l.generation → ofGeneration g (as ++ [a]) = ofGeneration g as := by
    intro g hg
    rw [ofGeneration_concat, hcount, if_neg (Ne.symm hg)]
  refine ⟨hcount.trans hgeneration.symm, fun g hg => ?_, ?_, fun g hg => ?_⟩
  · rw [hgeneration] at hg
    rw [answers, records, hother g (Nat.ne_of_lt hg)]
    exact h.past g hg
  · have hself : ofGeneration l.generation (as ++ [a]) = ofGeneration l.generation as ++ [a] := by
      rw [ofGeneration_concat, if_pos hcount]
    -- What the access adds comes at the end.
    rw [hgeneration, answers, records, hself, List.filterMap_append, List.filterMap_append]
    have hsingle : ∀ {β : Type} (f : Access → Option β), [a].filterMap f = (f a).toList := by
      intro β f
      cases hf : f a <;> simp [hf]
    rw [hsingle, hsingle]
    exact hpresent
  · rw [hgeneration] at hg
    rw [hother g (Nat.ne_of_gt hg)]
    exact h.future g hg

/-- An access that is no answer and no record. -/
theorem Chronicle.quiet (h : Chronicle id as l) (ha : a.isNumber = false)
    (hanswer : a.answer? = none) (hrecord : a.record? = none)
    (hgeneration : l'.generation = l.generation)
    (hpresent : Present id l' (answers l.generation as) (records l.generation as)) :
    Chronicle id (as ++ [a]) l' := by
  refine h.concat ha hgeneration ?_
  rw [hanswer, hrecord]
  simpa using hpresent

/-- The first access of a generation ends the one before. -/
theorem Chronicle.number (h : Chronicle id as l) {k j : Nat} (hphase : l.phase = .reserved j)
    (hgeneration : l'.generation = l.generation + 1) (hphase' : l'.phase = .numbered k)
    (hseen : ∀ mark, l'.seen mark = false) :
    Chronicle id (as ++ [.number k]) l' := by
  have hcount : (as ++ [Access.number k]).countP Access.isNumber = l.generation + 1 := by
    rw [List.countP_append, h.generation]
    rfl
  -- The new number begins a generation, and the one before it is past.
  have hother : ∀ g, g ≠ l.generation + 1 →
      ofGeneration g (as ++ [.number k]) = ofGeneration g as := by
    intro g hg
    rw [ofGeneration_concat, hcount, if_neg (Ne.symm hg)]
  refine ⟨hcount.trans hgeneration.symm, fun g hg => ?_, ?_, fun g hg => ?_⟩
  · rw [hgeneration] at hg
    rw [answers, records, hother g (Nat.ne_of_lt hg)]
    rcases Nat.lt_or_eq_of_le (Nat.le_of_lt_succ hg) with hlt | heq
    · exact h.past g hlt
    · -- What was present is now past, since its slot is reserved again.
      subst heq
      have hpresent := h.present
      rw [Present, hphase] at hpresent
      exact hpresent
  · -- The new generation has just this access.
    have hself : ofGeneration (l.generation + 1) (as ++ [.number k]) = [.number k] := by
      rw [ofGeneration_concat, if_pos hcount, h.future _ (Nat.lt_succ_self _)]
      rfl
    rw [Present, hphase', hgeneration, answers, records, hself]
    exact ⟨rfl, rfl, hseen⟩
  · rw [hgeneration] at hg
    rw [hother g (Nat.ne_of_gt hg)]
    exact h.future g (Nat.lt_of_succ_lt hg)

/-- What a step does with the records of its generation. -/
theorem chronicle_step (h : Chronicle id as l) (hs : l.step id a = some l') :
    Chronicle id (as ++ [a]) l' := by
  have hpresent := h.present
  cases Life.step_cases hs with
  | reserve hphase | fill hphase | publish hphase | acquire hphase | withdraw hphase =>
      -- The phase before and the one after ask for the same records.
      rw [Present, hphase] at hpresent
      exact h.quiet rfl rfl rfl rfl hpresent
  | load hphase | query hphase => exact h.quiet rfl rfl rfl rfl hpresent
  | number hphase => exact h.number hphase rfl rfl fun _ => rfl
  | enqueue hphase =>
      rw [Present, hphase] at hpresent
      obtain ⟨hrcs, hrs, hseen⟩ := hpresent
      refine h.concat rfl rfl ?_
      rw [hrcs, hrs]
      exact ⟨rfl, rfl, hseen⟩
  | refuse hphase hrc =>
      rw [Present, hphase] at hpresent
      obtain ⟨hrcs, hrs, -⟩ := hpresent
      refine h.concat rfl rfl ?_
      rw [hrcs, hrs]
      exact ⟨_, hrc, rfl, rfl⟩
  | submit hphase =>
      rw [Present, hphase] at hpresent
      obtain ⟨hrcs, hrs, hseen⟩ := hpresent
      refine h.concat rfl rfl ?_
      rw [hrcs, hrs]
      exact ⟨rfl, [], List.nodup_nil, by simp [hseen], rfl⟩
  | @observe k mark hphase hnew =>
      rw [Present, hphase] at hpresent
      obtain ⟨hrcs, marks, honce, hmarks, hrs⟩ := hpresent
      refine h.concat rfl rfl ?_
      rw [hrcs, hrs, Present, hphase]
      have hnotin : mark ∉ marks := by
        rw [hmarks, hnew]
        exact Bool.false_ne_true
      refine ⟨rfl, marks ++ [mark], ?_, fun other => ?_, ?_⟩
      · exact List.nodup_append.mpr ⟨honce, List.nodup_singleton mark, by
          intro x hx y hy heq
          exact hnotin (List.mem_singleton.mp hy ▸ heq ▸ hx)⟩
      · by_cases hother : other = mark
        · simp [hother]
        · simp [hother, hmarks]
      · simp [Stamp.history, Life.stamp, Access.record?]
  | confirm hphase =>
      rw [Present, hphase] at hpresent
      obtain ⟨hrcs, marks, honce, -, hrs⟩ := hpresent
      refine h.concat rfl rfl ?_
      rw [hrcs, hrs]
      exact ⟨rfl, marks, honce, rfl⟩
  | giveUp hphase =>
      rw [Present, hphase] at hpresent
      obtain ⟨rc, hrc, hrcs, hrs⟩ := hpresent
      refine h.quiet rfl rfl rfl rfl ?_
      rw [hrcs, hrs]
      exact .failed _ rc hrc
  | release hphase =>
      rw [Present, hphase] at hpresent
      obtain ⟨hrcs, marks, honce, hrs⟩ := hpresent
      refine h.quiet rfl rfl rfl rfl ?_
      rw [hrcs, hrs]
      exact .confirmed _ (l.stamp id) marks rfl rfl honce

/-- The accesses of every life are those of its generations. -/
theorem chronicle_lived (h : Lived id as l) : Chronicle id as l := by
  refine Run.history (Chronicle id) (chronicle_init id) ?_ h
  intro as t a t' ht hstep
  exact chronicle_step ht hstep

end

/-! ### Submissions and confirmations -/

/-- The record of a submission. -/
def Access.isSubmitted : Access → Bool
  | submitted _ _ => true
  | _             => false

/-- The record of a confirmation. -/
def Access.isConfirmed : Access → Bool
  | confirmed _ => true
  | _           => false

section
variable {id : UInt32} {as : List Access} {a : Access} {l l' : Life}

/-- One step keeps the account of submissions and confirmations. -/
theorem live_step (hs : l.step id a = some l') :
    (if l.phase.live then 1 else 0) + [a].countP Access.isSubmitted
      = (if l'.phase.live then 1 else 0) + [a].countP Access.isConfirmed := by
  cases Life.step_cases hs with
  | number hphase | submit hphase | confirm hphase | reserve hphase | fill hphase
  | enqueue hphase | refuse hphase | publish hphase | acquire hphase | load hphase | query hphase
  | observe hphase | withdraw hphase | giveUp hphase | release hphase =>
      simp [hphase, Phase.live, Access.isSubmitted, Access.isConfirmed]

/-- A slot with a submission on record that is not confirmed is one submission ahead. -/
theorem submitted_count (h : Lived id as l) :
    as.countP Access.isSubmitted
      = as.countP Access.isConfirmed + if l.phase.live then 1 else 0 := by
  refine Run.history (fun as l => as.countP Access.isSubmitted
    = as.countP Access.isConfirmed + if l.phase.live then 1 else 0) rfl ?_ h
  intro as t a t' hbefore hs
  have hstep := live_step hs
  rw [List.countP_append, List.countP_append]
  omega

/-- A step from a live phase confirms, or keeps the phase live and the stamp. -/
theorem live_step_cases (hs : l.step id a = some l') (hlive : l.phase.live) :
    a = .confirmed (l.stamp id) ∨ l'.phase.live ∧ l'.stamp id = l.stamp id := by
  cases Life.step_cases hs with
  | confirm => exact Or.inl rfl
  | publish | acquire | withdraw => exact Or.inr ⟨rfl, rfl⟩
  | load | query | observe => exact Or.inr ⟨hlive, rfl⟩
  | reserve hphase | number hphase | fill hphase | enqueue hphase | refuse hphase | submit hphase
  | giveUp hphase | release hphase =>
      rw [hphase] at hlive
      cases hlive

/-- While the submission is on record and no confirmation comes, it stays so. -/
theorem live_until_confirmed {mid : List Access} (h : Run (Life.step id) l mid l')
    (hlive : l.phase.live) :
    .confirmed (l.stamp id) ∈ mid ∨ l'.phase.live ∧ l'.stamp id = l.stamp id := by
  induction mid generalizing l with
  | nil =>
      obtain rfl := Run.nil_iff.mp h
      exact Or.inr ⟨hlive, rfl⟩
  | cons a mid ih =>
      obtain ⟨t, ht, hrest⟩ := Run.cons_iff.mp h
      -- The access confirms the submission, or it is still alive.
      rcases live_step_cases ht hlive with rfl | ⟨hlive', hstamp⟩
      · exact Or.inl List.mem_cons_self
      · rcases ih hrest hlive' with hmem | hend
        · exact Or.inl (List.mem_cons_of_mem _ (hstamp ▸ hmem))
        · exact Or.inr ⟨hend.1, hend.2.trans hstamp⟩

/-- A submission is recorded with the stamp of the slot. -/
theorem step_submitted {k : Nat} {stamp : Stamp} (hs : l.step id (.submitted k stamp) = some l') :
    l'.phase = .submitted k ∧ l'.stamp id = stamp := by
  cases Life.step_cases hs
  exact ⟨rfl, rfl⟩

/-- Only a slot that is filled in is enqueued. -/
theorem step_enqueue {k : Nat} {rc : Int} (hs : l.step id (.enqueue k rc) = some l') :
    l.phase = .filled k := by
  cases Life.step_cases hs with
  | enqueue hphase | refuse hphase => exact hphase

/-- **Nothing is enqueued between a submission and its confirmation.** -/
theorem confirmed_between {pre mid post : List Access} {k j : Nat} {stamp : Stamp} {rc : Int}
    (h : Lived id (pre ++ .submitted k stamp :: (mid ++ .enqueue j rc :: post)) l) :
    .confirmed stamp ∈ mid := by
  obtain ⟨l₁, -, h₁⟩ := Run.append_iff.mp h
  obtain ⟨l₂, hsubmit, h₂⟩ := Run.cons_iff.mp h₁
  obtain ⟨l₃, hmid, h₃⟩ := Run.append_iff.mp h₂
  obtain ⟨l₄, henqueue, -⟩ := Run.cons_iff.mp h₃
  obtain ⟨hsubmitted, hstamp⟩ := step_submitted hsubmit
  have hlive : l₂.phase.live := by rw [hsubmitted]; rfl
  rcases live_until_confirmed hmid hlive with hmem | ⟨hlive', -⟩
  · exact hstamp ▸ hmem
  · -- A marker is enqueued only in a slot that is not alive.
    rw [step_enqueue henqueue] at hlive'
    cases hlive'

end

end HangAnalyzer.Checkpoint
