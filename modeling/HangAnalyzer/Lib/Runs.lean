import Mathlib.Data.List.Induction

/-!
# `HangAnalyzer.Lib.Runs`: runs of a partial step function

A system is a function `step : σ → α → Option σ`: the state after the action,
or `none` when the action is not enabled. A run is a list of actions folded
through `step`, so a run that reaches a state took only enabled actions.

`Run.invariant` packages the induction over a run: what holds at the start and
survives one step holds at the end. `Run.history` is the rule for what is said of the
actions so far, too. `Run.simulates` does the same as `Run.invariant` for two systems that
take the same actions.
-/

set_option autoImplicit false

namespace HangAnalyzer.Lib

variable {σ τ α : Type}

/-- `s'` is the state after the actions `as` from `s`. -/
def Run (step : σ → α → Option σ) (s : σ) (as : List α) (s' : σ) : Prop :=
  as.foldlM step s = some s'

instance [DecidableEq σ] (step : σ → α → Option σ) (s : σ) (as : List α) (s' : σ) :
    Decidable (Run step s as s') :=
  inferInstanceAs (Decidable (_ = _))

namespace Run

variable {step : σ → α → Option σ} {s s' s'' : σ} {a : α} {as bs : List α}

/-- The empty run stays where it is. -/
@[simp] theorem nil_iff : Run step s [] s' ↔ s = s' := by
  simp [Run]

/-- A run is its first step and the rest. -/
theorem cons_iff : Run step s (a :: as) s' ↔ ∃ t, step s a = some t ∧ Run step t as s' := by
  simp [Run, List.foldlM_cons, Option.bind_eq_some_iff]

/-- A run can be cut in two. -/
theorem append_iff :
    Run step s (as ++ bs) s' ↔ ∃ t, Run step s as t ∧ Run step t bs s' := by
  simp [Run, List.foldlM_append, Option.bind_eq_some_iff]

/-- The last action of a run. -/
theorem concat_iff :
    Run step s (as ++ [a]) s' ↔ ∃ t, Run step s as t ∧ step t a = some s' := by
  simp [append_iff, cons_iff]

/-- Two runs make one. -/
theorem append (h : Run step s as s') (h' : Run step s' bs s'') :
    Run step s (as ++ bs) s'' :=
  append_iff.mpr ⟨s', h, h'⟩

/-- A step is a run. -/
theorem single (h : step s a = some s') : Run step s [a] s' :=
  cons_iff.mpr ⟨s', h, nil_iff.mpr rfl⟩

/-- Two runs of the same actions from one state end in one state. -/
theorem deterministic (h : Run step s as s') (h' : Run step s as s'') : s' = s'' :=
  Option.some.inj (h.symm.trans h')

/-- What every enabled action preserves holds after every run. -/
theorem invariant (P : σ → Prop)
    (hstep : ∀ s a s', P s → step s a = some s' → P s')
    (h : Run step s as s') (hs : P s) : P s' := by
  induction as generalizing s with
  | nil => exact nil_iff.mp h ▸ hs
  | cons a as ih =>
      obtain ⟨t, ht, hrest⟩ := cons_iff.mp h
      exact ih hrest (hstep s a t hs ht)

/-- What holds of no actions and the start, and of one action more whenever it held before
it, holds of the actions of every run and its end. -/
theorem history (R : List α → σ → Prop) (hnil : R [] s)
    (hstep : ∀ as t a t', R as t → step t a = some t' → R (as ++ [a]) t')
    (h : Run step s as s') : R as s' := by
  induction as using List.reverseRecOn generalizing s' with
  | nil => exact nil_iff.mp h ▸ hnil
  | append_singleton as a ih =>
      obtain ⟨t, ht, hlast⟩ := concat_iff.mp h
      exact hstep as t a s' (ih ht) hlast

/-- If every action of the first system can be matched by the second, so can
every run, and the relation holds between the two ends. -/
theorem simulates {step' : τ → α → Option τ} (R : σ → τ → Prop)
    (hstep : ∀ s t a s', R s t → step s a = some s' → ∃ t', step' t a = some t' ∧ R s' t')
    {t : τ} (h : Run step s as s') (hs : R s t) : ∃ t', Run step' t as t' ∧ R s' t' := by
  induction as generalizing s t with
  | nil => exact ⟨t, nil_iff.mpr rfl, nil_iff.mp h ▸ hs⟩
  | cons a as ih =>
      obtain ⟨u, hu, hrest⟩ := cons_iff.mp h
      obtain ⟨v, hv, hR⟩ := hstep s t a u hs hu
      obtain ⟨t', ht', hR'⟩ := ih hrest hR
      exact ⟨t', cons_iff.mpr ⟨v, hv, ht'⟩, hR'⟩

/-- Every step of the run with these actions has the property `P`. -/
def Along (step : σ → α → Option σ) (P : σ → α → σ → Prop) (s : σ) (as : List α) : Prop :=
  ∀ pre a post t t', as = pre ++ a :: post → Run step s pre t → step t a = some t' → P t a t'

/-- What follows from the steps of a run holds along it. -/
theorem Along.mono {P P' : σ → α → σ → Prop} (h : Along step P s as)
    (himp : ∀ t a t', P t a t' → P' t a t') : Along step P' s as := by
  intro pre a post t t' heq ht ha
  exact himp t a t' (h pre a post t t' heq ht ha)

/-- The empty run has no steps. -/
theorem along_nil {P : σ → α → σ → Prop} : Along step P s [] := by
  intro pre a post t t' heq
  simp at heq

/-- A property of steps that follows from how the run came to the step, and from how it goes
on to its end. -/
theorem along_of_run {P : σ → α → σ → Prop} (h : Run step s as s')
    (hP : ∀ pre t a t' post, Run step s pre t → step t a = some t' → Run step t' post s' →
      P t a t') : Along step P s as := by
  intro pre a post t t' heq hpre ha
  subst heq
  obtain ⟨u, hu, hrest⟩ := append_iff.mp h
  obtain rfl := deterministic hu hpre
  obtain ⟨u', hu', hrest⟩ := cons_iff.mp hrest
  obtain rfl := Option.some.inj (hu'.symm.trans ha)
  exact hP pre _ a _ post hpre ha hrest

/-- The first step of a run, and the rest. -/
theorem along_cons_iff {P : σ → α → σ → Prop} :
    Along step P s (a :: as) ↔ ∀ t, step s a = some t → P s a t ∧ Along step P t as := by
  constructor
  · intro h t ht
    refine ⟨h [] a as s t rfl (nil_iff.mpr rfl) ht, fun pre b post u u' heq hu hb => ?_⟩
    exact h (a :: pre) b post u u' (by rw [heq]; rfl) (cons_iff.mpr ⟨t, ht, hu⟩) hb
  · intro h pre b post u u' heq hu hb
    cases pre with
    | nil =>
        obtain ⟨rfl, rfl⟩ := List.cons.inj heq
        obtain rfl := nil_iff.mp hu
        exact (h u' hb).1
    | cons c pre =>
        obtain ⟨rfl, rfl⟩ := List.cons.inj heq
        obtain ⟨t, ht, hrest⟩ := cons_iff.mp hu
        exact (h t ht).2 pre b post u u' rfl hrest hb

/-- A property of steps that is decidable can be checked along a run. -/
instance decidableAlong {P : σ → α → σ → Prop} [∀ s a s', Decidable (P s a s')] :
    (s : σ) → (as : List α) → Decidable (Along step P s as)
  | _, [] => isTrue along_nil
  | s, a :: as =>
      match h : step s a with
      | none => isTrue (along_cons_iff.mpr fun t ht => by rw [h] at ht; cases ht)
      | some t =>
          have : Decidable (Along step P t as) := decidableAlong t as
          decidable_of_iff (P s a t ∧ Along step P t as) <| by
            rw [along_cons_iff, h]
            exact ⟨fun hP u hu => Option.some.inj hu ▸ hP, fun hall => hall t rfl⟩

/-- A run whose steps have the property, and another one after it. -/
theorem along_append {P : σ → α → σ → Prop} (h : Run step s as s') (hleft : Along step P s as)
    (hright : Along step P s' bs) : Along step P s (as ++ bs) := by
  induction as generalizing s with
  | nil =>
      obtain rfl := nil_iff.mp h
      exact hright
  | cons a as ih =>
      obtain ⟨t, ht, hrest⟩ := cons_iff.mp h
      rw [List.cons_append, along_cons_iff]
      intro t' ht'
      obtain rfl := Option.some.inj (ht.symm.trans ht')
      obtain ⟨hP, hAlong⟩ := along_cons_iff.mp hleft t ht
      exact ⟨hP, ih hrest hAlong⟩

/-- What every enabled action with the property `P` preserves holds after every run
whose steps all have it. -/
theorem invariant_along {P : σ → α → σ → Prop} (I : σ → Prop)
    (hstep : ∀ s a s', I s → step s a = some s' → P s a s' → I s')
    (halong : Along step P s as) (h : Run step s as s') (hs : I s) : I s' := by
  induction as generalizing s with
  | nil => exact nil_iff.mp h ▸ hs
  | cons a as ih =>
      obtain ⟨t, ht, hrest⟩ := cons_iff.mp h
      obtain ⟨hP, hAlong⟩ := along_cons_iff.mp halong t ht
      exact ih hAlong hrest (hstep s a t hs ht hP)

/-- The rule of `history` for a run whose steps all have the property `P`. -/
theorem history_along {P : σ → α → σ → Prop} (R : List α → σ → Prop) (hnil : R [] s)
    (hstep : ∀ as t a t', R as t → step t a = some t' → P t a t' → R (as ++ [a]) t')
    (halong : Along step P s as) (h : Run step s as s') : R as s' := by
  induction as using List.reverseRecOn generalizing s' with
  | nil => exact nil_iff.mp h ▸ hnil
  | append_singleton as a ih =>
      obtain ⟨t, ht, hlast⟩ := concat_iff.mp h
      have hbefore : Along step P s as := by
        intro pre b post u u' heq hu hb
        exact halong pre b (post ++ [a]) u u' (by rw [heq]; simp) hu hb
      exact hstep as t a s' (ih hbefore ht) hlast (halong as a [] t s' rfl ht hlast)

/-- A party whose own steps lower a rank that no other step raises makes at most as many
steps as its rank. -/
theorem countP_add_rank_le {P : σ → α → σ → Prop} (own : α → Bool) (rank : σ → Nat) (I : σ → Prop)
    (hinv : ∀ s a s', I s → step s a = some s' → P s a s' → I s')
    (hlower : ∀ s a s', I s → step s a = some s' → P s a s' →
      rank s' + (if own a then 1 else 0) ≤ rank s)
    (halong : Along step P s as) (h : Run step s as s') (hs : I s) :
    as.countP own + rank s' ≤ rank s := by
  induction as generalizing s with
  | nil =>
      obtain rfl := nil_iff.mp h
      simp
  | cons a as ih =>
      obtain ⟨t, ht, hrest⟩ := cons_iff.mp h
      obtain ⟨hP, hAlong⟩ := along_cons_iff.mp halong t ht
      have hstep := hlower s a t hs ht hP
      have hlater := ih hAlong hrest (hinv s a t hs ht hP)
      rw [List.countP_cons]
      omega

/-- If a step without the property `P` leads to a state from which `B` never ends,
and the run does not end in such a state, then all its steps have the property. -/
theorem along_of_not {P : σ → α → σ → Prop} (I B : σ → Prop)
    (hinv : ∀ s a s', I s → step s a = some s' → I s')
    (hstay : ∀ s a s', I s → B s → step s a = some s' → B s')
    (henter : ∀ s a s', I s → step s a = some s' → ¬ P s a s' → B s')
    (h : Run step s as s') (hs : I s) (hend : ¬ B s') : Along step P s as := by
  refine along_of_run h fun pre t a t' post hpre ha hrest => ?_
  by_contra hP
  have ht : I t := invariant I hinv hpre hs
  have hboth := invariant (fun s => I s ∧ B s)
    (fun s a s' hs hstep => ⟨hinv s a s' hs.1 hstep, hstay s a s' hs.1 hs.2 hstep⟩) hrest
    ⟨hinv _ _ _ ht ha, henter _ _ _ ht ha hP⟩
  exact hend hboth.2

end Run

end HangAnalyzer.Lib
