import Mathlib.Logic.Function.Basic

/-!
# `HangAnalyzer.Lib.SharedCounter`: a counter without atomic increments

Threads add one to a shared counter in two steps: a thread loads the value, and
then stores the value plus one. Two threads that do so at once lose an addition.

`Exact` holds as long as every store is made while no other thread holds a loaded
value. A store made while another thread holds one makes the counter `Doomed`:
that thread holds a value that is out of date, and once it has stored too, the
counter stays behind for good. So a counter that nobody is adding to is right
exactly when no two additions overlapped (`Doomed.value_ne`).
-/

set_option autoImplicit false

namespace HangAnalyzer.Lib

/-- A counter, the values that threads have loaded from it, and the number of
additions made. -/
structure Counter (ι : Type) where
  value : Nat
  held : ι → Option Nat
  added : Nat

namespace Counter

variable {ι : Type}

/-- The counter before any addition. -/
def zero : Counter ι := ⟨0, fun _ => none, 0⟩

/-- Nobody holds a loaded value. -/
def Idle (c : Counter ι) : Prop := ∀ t, c.held t = none

/-- No thread but `t` holds a loaded value. -/
def Alone (c : Counter ι) (t : ι) : Prop := ∀ u, u ≠ t → c.held u = none

/-- The counter is right, and so are the values held. -/
structure Exact (c : Counter ι) : Prop where
  value : c.value = c.added
  held : ∀ t v, c.held t = some v → v = c.added

/-- The counter is not ahead, and neither are the values held. -/
structure Behind (c : Counter ι) : Prop where
  value : c.value ≤ c.added
  held : ∀ t v, c.held t = some v → v ≤ c.added

/-- A thread holds a value that is out of date, or the counter and all the values
held are too small. -/
def Doomed (c : Counter ι) : Prop :=
  (∃ t v, c.held t = some v ∧ v < c.added) ∨
    (c.value < c.added ∧ ∀ t v, c.held t = some v → v < c.added)

/-- The counter is right at the start. -/
theorem exact_zero : (zero : Counter ι).Exact := ⟨rfl, by simp [zero]⟩

/-- The counter is not ahead at the start. -/
theorem behind_zero : (zero : Counter ι).Behind := ⟨Nat.le_refl _, by simp [zero]⟩

/-- A doomed counter that nobody is adding to is too small. -/
theorem Doomed.value_ne {c : Counter ι} (h : c.Doomed) (hidle : c.Idle) : c.value ≠ c.added := by
  rcases h with ⟨t, v, ht, -⟩ | ⟨hlt, -⟩
  · rw [hidle t] at ht
    cases ht
  · exact Nat.ne_of_lt hlt

variable [DecidableEq ι]

/-- Thread `t` loads the counter. -/
def load (c : Counter ι) (t : ι) : Counter ι :=
  { c with held := Function.update c.held t (some c.value) }

/-- Thread `t` stores the value it has loaded, plus one. -/
def store (c : Counter ι) (t : ι) : Counter ι :=
  match c.held t with
  | none   => c
  | some v => ⟨v + 1, Function.update c.held t none, c.added + 1⟩

variable {c : Counter ι} {t : ι} {v : Nat}

/-- What is held after a load. -/
theorem held_load {u : ι} {w : Nat} (h : (c.load t).held u = some w) :
    w = c.value ∨ c.held u = some w := by
  simp only [load, Function.update_apply] at h
  split at h
  · exact Or.inl (Option.some.inj h).symm
  · exact Or.inr h

/-- What is held after a store was held before it. -/
theorem held_store (ht : c.held t = some v) {u : ι} {w : Nat}
    (h : (c.store t).held u = some w) : u ≠ t ∧ c.held u = some w := by
  simp only [store, ht, Function.update_apply] at h
  split at h
  · cases h
  · rename_i hne
    exact ⟨hne, h⟩

/-- After a load the thread holds a value, and so do those that did. -/
theorem held_load_ne_none {u : ι} :
    (c.load t).held u ≠ none ↔ u = t ∨ c.held u ≠ none := by
  simp only [load, Function.update_apply]
  split
  · rename_i heq
    simp [heq]
  · rename_i hne
    simp [hne]

/-- After a store the thread holds nothing, and the others hold what they did. -/
theorem held_store_ne_none (ht : c.held t ≠ none) {u : ι} :
    (c.store t).held u ≠ none ↔ u ≠ t ∧ c.held u ≠ none := by
  obtain ⟨v, hv⟩ := Option.ne_none_iff_exists'.mp ht
  simp only [store, hv, Function.update_apply]
  split
  · rename_i heq
    simp [heq]
  · rename_i hne
    simp [hne]

/-- A store writes one more than the value held. -/
theorem value_store (ht : c.held t = some v) : (c.store t).value = v + 1 := by
  simp only [store, ht]

/-- A store makes an addition. -/
theorem added_store (ht : c.held t = some v) : (c.store t).added = c.added + 1 := by
  simp only [store, ht]

/-! ### One step -/

/-- The value that is loaded from an exact counter is right. -/
theorem Exact.load (h : c.Exact) : (c.load t).Exact where
  value := h.value
  held u w hw := by
    rcases held_load hw with rfl | hw
    · exact h.value
    · exact h.held u w hw

/-- A thread that is alone stores the right value. -/
theorem Exact.store (h : c.Exact) (ht : c.held t = some v) (halone : c.Alone t) :
    (c.store t).Exact where
  value := by rw [value_store ht, added_store ht, h.held t v ht]
  held u w hw := by
    obtain ⟨hne, hw⟩ := held_store ht hw
    rw [halone u hne] at hw
    cases hw

/-- The value that is loaded is not ahead. -/
theorem Behind.load (h : c.Behind) : (c.load t).Behind where
  value := h.value
  held u w hw := by
    rcases held_load hw with rfl | hw
    · exact h.value
    · exact h.held u w hw

/-- No store puts the counter ahead. -/
theorem Behind.store (h : c.Behind) (ht : c.held t = some v) : (c.store t).Behind where
  value := by
    rw [value_store ht, added_store ht]
    exact Nat.succ_le_succ (h.held t v ht)
  held u w hw := by
    rw [added_store ht]
    exact Nat.le_succ_of_le (h.held u w (held_store ht hw).2)

/-- A store while another thread holds a value dooms the counter. -/
theorem Behind.doomed_store (h : c.Behind) (ht : c.held t = some v) (hnot : ¬ c.Alone t) :
    (c.store t).Doomed := by
  obtain ⟨u, hne, hu⟩ : ∃ u, u ≠ t ∧ c.held u ≠ none := by
    by_contra hall
    exact hnot fun u hne => by_contra fun hu => hall ⟨u, hne, hu⟩
  obtain ⟨w, hw⟩ := Option.ne_none_iff_exists'.mp hu
  refine Or.inl ⟨u, w, ?_, ?_⟩
  · simp only [Counter.store, ht]
    rw [Function.update_of_ne hne, hw]
  · rw [added_store ht]
    exact Nat.lt_succ_of_le (h.held u w hw)

/-- A thread that loads holds nothing yet. -/
theorem Doomed.load (h : c.Doomed) (ht : c.held t = none) : (c.load t).Doomed := by
  rcases h with ⟨u, w, hw, hlt⟩ | ⟨hlt, hall⟩
  · refine Or.inl ⟨u, w, ?_, hlt⟩
    have hne : u ≠ t := by
      rintro rfl
      rw [ht] at hw
      cases hw
    simp only [Counter.load]
    rw [Function.update_of_ne hne, hw]
  · refine Or.inr ⟨hlt, fun u w hw => ?_⟩
    rcases held_load hw with rfl | hw
    · exact hlt
    · exact hall u w hw

/-- A doomed counter stays doomed, whoever stores. -/
theorem Doomed.store (h : c.Doomed) (hbehind : c.Behind) (ht : c.held t = some v) :
    (c.store t).Doomed := by
  by_cases hout : v < c.added
  · -- The thread stores a value that is out of date.
    refine Or.inr ⟨?_, fun u w hw => ?_⟩
    · rw [value_store ht, added_store ht]
      exact Nat.succ_lt_succ hout
    · rw [added_store ht]
      exact Nat.lt_succ_of_le (hbehind.held u w (held_store ht hw).2)
  · -- Somebody else holds one.
    rcases h with ⟨u, w, hw, hlt⟩ | ⟨-, hall⟩
    · have hne : u ≠ t := by
        rintro rfl
        exact hout (Option.some.inj (ht.symm.trans hw) ▸ hlt)
      refine Or.inl ⟨u, w, ?_, ?_⟩
      · simp only [Counter.store, ht]
        rw [Function.update_of_ne hne, hw]
      · rw [added_store ht]
        exact Nat.lt_succ_of_lt hlt
    · exact absurd (hall t v ht) hout

end Counter

end HangAnalyzer.Lib
