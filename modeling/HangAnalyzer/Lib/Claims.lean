import Mathlib.Data.List.Nodup
import Mathlib.Data.List.Perm.Subperm

/-!
# `HangAnalyzer.Lib.Claims`: resources that are taken and given back

A pool marks a resource while somebody has it, and a resource that was given back can be
taken again. `Exact` says that the marks are right: nobody else has what somebody has, and
a resource is marked if and only if somebody has it. It survives a resource that is taken,
one that is given back, and one that goes from one hand to another (`Exact.take`,
`Exact.give`, `Exact.perm`).

The hands are often spread over the parties of a system, each of which has one resource or
none. `perm_filterMap_set` says what the hands are after one party has gone on.
-/

set_option autoImplicit false

namespace HangAnalyzer.Lib.Claims

variable {ρ : Type}

/-- The marked resources are those in the hands, and no resource is in two hands. -/
structure Exact (taken : ρ → Prop) (hands : List ρ) : Prop where
  nodup : hands.Nodup
  taken_iff : ∀ r, taken r ↔ r ∈ hands

section
variable {taken taken' : ρ → Prop} {hands hands' pool : List ρ} {r : ρ}

/-- Nothing is taken. -/
theorem exact_nil (h : ∀ r, ¬ taken r) : Exact taken [] where
  nodup := List.nodup_nil
  taken_iff r := iff_of_false (h r) List.not_mem_nil

/-- A resource goes from one hand to another. -/
theorem Exact.perm (h : Exact taken hands) (hperm : hands.Perm hands') : Exact taken hands' where
  nodup := hperm.nodup_iff.mp h.nodup
  taken_iff r := (h.taken_iff r).trans hperm.mem_iff

/-- A resource that is not marked is taken. -/
theorem Exact.take (h : Exact taken hands) (hfree : ¬ taken r)
    (htaken : ∀ x, taken' x ↔ taken x ∨ x = r) : Exact taken' (hands ++ [r]) where
  nodup := by
    have hnew : r ∉ hands := fun hmem => hfree ((h.taken_iff r).mpr hmem)
    rw [List.nodup_append]
    exact ⟨h.nodup, List.nodup_singleton r, fun x hx y hy heq =>
      hnew (List.mem_singleton.mp hy ▸ heq ▸ hx)⟩
  taken_iff x := by
    rw [htaken, h.taken_iff, List.mem_append, List.mem_singleton]

/-- A resource is given back. -/
theorem Exact.give (h : Exact taken (hands ++ [r])) (htaken : ∀ x, taken' x ↔ taken x ∧ x ≠ r) :
    Exact taken' hands where
  nodup := (List.nodup_append.mp h.nodup).1
  taken_iff x := by
    have hnot : r ∉ hands := fun hmem =>
      (List.nodup_append.mp h.nodup).2.2 r hmem r (List.mem_singleton_self r) rfl
    rw [htaken, h.taken_iff, List.mem_append, List.mem_singleton]
    constructor
    · rintro ⟨hmem | rfl, hne⟩
      · exact hmem
      · exact absurd rfl hne
    · exact fun hmem => ⟨.inl hmem, fun heq => hnot (heq ▸ hmem)⟩

/-- There are at most as many hands as resources. -/
theorem Exact.length_le (h : Exact taken hands) (hpool : ∀ r, taken r → r ∈ pool) :
    hands.length ≤ pool.length :=
  (h.nodup.subperm fun r hr => hpool r ((h.taken_iff r).mpr hr)).length_le

end

/-! ### Marks in a list of flags -/

/-- The flag at the position of a resource is set. -/
def Marked (pool : List ρ) (flags : List Bool) (r : ρ) : Prop :=
  ∃ i : Nat, pool[i]? = some r ∧ flags[i]? = some true

section
variable {pool : List ρ} {flags : List Bool} {i : Nat} {r : ρ}

/-- A flag that is set marks its resource. -/
theorem marked_set_true (hr : pool[i]? = some r) (hi : i < flags.length) (x : ρ) :
    Marked pool (flags.set i true) x ↔ Marked pool flags x ∨ x = r := by
  constructor
  · rintro ⟨j, hx, hj⟩
    by_cases hij : i = j
    · subst hij
      exact .inr (Option.some.inj (hx.symm.trans hr))
    · rw [List.getElem?_set_ne hij] at hj
      exact .inl ⟨j, hx, hj⟩
  · rintro (⟨j, hx, hj⟩ | rfl)
    · refine ⟨j, hx, ?_⟩
      by_cases hij : i = j
      · subst hij
        exact List.getElem?_set_self hi
      · rw [List.getElem?_set_ne hij, hj]
    · exact ⟨i, hr, List.getElem?_set_self hi⟩

/-- A flag that is cleared unmarks its resource, and no other when the pool has each once. -/
theorem marked_set_false (hpool : pool.Nodup) (hr : pool[i]? = some r) (x : ρ) :
    Marked pool (flags.set i false) x ↔ Marked pool flags x ∧ x ≠ r := by
  constructor
  · rintro ⟨j, hx, hj⟩
    have hij : i ≠ j := by
      rintro rfl
      simp only [List.getElem?_set, if_true] at hj
      split at hj <;> simp at hj
    rw [List.getElem?_set_ne hij] at hj
    refine ⟨⟨j, hx, hj⟩, fun heq => hij ?_⟩
    have hlt := (List.getElem?_eq_some_iff.mp hr).1
    exact (List.getElem?_inj hlt hpool).mp (hr.trans (heq ▸ hx.symm))
  · rintro ⟨⟨j, hx, hj⟩, hne⟩
    have hij : i ≠ j := by
      rintro rfl
      exact hne (Option.some.inj (hx.symm.trans hr))
    exact ⟨j, hx, by rw [List.getElem?_set_ne hij, hj]⟩

/-- A resource whose flag is clear is not marked. -/
theorem not_marked (hpool : pool.Nodup) (hr : pool[i]? = some r) (hi : flags[i]? = some false) :
    ¬ Marked pool flags r := by
  rintro ⟨j, hx, hj⟩
  have hlt := (List.getElem?_eq_some_iff.mp hr).1
  obtain rfl := (List.getElem?_inj hlt hpool).mp (hr.trans hx.symm)
  simp [hi] at hj

/-- Only resources of the pool are marked. -/
theorem Marked.mem (h : Marked pool flags r) : r ∈ pool := by
  obtain ⟨i, hr, -⟩ := h
  exact List.mem_of_getElem? hr

/-- Clear flags mark nothing. -/
theorem not_marked_replicate (n : Nat) : ¬ Marked pool (List.replicate n false) r := by
  rintro ⟨i, -, hi⟩
  simp [List.getElem?_replicate] at hi

end

/-! ### The hands of many parties -/

section
variable {α β : Type} {f : α → Option β} {l : List α} {k : Nat} {x : α}

/-- What the others have, when party `k` is left out. -/
theorem perm_filterMap_eraseIdx (h : l[k]? = some x) :
    (l.filterMap f).Perm ((l.eraseIdx k).filterMap f ++ (f x).toList) := by
  obtain ⟨hlt, rfl⟩ := List.getElem?_eq_some_iff.mp h
  have hperm := (List.getElem_cons_eraseIdx_perm hlt).symm.filterMap f
  refine hperm.trans ?_
  cases hx : f l[k] with
  | none => simp [List.filterMap_cons_none hx]
  | some b =>
      rw [List.filterMap_cons_some hx]
      exact (List.perm_append_singleton b _).symm

/-- Party `k` goes on: what it had is replaced by what it has. -/
theorem perm_filterMap_set (h : l[k]? = some x) (y : α) :
    ((l.set k y).filterMap f ++ (f x).toList).Perm (l.filterMap f ++ (f y).toList) := by
  have hlt := (List.getElem?_eq_some_iff.mp h).1
  have hset : (l.set k y)[k]? = some y := List.getElem?_set_self hlt
  have hafter := perm_filterMap_eraseIdx (f := f) hset
  rw [List.eraseIdx_set_eq] at hafter
  have hbefore := perm_filterMap_eraseIdx (f := f) h
  -- Both sides are what the others have, and what the party had and has.
  refine (hafter.append_right _).trans (.trans ?_ (hbefore.append_right _).symm)
  rw [List.append_assoc, List.append_assoc]
  exact List.perm_append_comm.append_left _

end

end HangAnalyzer.Lib.Claims
