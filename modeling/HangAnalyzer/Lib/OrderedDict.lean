import Mathlib.Data.List.Induction
import Mathlib.Data.List.Nodup

/-!
# `HangAnalyzer.Lib.OrderedDict`: dictionaries with insertion order

`Dict κ α` is a dictionary that iterates over its keys in the order of their
first assignment, as a Python `dict` does. A new assignment to a present key
keeps its place. No key occurs twice, and the type carries the proof.

`get?_set` and `get?_pop` are the two laws the other facts rest on. `mem_items`
connects the iteration with the lookup.
-/

set_option autoImplicit false

namespace HangAnalyzer.Lib

/-- A dictionary: its items in insertion order. -/
structure Dict (κ α : Type) where
  items : List (κ × α)
  nodup : (items.map Prod.fst).Nodup

namespace Dict

variable {κ α : Type}

/-- The dictionary without items. -/
def empty : Dict κ α := ⟨[], List.nodup_nil⟩

instance : Inhabited (Dict κ α) := ⟨empty⟩

/-- The keys, in insertion order. -/
def keys (d : Dict κ α) : List κ := d.items.map Prod.fst

/-- The values, in insertion order of their keys. -/
def values (d : Dict κ α) : List α := d.items.map Prod.snd

variable [DecidableEq κ]

/-- `d.get(k)`. -/
def get? (d : Dict κ α) (k : κ) : Option α :=
  (d.items.find? fun p => p.1 = k).map Prod.snd

/-- Replace the value of a present key. -/
def replace (k : κ) (v : α) (items : List (κ × α)) : List (κ × α) :=
  items.map fun p => if p.1 = k then (k, v) else p

/-- A replacement keeps the keys and their order. -/
theorem map_fst_replace (k : κ) (v : α) (items : List (κ × α)) :
    (replace k v items).map Prod.fst = items.map Prod.fst := by
  rw [replace, List.map_map]
  refine List.map_congr_left fun p _ => ?_
  by_cases hp : p.1 = k <;> simp [hp]

omit [DecidableEq κ] in
/-- A new key at the end leaves the keys distinct. -/
theorem nodup_concat {k : κ} (v : α) {items : List (κ × α)} (hnodup : (items.map Prod.fst).Nodup)
    (h : k ∉ items.map Prod.fst) : ((items ++ [(k, v)]).map Prod.fst).Nodup := by
  rw [List.map_append, List.map_cons, List.map_nil, List.nodup_append]
  refine ⟨hnodup, List.nodup_singleton _, fun a ha b hb hab => ?_⟩
  rw [List.mem_singleton] at hb
  rw [hab, hb] at ha
  exact h ha

/-- `d[k] = v`. -/
def set (d : Dict κ α) (k : κ) (v : α) : Dict κ α :=
  if h : k ∈ d.keys then
    ⟨replace k v d.items, by rw [map_fst_replace]; exact d.nodup⟩
  else
    ⟨d.items ++ [(k, v)], nodup_concat v d.nodup h⟩

/-- `d.pop(k, None)`. -/
def pop (d : Dict κ α) (k : κ) : Dict κ α :=
  ⟨d.items.filter fun p => p.1 ≠ k, d.nodup.sublist (List.filter_sublist.map _)⟩

/-- `d[k] = f(d[k])`, where a missing key starts from `init`, as with a
`defaultdict`. -/
def update (d : Dict κ α) (k : κ) (init : α) (f : α → α) : Dict κ α :=
  d.set k (f ((d.get? k).getD init))

/-! ### Lookup -/

/-- The empty dictionary has no entry. -/
@[simp] theorem get?_empty (k : κ) : (empty : Dict κ α).get? k = none := rfl

/-- The items are the pairs the lookup finds. -/
theorem mem_items {d : Dict κ α} {k : κ} {v : α} : (k, v) ∈ d.items ↔ d.get? k = some v := by
  obtain ⟨items, hnodup⟩ := d
  induction items with
  | nil => simp [get?]
  | cons p items ih =>
      rw [List.map_cons, List.nodup_cons] at hnodup
      have hget := ih hnodup.2
      simp only [get?] at hget ⊢
      -- The keys are distinct, so the first entry with the key is the only one.
      by_cases hp : p.1 = k
      · rw [List.find?_cons_of_pos (by simpa using hp), List.mem_cons]
        constructor
        · rintro (rfl | hmem)
          · rfl
          · exact absurd (List.mem_map.mpr ⟨_, hmem, hp.symm⟩) hnodup.1
        · intro heq
          rw [Option.map_some, Option.some.injEq] at heq
          exact Or.inl (by rw [← heq, ← hp])
      · rw [List.find?_cons_of_neg (by simpa using hp), List.mem_cons, ← hget]
        constructor
        · rintro (rfl | hmem)
          · exact absurd rfl hp
          · exact hmem
        · exact Or.inr

/-- The keys are those that have a value. -/
theorem mem_keys {d : Dict κ α} {k : κ} : k ∈ d.keys ↔ ∃ v, d.get? k = some v := by
  simp only [keys, List.mem_map, ← mem_items]
  constructor
  · rintro ⟨⟨k', v⟩, hmem, rfl⟩
    exact ⟨v, hmem⟩
  · rintro ⟨v, hmem⟩
    exact ⟨(k, v), hmem, rfl⟩

/-- The values are those that have a key. -/
theorem mem_values {d : Dict κ α} {v : α} : v ∈ d.values ↔ ∃ k, d.get? k = some v := by
  simp only [values, List.mem_map, ← mem_items]
  constructor
  · rintro ⟨⟨k, v'⟩, hmem, rfl⟩
    exact ⟨k, hmem⟩
  · rintro ⟨k, hmem⟩
    exact ⟨(k, v), hmem, rfl⟩

/-- The replaced entry has the new value. -/
theorem find?_replace_self {k : κ} (v : α) {items : List (κ × α)}
    (h : k ∈ items.map Prod.fst) :
    ((replace k v items).find? fun p => p.1 = k).map Prod.snd = some v := by
  induction items with
  | nil => simp at h
  | cons p items ih =>
      by_cases hp : p.1 = k
      · simp [replace, hp]
      · rw [List.map_cons, List.mem_cons] at h
        have hrest := ih (h.resolve_left fun e => hp e.symm)
        simp only [replace, List.map_cons, hp, if_false] at hrest ⊢
        rw [List.find?_cons_of_neg (by simpa using hp)]
        exact hrest

/-- The entries of other keys are not replaced. -/
theorem find?_replace_of_ne {k k' : κ} (v : α) (items : List (κ × α)) (h : k' ≠ k) :
    (replace k v items).find? (fun p => p.1 = k') = items.find? fun p => p.1 = k' := by
  induction items with
  | nil => rfl
  | cons p items ih =>
      simp only [replace, List.map_cons] at ih ⊢
      by_cases hp : p.1 = k
      · have hp' : ¬ p.1 = k' := fun e => h (e.symm.trans hp)
        rw [if_pos hp, List.find?_cons_of_neg (by simpa using Ne.symm h),
          List.find?_cons_of_neg (by simpa using hp')]
        exact ih
      · rw [if_neg hp]
        by_cases hp' : p.1 = k'
        · rw [List.find?_cons_of_pos (by simpa using hp'),
            List.find?_cons_of_pos (by simpa using hp')]
        · rw [List.find?_cons_of_neg (by simpa using hp'),
            List.find?_cons_of_neg (by simpa using hp')]
          exact ih

/-- The lookup after an assignment. -/
theorem get?_set (d : Dict κ α) (k : κ) (v : α) (k' : κ) :
    (d.set k v).get? k' = if k' = k then some v else d.get? k' := by
  unfold set
  split
  · -- The key is there, and its entry is replaced where it stands.
    rename_i hmem
    by_cases hk : k' = k
    · subst hk
      rw [if_pos rfl, get?]
      exact find?_replace_self v hmem
    · rw [if_neg hk, get?, get?, find?_replace_of_ne v d.items hk]
  · -- The key is new, and its entry is the last one.
    rename_i hmem
    simp only [get?, List.find?_append]
    by_cases hk : k' = k
    · subst hk
      have hnone : (d.items.find? fun p => p.1 = k') = none := by
        rw [List.find?_eq_none]
        intro p hp hpk
        exact hmem (List.mem_map.mpr ⟨p, hp, by simpa using hpk⟩)
      simp [hnone]
    · have hlast : [(k, v)].find? (fun p => p.1 = k') = none := by
        simpa using Ne.symm hk
      rw [hlast, Option.or_none, if_neg hk]

/-- The value that was set is found. -/
theorem get?_set_self (d : Dict κ α) (k : κ) (v : α) : (d.set k v).get? k = some v := by
  rw [get?_set, if_pos rfl]

/-- The values of other keys are not changed. -/
theorem get?_set_of_ne (d : Dict κ α) (v : α) {k k' : κ} (h : k' ≠ k) :
    (d.set k v).get? k' = d.get? k' := by
  rw [get?_set, if_neg h]

/-- The lookup after a removal. -/
theorem get?_pop (d : Dict κ α) (k k' : κ) :
    (d.pop k).get? k' = if k' = k then none else d.get? k' := by
  refine Option.ext fun v => ?_
  rw [← mem_items]
  by_cases hk : k' = k
  · simp [pop, hk]
  · rw [if_neg hk, ← mem_items]
    simp [pop, hk]

/-- An update changes the value of its key, or the initial value when there was none. -/
theorem get?_update (d : Dict κ α) (k : κ) (init : α) (f : α → α) (k' : κ) :
    (d.update k init f).get? k'
      = if k' = k then some (f ((d.get? k).getD init)) else d.get? k' :=
  get?_set d k _ k'

/-- A fold of assignments holds the last value of each key. -/
theorem get?_foldl_set (f : α → κ) (l : List α) (k : κ) :
    (l.foldl (fun d a => d.set (f a) a) empty).get? k = l.reverse.find? fun a => f a = k := by
  induction l using List.reverseRecOn with
  | nil => rfl
  | append_singleton l a ih =>
      rw [List.foldl_concat, get?_set, List.reverse_concat, List.find?_cons, ih]
      by_cases hk : f a = k
      · rw [if_pos hk.symm]
        simp [hk]
      · rw [if_neg (Ne.symm hk)]
        simp [hk]

/-- A fold that collects the values of each key holds the values of the key in
order, and no key without values. -/
theorem get?_foldl_collect (f : α → κ) (l : List α) (k : κ) :
    (l.foldl (fun d a => d.update (f a) [] fun values => values ++ [a]) empty).get? k
      = if (l.filter fun a => f a = k) = [] then none else some (l.filter fun a => f a = k) := by
  induction l using List.reverseRecOn with
  | nil => rfl
  | append_singleton l a ih =>
      rw [List.foldl_concat, get?_update, List.filter_append]
      by_cases hk : f a = k
      · rw [if_pos hk.symm, hk, ih]
        by_cases hnil : (l.filter fun a => f a = k) = [] <;> simp [hnil, hk]
      · rw [if_neg (Ne.symm hk), ih]
        simp [hk]

/-- The keys after an assignment. -/
theorem keys_set (d : Dict κ α) (k : κ) (v : α) :
    (d.set k v).keys = if k ∈ d.keys then d.keys else d.keys ++ [k] := by
  unfold set
  split
  · exact map_fst_replace k v d.items
  · simp [keys]

/-- What is made from the items can be sorted by key again: a key whose item occurs once
gets back what was made from it. -/
theorem filter_flatMap_items {β : Type} {key : β → κ} {f : κ × α → List β}
    (hkey : ∀ item, ∀ b ∈ f item, key b = item.1) {items : List (κ × α)}
    (hnodup : (items.map Prod.fst).Nodup) {k : κ} {v : α} (h : (k, v) ∈ items) :
    (items.flatMap f).filter (fun b => key b = k) = f (k, v) := by
  induction items with
  | nil => cases h
  | cons item items ih =>
      rw [List.map_cons, List.nodup_cons] at hnodup
      rw [List.flatMap_cons, List.filter_append]
      rcases List.mem_cons.mp h with rfl | htail
      · -- No later item has the key.
        have hself : (f (k, v)).filter (fun b => key b = k) = f (k, v) :=
          List.filter_eq_self.mpr fun b hb => decide_eq_true (hkey (k, v) b hb)
        have hnil : (items.flatMap f).filter (fun b => key b = k) = [] := by
          refine List.filter_eq_nil_iff.mpr fun b hb hbk => hnodup.1 ?_
          obtain ⟨other, hother, hb'⟩ := List.mem_flatMap.mp hb
          have hother' : other.1 = k := (hkey other b hb').symm.trans (of_decide_eq_true hbk)
          exact List.mem_map.mpr ⟨other, hother, hother'⟩
        rw [hself, hnil, List.append_nil]
      · -- The first item has another key.
        have hne : item.1 ≠ k := fun heq => hnodup.1 (List.mem_map.mpr ⟨(k, v), htail, heq.symm⟩)
        have hnil : (f item).filter (fun b => key b = k) = [] :=
          List.filter_eq_nil_iff.mpr fun b hb hbk =>
            hne ((hkey item b hb).symm.trans (of_decide_eq_true hbk))
        rw [hnil, List.nil_append, ih hnodup.2 htail]

end Dict

end HangAnalyzer.Lib
