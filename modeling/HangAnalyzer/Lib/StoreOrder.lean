import HangAnalyzer.Lib.SharedStores

/-!
# `HangAnalyzer.Lib.StoreOrder`: which store to a location was the last

A schedule of `HangAnalyzer.Lib.SharedStores` says which call acts, not which store
it executes. `StepAt` counts: action `i` executes store number `n` of call `k`.

`Protocol.exists_last_store` is the rule for a location whose value depends on the
order of the stores. It holds what the last store to it has evaluated in the memory
of that moment, or its initial value when nobody has stored to it.
-/

set_option autoImplicit false

namespace HangAnalyzer.Lib

/-- Action `i` of the schedule executes store number `n` of call `k`. -/
def StepAt (ops : List Op) (k n i : Nat) : Prop :=
  ops[i]? = some (.advance k) ∧ (ops.take i).count (.advance k) = n

variable {ops : List Op} {k n n' i i' : Nat}

instance : Decidable (StepAt ops k n i) := inferInstanceAs (Decidable (_ ∧ _))

/-- A step is one of the run. -/
theorem StepAt.lt_length (h : StepAt ops k n i) : i < ops.length :=
  (List.getElem?_eq_some_iff.mp h.1).1

/-- An action of a longer schedule is the last one, or one from before. -/
theorem stepAt_concat_iff {op : Op} : StepAt (ops ++ [op]) k n i ↔
    StepAt ops k n i ∨ i = ops.length ∧ op = .advance k ∧ ops.count (.advance k) = n := by
  -- The step is an old one, or it is the last operation.
  constructor
  · intro h
    have hle : i ≤ ops.length := by simpa [Nat.lt_succ_iff] using h.lt_length
    have htake : (ops ++ [op]).take i = ops.take i := List.take_append_of_le_length hle
    rcases getElem?_concat_cases h.1 with hold | ⟨hi, hop⟩
    · exact .inl ⟨hold, by rw [← htake]; exact h.2⟩
    · refine .inr ⟨hi, hop.symm, ?_⟩
      have hcount := h.2
      rwa [htake, hi, List.take_length] at hcount
  · rintro (h | ⟨hi, hop, hn⟩)
    · refine ⟨?_, ?_⟩
      · rw [List.getElem?_append_left h.lt_length]
        exact h.1
      · rw [List.take_append_of_le_length (Nat.le_of_lt h.lt_length)]
        exact h.2
    · subst hi hop hn
      simp [StepAt]

/-- A call that has executed enough stores has executed each of the earlier ones. -/
theorem exists_stepAt (h : n < ops.count (.advance k)) : ∃ i, StepAt ops k n i := by
  induction ops using List.reverseRecOn with
  | nil => simp at h
  | append_singleton ops op ih =>
      by_cases hn : n < ops.count (.advance k)
      · obtain ⟨i, hi⟩ := ih hn
        exact ⟨i, stepAt_concat_iff.mpr (.inl hi)⟩
      · have hop : op = .advance k := by
          by_contra hne
          rw [List.count_append, List.count_singleton, if_neg (by simpa using hne)] at h
          omega
        have hcount : ops.count (.advance k) = n := by
          rw [List.count_append, hop, List.count_singleton_self] at h
          omega
        exact ⟨ops.length, stepAt_concat_iff.mpr (.inr ⟨rfl, hop, hcount⟩)⟩

/-- A call executes its stores in their order. -/
theorem StepAt.lt_of_lt (h : StepAt ops k n i) (h' : StepAt ops k n' i') (hn : n < n') :
    i < i' := by
  by_contra hle
  have hprefix : ops.take i' <+: ops.take i := List.take_prefix_take_left (by omega)
  have hcount := hprefix.sublist.count_le (.advance k)
  rw [h.2, h'.2] at hcount
  omega

/-- A step of the first operations is one of all. -/
theorem StepAt.of_take {j : Nat} (h : StepAt (ops.take j) k n i) : StepAt ops k n i := by
  have hlt := h.lt_length
  rw [List.length_take] at hlt
  refine ⟨?_, ?_⟩
  · rw [← h.1, List.getElem?_take_of_lt (by omega)]
  · rw [← h.2, List.take_take, Nat.min_eq_left (by omega)]

/-- A step is among the operations up to a later one. -/
theorem StepAt.take {j : Nat} (h : StepAt ops k n i) (hij : i < j) : StepAt (ops.take j) k n i := by
  refine ⟨?_, ?_⟩
  · rw [← h.1, List.getElem?_take_of_lt hij]
  · rw [← h.2, List.take_take, Nat.min_eq_left (Nat.le_of_lt hij)]

namespace Protocol

variable {Loc Arg : Type} {width : Loc → Nat} [DecidableEq Loc] {P : Protocol Loc Arg}
  {args : Nat → Arg} {m : Memory width} {s : Shared width}

/-- Action `i` stores to `l`: it executes store number `n` of call `k`, which is `a`. -/
structure StoresAt (P : Protocol Loc Arg) (args : Nat → Arg) (m : Memory width) (ops : List Op)
    (l : Loc) (k n i : Nat) (a : Assign Loc) : Prop where
  stepAt : StepAt ops k n i
  store : (P.stores args m k)[n]? = some a
  dst : a.dst = l

omit [DecidableEq Loc] in
/-- One more operation adds the store that it makes, if it makes one. -/
theorem storesAt_concat_iff {op : Op} {l : Loc} {a : Assign Loc} :
    P.StoresAt args m (ops ++ [op]) l k n i a ↔
      P.StoresAt args m ops l k n i a ∨
        i = ops.length ∧ op = .advance k ∧ ops.count (.advance k) = n ∧
          (P.stores args m k)[n]? = some a ∧ a.dst = l := by
  constructor
  · intro h
    rcases stepAt_concat_iff.mp h.stepAt with hold | ⟨hi, hop, hn⟩
    · exact .inl ⟨hold, h.store, h.dst⟩
    · exact .inr ⟨hi, hop, hn, h.store, h.dst⟩
  · rintro (h | ⟨hi, hop, hn, hstore, hdst⟩)
    · exact ⟨stepAt_concat_iff.mpr (.inl h.stepAt), h.store, h.dst⟩
    · exact ⟨stepAt_concat_iff.mpr (.inr ⟨hi, hop, hn⟩), hstore, hdst⟩

/-- The last store to a location decides its value: what the store's source evaluates to
in the memory of that moment. -/
structure LastAt (P : Protocol Loc Arg) (args : Nat → Arg) (m : Memory width) (ops : List Op)
    (v : Nat) (l : Loc) (k n i : Nat) (a : Assign Loc) (t : Shared width) : Prop where
  storesAt : P.StoresAt args m ops l k n i a
  before : Run (P.step args) (start m) (ops.take i) t
  value : v = a.src.eval t.mem % 256 ^ width l
  last : ∀ {k' n' i' a'}, P.StoresAt args m ops l k' n' i' a' → i' ≤ i

/-- A word holds what the last store to it has written, or what was there at the start when no
store has reached it. -/
theorem exists_last_store (h : Run (P.step args) (start m) ops s) {l : Loc} (hl : l ≠ P.counter) :
    (∃ k n i a t, P.LastAt args m ops (s.mem.read l) l k n i a t) ∨
      s.mem.read l = m.read l ∧ ∀ k n i a, ¬ P.StoresAt args m ops l k n i a := by
  induction ops using List.reverseRecOn generalizing s with
  | nil =>
      obtain rfl := Run.nil_iff.mp h
      refine .inr ⟨rfl, fun k n i a hstore => ?_⟩
      have hlt := hstore.stepAt.lt_length
      simp at hlt
  | append_singleton ops op ih =>
      obtain ⟨t, hrun, hstep⟩ := Run.concat_iff.mp h
      -- What the action does to `l`, and whether it is a store there.
      have hcase : (∃ k a, op = .advance k ∧ (P.stores args m k)[ops.count (.advance k)]? = some a ∧
            a.dst = l ∧ s.mem.read l = a.src.eval t.mem % 256 ^ width l) ∨
          s.mem.read l = t.mem.read l ∧ ∀ k a, op = .advance k →
            (P.stores args m k)[ops.count (.advance k)]? = some a → a.dst ≠ l := by
        cases op with
        | claim =>
            simp only [step, Option.some.injEq] at hstep
            subst hstep
            exact .inr ⟨Memory.read_store_of_ne _ _ hl, fun k a hop => by cases hop⟩
        | advance k =>
            obtain ⟨seq, a, todo, hk, rfl⟩ := step_advance P args hstep
            have hstore := stores_getElem? hrun hk
            by_cases hdst : a.dst = l
            · refine .inl ⟨k, a, rfl, hstore, hdst, ?_⟩
              rw [← hdst]
              exact Memory.read_store_self _ _ _
            · refine .inr ⟨Memory.read_store_of_ne _ _ (Ne.symm hdst), fun k' a' hop hstore' => ?_⟩
              obtain rfl := Op.advance.inj hop
              obtain rfl := Option.some.inj (hstore.symm.trans hstore')
              exact hdst
      rcases hcase with ⟨k, a, hop, hstore, hdst, hvalue⟩ | ⟨hsame, hnone⟩
      · refine .inl ⟨k, ops.count (.advance k), ops.length, a, t, ?_, ?_, hvalue, fun hstore' => ?_⟩
        · exact storesAt_concat_iff.mpr (.inr ⟨rfl, hop, rfl, hstore, hdst⟩)
        · rwa [List.take_left]
        · have hlt := hstore'.stepAt.lt_length
          rw [List.length_append, List.length_singleton] at hlt
          omega
      · have hold : ∀ {k n i a}, P.StoresAt args m (ops ++ [op]) l k n i a →
            P.StoresAt args m ops l k n i a := by
          intro k n i a hstore
          rcases storesAt_concat_iff.mp hstore with hold | ⟨-, hop, hn, hstore, hdst⟩
          · exact hold
          · subst hn
            exact absurd hdst (hnone k a hop hstore)
        rcases ih hrun with ⟨k, n, i, a, u, hlast⟩ | ⟨hinit, hnever⟩
        · have hlt := hlast.storesAt.stepAt.lt_length
          refine .inl ⟨k, n, i, a, u, storesAt_concat_iff.mpr (.inl hlast.storesAt), ?_, ?_,
            fun hstore => hlast.last (hold hstore)⟩
          · rw [List.take_append_of_le_length (Nat.le_of_lt hlt)]
            exact hlast.before
          · rw [hsame]
            exact hlast.value
        · exact .inr ⟨hsame.trans hinit, fun k n i a hstore => hnever k n i a (hold hstore)⟩

end Protocol

end HangAnalyzer.Lib
