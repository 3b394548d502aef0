import Mathlib.Data.List.Basic
import Mathlib.Data.List.Induction
import Mathlib.Data.List.Nodup

/-!
# `HangAnalyzer.Lib.Brackets`: calls that enter and exit

A word of events, some of which enter a call and some of which exit one. In a
`WellNested` word each call exits before the one around it does. A prefix of such a word
is `Open`: well-nested blocks with an enter between two of them, and these enters are the
calls that still run.

`stackOf` finds them with a stack and never looks at a key. `Open.stackOf_eq` says that
the two agree, `stackOf_exit` that an exit meets the enter of its own call on top, and
`mem_stackOf` that a call is on the stack as long as its exit did not come (`Returns`).
-/

set_option autoImplicit false

namespace HangAnalyzer.Lib

/-- What an event of a word does to the calls: it enters a call of a key, or exits one. -/
inductive Bracket (κ : Type) where
  | enter (key : κ)
  | exit (key : κ)
  deriving Repr, DecidableEq

section
variable {α κ : Type} (shape : α → Option (Bracket κ))

/-- Every call of the word exits, and exits before the call around it. -/
inductive WellNested : List α → Prop where
  | nil : WellNested []
  | call {e x : α} {k : κ} {b c : List α} (enter : shape e = some (.enter k))
      (exit : shape x = some (.exit k)) (inside : WellNested b) (after : WellNested c) :
      WellNested (e :: (b ++ x :: c))

/-- The calls `s` of the word were entered, the innermost last, and run until its end. -/
inductive Open : List α → List α → Prop where
  | nested {b : List α} (block : WellNested shape b) : Open b []
  | call {b w s : List α} {e : α} {k : κ} (before : WellNested shape b)
      (enter : shape e = some (.enter k)) (rest : Open w s) : Open (b ++ e :: w) (e :: s)

/-- The exit of the call that `e` enters is in the word. -/
def Returns (w : List α) (e : α) : Prop :=
  ∃ a b x c k, w = a ++ e :: (b ++ x :: c) ∧ shape e = some (.enter k) ∧
    shape x = some (.exit k) ∧ WellNested shape b

/-- One event, seen by a stack whose top is at the end. -/
def pushPop (s : List α) (a : α) : List α :=
  match shape a with
  | some (.enter _) => s ++ [a]
  | some (.exit _)  => s.dropLast
  | none            => s

/-- The stack after a word. -/
def stackOf (w : List α) : List α := w.foldl (pushPop shape) []

variable {shape}

/-- An entry is put on the stack. -/
theorem pushPop_enter {s : List α} {e : α} {k : κ} (h : shape e = some (.enter k)) :
    pushPop shape s e = s ++ [e] := by
  rw [pushPop, h]

/-- An exit takes the last entry away. -/
theorem pushPop_exit {s : List α} {x : α} {k : κ} (h : shape x = some (.exit k)) :
    pushPop shape s x = s.dropLast := by
  rw [pushPop, h]

/-- The last event is pushed or popped last. -/
theorem stackOf_concat (w : List α) (a : α) :
    stackOf shape (w ++ [a]) = pushPop shape (stackOf shape w) a := by
  rw [stackOf, List.foldl_concat, ← stackOf]

/-- The stack keeps the order of the word. -/
theorem sublist_stackOf (w : List α) : (stackOf shape w).Sublist w := by
  induction w using List.reverseRecOn with
  | nil => exact List.Sublist.refl []
  | append_singleton w a ih =>
      rw [stackOf_concat]
      unfold pushPop
      split
      · exact ih.append (List.Sublist.refl [a])
      · exact ((List.dropLast_sublist _).trans ih).trans (List.sublist_append_left _ _)
      · exact ih.trans (List.sublist_append_left _ _)

/-! ### Blocks -/

namespace WellNested

variable {b c : List α}

/-- Well-nested parts make a well-nested whole. -/
theorem append (hb : WellNested shape b) (hc : WellNested shape c) :
    WellNested shape (b ++ c) := by
  induction hb with
  | nil => exact hc
  | call enter exit inside after ihInside ihAfter =>
      rw [List.cons_append, List.append_assoc, List.cons_append]
      exact .call enter exit inside ihAfter

/-- A block leaves the stack as it was. -/
theorem foldl_pushPop (hb : WellNested shape b) (s : List α) :
    b.foldl (pushPop shape) s = s := by
  induction hb generalizing s with
  | nil => rfl
  | call enter exit inside after ihInside ihAfter =>
      rw [List.foldl_cons, pushPop_enter enter, List.foldl_append, ihInside, List.foldl_cons,
        pushPop_exit exit, List.dropLast_concat, ihAfter]

/-- The last event of a block exits a call of the block. -/
theorem exit_last {w : List α} {x : α} (hb : WellNested shape b) (heq : b = w ++ [x]) :
    ∃ b₁ e b₂ k, w = b₁ ++ e :: b₂ ∧ WellNested shape b₁ ∧ WellNested shape b₂ ∧
      shape e = some (.enter k) ∧ shape x = some (.exit k) := by
  induction hb generalizing w with
  | nil => cases w <;> cases heq
  | @call e x' k b c enter exit inside after ihInside ihAfter =>
      cases c using List.reverseRecOn with
      | nil =>
          -- The first call is the last one.
          have heq' : (e :: b) ++ [x'] = w ++ [x] := heq
          obtain ⟨rfl, hx⟩ := List.append_inj' heq' rfl
          obtain rfl := List.singleton_inj.mp hx
          exact ⟨[], e, b, k, rfl, .nil, inside, enter, exit⟩
      | append_singleton c y =>
          have heq' : (e :: (b ++ x' :: c)) ++ [y] = w ++ [x] := by
            rw [← heq]
            simp
          obtain ⟨rfl, hy⟩ := List.append_inj' heq' rfl
          obtain rfl := List.singleton_inj.mp hy
          obtain ⟨b₁, e', b₂, k', rfl, hb₁, hb₂, henter, hexit⟩ := ihAfter rfl
          exact ⟨e :: (b ++ x' :: b₁), e', b₂, k', by simp, .call enter exit inside hb₁, hb₂,
            henter, hexit⟩

/-- The exit of every call of a block is in the block. -/
theorem returns (hb : WellNested shape b) {e : α} {k : κ} (he : e ∈ b)
    (henter : shape e = some (.enter k)) : Returns shape b e := by
  induction hb with
  | nil => cases he
  | @call e' x k' b c enter exit inside after ihInside ihAfter =>
      rcases List.mem_cons.mp he with rfl | he
      · exact ⟨[], b, x, c, k', rfl, enter, exit, inside⟩
      rcases List.mem_append.mp he with he | he
      · obtain ⟨a, b', y, c', k, rfl, hk, hy, hb'⟩ := ihInside he
        exact ⟨e' :: a, b', y, c' ++ x :: c, k, by simp, hk, hy, hb'⟩
      rcases List.mem_cons.mp he with rfl | he
      · rw [henter] at exit
        cases exit
      · obtain ⟨a, b', y, c', k, rfl, hk, hy, hb'⟩ := ihAfter he
        exact ⟨e' :: (b ++ x :: a), b', y, c', k, by simp, hk, hy, hb'⟩

/-- A prefix of a block is open. -/
theorem open_prefix {w rest : List α} (hb : WellNested shape b) (heq : b = w ++ rest) :
    ∃ s, Open shape w s := by
  induction hb generalizing w rest with
  | nil =>
      obtain ⟨rfl, -⟩ := List.append_eq_nil_iff.mp heq.symm
      exact ⟨[], .nested .nil⟩
  | @call e x k b c enter exit inside after ihInside ihAfter =>
      cases w with
      | nil => exact ⟨[], .nested .nil⟩
      | cons e' w =>
          obtain ⟨rfl, heq'⟩ := List.cons.inj heq
          rcases List.append_eq_append_iff.mp heq' with ⟨w', rfl, hrest⟩ | ⟨b', rfl, -⟩
          · cases w' with
            | nil =>
                rw [List.append_nil]
                obtain ⟨s, hs⟩ := ihInside (List.append_nil b).symm
                exact ⟨_, .call .nil enter hs⟩
            | cons x' w' =>
                obtain ⟨rfl, rfl⟩ := List.cons.inj hrest
                -- The prefix goes on behind the first call.
                obtain ⟨s, hs⟩ := ihAfter rfl
                cases hs with
                | nested block => exact ⟨[], .nested (.call enter exit inside block)⟩
                | @call b₀ w₀ s₀ e₀ k₀ before enter₀ rest₀ =>
                    have hblock := WellNested.call enter exit inside before
                    have hopen := Open.call hblock enter₀ rest₀
                    simp only [List.cons_append, List.append_assoc] at hopen
                    exact ⟨_, hopen⟩
          · obtain ⟨s, hs⟩ := ihInside rfl
            exact ⟨_, .call .nil enter hs⟩

end WellNested

/-! ### Open words -/

namespace Open

variable {w s : List α}

/-- A prefix of an open word is open. -/
theorem prefix_open (h : Open shape w s) {w₁ w₂ : List α} (heq : w = w₁ ++ w₂) :
    ∃ s₁, Open shape w₁ s₁ := by
  induction h generalizing w₁ with
  | nested block => exact block.open_prefix heq
  | @call b w s e k before enter rest ih =>
      rcases List.append_eq_append_iff.mp heq with ⟨w', rfl, hrest⟩ | ⟨b', rfl, -⟩
      · cases w' with
        | nil =>
            rw [List.append_nil]
            exact ⟨[], .nested before⟩
        | cons e' w' =>
            obtain ⟨rfl, rfl⟩ := List.cons.inj hrest
            obtain ⟨s₁, hs₁⟩ := ih rfl
            exact ⟨_, .call before enter hs₁⟩
      · exact before.open_prefix rfl

/-- The stack of an open word holds the calls that run. -/
theorem foldl_pushPop (h : Open shape w s) (s₀ : List α) :
    w.foldl (pushPop shape) s₀ = s₀ ++ s := by
  induction h generalizing s₀ with
  | nested block => rw [block.foldl_pushPop, List.append_nil]
  | call before enter rest ih =>
      rw [List.foldl_append, before.foldl_pushPop, List.foldl_cons, pushPop_enter enter, ih,
        List.append_assoc, List.singleton_append]

/-- The stack has the entries that are open. -/
theorem stackOf_eq (h : Open shape w s) : stackOf shape w = s :=
  h.foldl_pushPop []

/-- An exit at the end belongs to the innermost call that ran. -/
theorem exit_last {w' : List α} {x : α} {k : κ} (h : Open shape w' s)
    (hexit : shape x = some (.exit k)) (heq : w' = w ++ [x]) :
    ∃ e, shape e = some (.enter k) ∧ Open shape w (s ++ [e]) := by
  -- The exit belongs to the block, or to what comes behind the open entry.
  induction h generalizing w with
  | nested block =>
      obtain ⟨b₁, e, b₂, k', rfl, hb₁, hb₂, henter, hexit'⟩ := block.exit_last heq
      rw [hexit] at hexit'
      cases hexit'
      exact ⟨e, henter, .call hb₁ henter (.nested hb₂)⟩
  | @call b w₀ s e k₀ before enter rest ih =>
      cases w₀ using List.reverseRecOn with
      | nil =>
          obtain ⟨-, hlast⟩ := List.append_inj' heq rfl
          obtain rfl := List.singleton_inj.mp hlast
          rw [hexit] at enter
          cases enter
      | append_singleton w₀ y =>
          have heq' : (b ++ e :: w₀) ++ [y] = w ++ [x] := by
            rw [← heq]
            simp
          obtain ⟨rfl, hlast⟩ := List.append_inj' heq' rfl
          obtain rfl := List.singleton_inj.mp hlast
          obtain ⟨e', henter', hopen⟩ := ih rfl
          exact ⟨e', henter', .call before enter hopen⟩

/-- A call that runs was entered, and the word is open behind its enter. -/
theorem behind {e : α} (h : Open shape w s) (he : e ∈ s) :
    ∃ w₁ w₂ s₂ k, w = w₁ ++ e :: w₂ ∧ shape e = some (.enter k) ∧ Open shape w₂ s₂ := by
  induction h with
  | nested block => cases he
  | @call b w s e' k before enter rest ih =>
      rcases List.mem_cons.mp he with rfl | he
      · exact ⟨b, w, s, k, rfl, enter, rest⟩
      · obtain ⟨w₁, w₂, s₂, k', rfl, henter, hopen⟩ := ih he
        exact ⟨b ++ e' :: w₁, w₂, s₂, k', by simp, henter, hopen⟩

/-- The exit of a call that was entered and does not run is in the word. -/
theorem returns {e : α} {k : κ} (h : Open shape w s) (he : e ∈ w)
    (henter : shape e = some (.enter k)) (hnot : e ∉ s) : Returns shape w e := by
  induction h with
  | nested block => exact block.returns he henter
  | @call b w s e' k' before enter rest ih =>
      rw [List.mem_cons, not_or] at hnot
      rcases List.mem_append.mp he with he | he
      · obtain ⟨a, b', x, c, k, rfl, hk, hx, hb'⟩ := before.returns he henter
        exact ⟨a, b', x, c ++ e' :: w, k, by simp, hk, hx, hb'⟩
      · obtain ⟨a, b', x, c, k, rfl, hk, hx, hb'⟩ :=
          ih ((List.mem_cons.mp he).resolve_left hnot.1) hnot.2
        exact ⟨b ++ e' :: a, b', x, c, k, by simp, hk, hx, hb'⟩

/-- No exit of an open word is without its enter. -/
theorem not_exit {b c : List α} {x : α} {k : κ} (hb : WellNested shape b)
    (hexit : shape x = some (.exit k)) : ¬ Open shape (b ++ x :: c) s := by
  intro h
  have hsplit : b ++ x :: c = (b ++ [x]) ++ c := by simp
  obtain ⟨s₁, hs₁⟩ := h.prefix_open hsplit
  obtain ⟨e, -, hopen⟩ := hs₁.exit_last hexit rfl
  -- The block has no calls that run, so there is no innermost one.
  have hnil := (Open.nested hb).stackOf_eq.symm.trans hopen.stackOf_eq
  simp at hnil

end Open

/-! ### The stack -/

variable {w : List α}

/-- An exit meets the enter of its call on top of the stack. -/
theorem stackOf_exit {x : α} {k : κ} {rest : List α} (h : WellNested shape (w ++ x :: rest))
    (hexit : shape x = some (.exit k)) :
    ∃ s e, stackOf shape w = s ++ [e] ∧ shape e = some (.enter k) := by
  have hsplit : w ++ x :: rest = (w ++ [x]) ++ rest := by simp
  obtain ⟨s, hs⟩ := h.open_prefix hsplit
  obtain ⟨e, henter, hopen⟩ := hs.exit_last hexit rfl
  exact ⟨s, e, hopen.stackOf_eq, henter⟩

/-- A call is on the stack from its enter to its exit. -/
theorem mem_stackOf {rest : List α} (h : WellNested shape (w ++ rest)) (hnodup : w.Nodup)
    {e : α} :
    e ∈ stackOf shape w ↔ e ∈ w ∧ (∃ k, shape e = some (.enter k)) ∧ ¬ Returns shape w e := by
  obtain ⟨s, hs⟩ := h.open_prefix rfl
  rw [hs.stackOf_eq]
  constructor
  · intro he
    obtain ⟨w₁, w₂, s₂, k, rfl, henter, hopen⟩ := hs.behind he
    refine ⟨by simp, ⟨k, henter⟩, ?_⟩
    rintro ⟨a, b, x, c, k', heq, -, hexit, hb⟩
    -- The event occurs once, so the exit comes behind this enter.
    have honce := List.nodup_cons.mp (List.nodup_middle.mp hnodup)
    rw [List.mem_append, not_or] at honce
    obtain ⟨-, -, rfl⟩ := (List.append_cons_inj_of_notMem honce.1.1 honce.1.2).mp heq
    exact Open.not_exit hb hexit hopen
  · rintro ⟨he, ⟨k, henter⟩, hnot⟩
    by_contra hmem
    exact hnot (hs.returns he henter hmem)

end

end HangAnalyzer.Lib
