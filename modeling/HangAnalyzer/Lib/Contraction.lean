import Mathlib.Logic.Relation

/-!
# `HangAnalyzer.Lib.Contraction`: cycles of an order and its links

A relation `Order` that is transitive and irreflexive, and a relation `Link`
that is neither. Every cycle of the two together runs through links, and
between two links the steps of the order can be made at once. So it is enough
to keep the steps that lead from the end of a link to the start of one
(`cycle_iff_contracted`).

`walk_contracted` does the work: the walk is read from its last node backwards,
and the steps of the order are collected until the next link.
-/

set_option autoImplicit false

namespace HangAnalyzer.Lib

open Relation (TransGen ReflTransGen)

variable {α : Type} (Order Link : α → α → Prop)

/-- A step of the order or a link. -/
def Joint (a b : α) : Prop := Order a b ∨ Link a b

/-- A link, or a step of the order from the end of a link to the start of one. -/
def Contracted (a b : α) : Prop :=
  Link a b ∨ (Order a b ∧ (∃ p, Link p a) ∧ ∃ q, Link b q)

variable {Order Link}

/-- A walk to the start of a link, from the end of one or from an element that the
order puts after the end of one. -/
theorem walk_contracted (htrans : ∀ a b c, Order a b → Order b c → Order a c) {a b : α}
    (ha : ∃ q, Link a q) (h : ReflTransGen (Joint Order Link) b a) :
    ((∃ p, Link p b) → ReflTransGen (Contracted Order Link) b a) ∧
      ∀ t, (∃ p, Link p t) → Order t b → ReflTransGen (Contracted Order Link) t a := by
  -- The induction goes along the walk from its start. A link is followed at once, and an
  -- order step waits for the next link.
  induction h using ReflTransGen.head_induction_on with
  | refl =>
      constructor
      · exact fun _ => .refl
      · exact fun t ht horder => .single (Or.inr ⟨horder, ht, ha⟩)
  | @head b c hstep _ ih =>
      constructor
      · intro hb
        rcases hstep with horder | hlink
        · exact ih.2 b hb horder
        · exact .head (Or.inl hlink) (ih.1 ⟨b, hlink⟩)
      · intro t ht horder
        rcases hstep with horder' | hlink
        · exact ih.2 t ht (htrans t b c horder horder')
        · exact .head (Or.inr ⟨horder, ht, c, hlink⟩) (.head (Or.inl hlink) (ih.1 ⟨b, hlink⟩))

/-- A walk makes steps of the order only, or it runs through a link. -/
theorem order_or_link (htrans : ∀ a b c, Order a b → Order b c → Order a c) {x y : α}
    (h : TransGen (Joint Order Link) x y) :
    Order x y ∨ ∃ a b, ReflTransGen (Joint Order Link) x a ∧ Link a b ∧
      ReflTransGen (Joint Order Link) b y := by
  induction h with
  | single hstep => exact hstep.imp id fun hlink => ⟨x, _, .refl, hlink, .refl⟩
  | @tail y z hwalk hstep ih =>
      rcases ih with horder | ⟨a, b, hxa, hlink, hby⟩
      · rcases hstep with horder' | hlink
        · exact Or.inl (htrans x y z horder horder')
        · exact Or.inr ⟨y, z, hwalk.to_reflTransGen, hlink, .refl⟩
      · exact Or.inr ⟨a, b, hxa, hlink, hby.tail hstep⟩

/-- **Contraction keeps the cycles.** -/
theorem cycle_iff_contracted (htrans : ∀ a b c, Order a b → Order b c → Order a c)
    (hirrefl : ∀ a, ¬ Order a a) :
    (∃ x, TransGen (Joint Order Link) x x) ↔ ∃ x, TransGen (Contracted Order Link) x x := by
  constructor
  · rintro ⟨x, hcycle⟩
    rcases order_or_link htrans hcycle with horder | ⟨a, b, hxa, hlink, hbx⟩
    · exact absurd horder (hirrefl x)
    · -- The cycle as seen from its link.
      have hback := (walk_contracted htrans ⟨b, hlink⟩ (hbx.trans hxa)).1 ⟨a, hlink⟩
      exact ⟨a, .head' (Or.inl hlink) hback⟩
  · rintro ⟨x, hcycle⟩
    exact ⟨x, TransGen.mono (fun _ _ h => h.elim Or.inr fun h => Or.inl h.1) x x hcycle⟩

end HangAnalyzer.Lib
