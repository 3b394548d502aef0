import Mathlib.Data.List.Perm.Basic

/-!
# `HangAnalyzer.Lib.Shares`: a log that many parties append to

The entries of a log say which party they are from, or that they are from none.
`share k log` is what party `k` has appended, in order. `perm_shares` puts the shares
together again: what the parties have appended, all in all, is in the log exactly once.
-/

set_option autoImplicit false

namespace HangAnalyzer.Lib

variable {α : Type} {log : List (Option Nat × α)} {k n : Nat} {x : α}

/-- What party `k` has appended. -/
def share (k : Nat) (log : List (Option Nat × α)) : List α :=
  (log.filter fun e => e.1 = some k).map Prod.snd

/-- Nobody has a share of an empty log. -/
@[simp] theorem share_nil : share k ([] : List (Option Nat × α)) = [] := rfl

/-- A share grows with its log. -/
theorem share_append (more : List (Option Nat × α)) :
    share k (log ++ more) = share k log ++ share k more := by
  simp [share]

/-- The share of what one party has written is all of it. -/
@[simp] theorem share_own (l : List α) : share k (l.map (some k, ·)) = l := by
  simp [share, List.filter_map, Function.comp_def]

/-- What others have written is not in the share. -/
theorem share_other {j : Option Nat} (h : j ≠ some k) (l : List α) :
    share k (l.map (j, ·)) = [] := by
  simp [share, List.filter_map, Function.comp_def, h]

/-- A party without entries has no share. -/
theorem share_eq_nil (h : ∀ e ∈ log, e.1 ≠ some k) : share k log = [] := by
  rw [share, List.filter_eq_nil_iff.mpr fun e he => by simp [h e he]]
  rfl

/-- A share keeps the order of the log. -/
theorem share_sublist : (share k log).Sublist (log.map Prod.snd) :=
  List.filter_sublist.map Prod.snd

/-- The entries of the first `n` parties, one party after the other. -/
theorem perm_shares_lt (log : List (Option Nat × α)) (n : Nat) :
    ((log.filter fun e => e.1.any (· < n)).map Prod.snd).Perm
      ((List.range n).flatMap fun k => share k log) := by
  induction n with
  | zero => simp
  | succ n ih =>
      rw [List.range_succ, List.flatMap_append, List.flatMap_singleton]
      refine .trans ?_ (ih.append_right _)
      rw [share, ← List.map_append]
      refine .map _ ?_
      -- The last party's entries are those of the first `n + 1` that are not of the first `n`.
      have hsplit := List.filter_append_perm (fun e : Option Nat × α => e.1.any (· < n))
        (log.filter fun e => e.1.any (· < n + 1))
      rw [List.filter_filter, List.filter_filter] at hsplit
      have hfirst : ∀ e ∈ log, (e.1.any (· < n) && e.1.any (· < n + 1)) = e.1.any (· < n) := by
        intro e _
        cases e.1 with
        | none => rfl
        | some k =>
            rw [Option.any_some, Option.any_some, ← Bool.decide_and]
            exact decide_eq_decide.mpr (by omega)
      have hlast : ∀ e ∈ log,
          (!e.1.any (· < n) && e.1.any (· < n + 1)) = decide (e.1 = some n) := by
        intro e _
        cases e.1 with
        | none => rfl
        | some k =>
            rw [Option.any_some, Option.any_some, ← decide_not, ← Bool.decide_and]
            exact decide_eq_decide.mpr (by rw [Option.some.injEq]; omega)
      rw [List.filter_congr hfirst, List.filter_congr hlast] at hsplit
      exact hsplit.symm

/-- Every entry of a party is in the share of that party, and in no other. -/
theorem perm_shares (h : ∀ e ∈ log, ∀ k, e.1 = some k → k < n) :
    ((log.filter fun e => e.1.isSome).map Prod.snd).Perm
      ((List.range n).flatMap fun k => share k log) := by
  have hall : ∀ e ∈ log, e.1.isSome = e.1.any (· < n) := by
    intro e he
    cases hk : e.1 with
    | none => rfl
    | some k => simp [h e he k hk]
  rw [List.filter_congr hall]
  exact perm_shares_lt log n

end HangAnalyzer.Lib
