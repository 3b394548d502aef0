import HangAnalyzer.Lib.SearchDepth
import HangAnalyzer.Analyzer.Analyze

/-!
# `HangAnalyzer.Proofs.Analyzer.Search`: `find_cycles` on an adjacency map

The results of `HangAnalyzer.Lib.DepthFirst` and `HangAnalyzer.Lib.SearchDepth`
for the map and the sets of the source. `findCycles_detects` says that the
search is a detector in every order of the keys and of each set.
`analyzeWithin_isSome_iff_shallow` says for which dependency graphs `analyze`
returns within a nesting limit in every order of the sets.
-/

set_option autoImplicit false

namespace HangAnalyzer.Analyzer

open HangAnalyzer.Lib

/-! ### The detector -/

/-- `b` is in the successor set of `a`. -/
def HasEdge (edges : Edges) (a b : String) : Prop := ∃ dests, edges.get? a = some dests ∧ b ∈ dests

section
variable {order : String → SetOrder String} {edges : Edges}

/-- The successors are where the edges lead to. -/
theorem mem_successors {a b : String} : b ∈ successors edges a ↔ HasEdge edges a b := by
  unfold successors HasEdge
  cases edges.get? a with
  | none => simp
  | some dests => simp

/-- The order of the sets is no matter of the edges. -/
theorem edge_orderedGraph : (orderedGraph order edges).Edge = HasEdge edges := by
  funext a b
  refine propext ?_
  show b ∈ (order a).iter (successors edges a) ↔ _
  rw [((order a).perm _).mem_iff, mem_successors]

/-- **The detector.** In every order of the keys and of the sets the search
returns, what it lists are closed walks that repeat no node but the first, it
lists none twice, and it lists one if there is a cycle. -/
theorem findCycles_detects (order : String → SetOrder String) (edges : Edges) :
    ∃ cycles, findCyclesWithin (orderedGraph order edges) (edges.keys.length + 1) = some cycles ∧
      findCycles (orderedGraph order edges) = cycles ∧
      (∀ c ∈ cycles, ∃ v walk, c = v :: walk ++ [v] ∧ (v :: walk).Nodup ∧
        c.IsChain (HasEdge edges)) ∧
      cycles.Nodup ∧
      (cycles ≠ [] ↔ ∃ v, Relation.TransGen (HasEdge edges) v v) := by
  obtain ⟨s, hs⟩ := findCyclesWithin_isSome (orderedGraph order edges).shallow_keys
  have hwithin : findCyclesWithin (orderedGraph order edges) (edges.keys.length + 1)
      = some s.cycles := by
    show (visitKeys _ ((orderedGraph order edges).keys.length + 1) _ _).map _ = _
    rw [hs]
    rfl
  have hcycles : findCycles (orderedGraph order edges) = s.cycles := by
    show (findCyclesWithin (orderedGraph order edges) (edges.keys.length + 1)).getD [] = _
    rw [hwithin]
    rfl
  refine ⟨s.cycles, hwithin, hcycles, ?_, ?_, ?_⟩
  · intro c hc
    rw [← hcycles] at hc
    obtain ⟨v, walk, hshape, hnodup, hchain⟩ := findCycles_sound _ hc
    exact ⟨v, walk, hshape, hnodup, edge_orderedGraph ▸ hchain⟩
  · rw [← hcycles]
    exact findCycles_nodup _
  · rw [← hcycles, Ne, findCycles_eq_nil_iff, Graph.Acyclic, edge_orderedGraph]
    push Not
    rfl

end

/-! ### The nesting -/

/-- An order for each node of a graph is an order for each set. -/
theorem orderedGraph_eq_reorder (order : String → SetOrder String) (edges : Edges) :
    orderedGraph order edges = (edgeGraph (.insertion String) edges).reorder
      (fun a => (order a).iter) (fun a => (order a).perm) := rfl

/-- `analyze` returns a report in every order of the sets exactly when the
dependency graph is no deeper than the limit. -/
theorem analyzeWithin_isSome_iff_shallow (limit : Nat) (files : List File)
    (expectedRanks : Option (Finset Int)) (communicatorId : Option Int) :
    (∀ order, (analyzeWithin limit order files expectedRanks communicatorId).isSome) ↔
      (streamGraph (.insertion String) (selectRanks files).1
        (scanRanks (selectRanks files).1).1).Shallow limit := by
  rw [← returns_iff_shallow]
  constructor
  · intro hreports iter perm
    have hreport := hreports fun a => ⟨iter a, perm a⟩
    simp only [analyzeWithin, Option.isSome_map] at hreport
    exact hreport
  · intro hreturns order
    have hreturn := hreturns (fun a => (order a).iter) (fun a => (order a).perm)
    simp only [analyzeWithin, Option.isSome_map]
    exact hreturn

end HangAnalyzer.Analyzer
