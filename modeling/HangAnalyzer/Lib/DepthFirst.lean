import Mathlib.Data.List.Chain
import Mathlib.Data.List.Nodup
import Mathlib.Logic.Relation

/-!
# `HangAnalyzer.Lib.DepthFirst`: a recursive cycle search

`findCycles` is the depth-first search that collects a closed walk whenever it
meets a node of its own stack. It visits every node once, so it does not list
every cycle of the graph. It is a detector: what it lists are cycles
(`findCycles_sound`), no list twice (`findCycles_nodup`), and it lists none
exactly when the graph has none (`findCycles_eq_nil_iff`).

The order of the keys and of the successors is part of the graph, so the
theorems hold for every iteration order.

`visit` takes a bound on the nesting depth of its recursion and returns `none`
when it would exceed it. `Graph.Shallow` is a bound that suffices
(`findCyclesWithin_isSome`). The number of keys, plus one, is always one
(`Graph.shallow_keys`).

The induction is on the nesting bound. `Extends` says what a visit leaves
unchanged. `Searched` is the invariant. Its clause `settled` carries the
completeness: as long as nothing was listed, every finished node has all its
successors finished before it.
-/

set_option autoImplicit false

namespace HangAnalyzer.Lib

/-- A finite directed graph in the order in which a search iterates over it: the
nodes with a successor list, and the successors of a node. -/
structure Graph (α : Type) where
  keys : List α
  succ : α → List α
  mem_keys : ∀ a b, b ∈ succ a → a ∈ keys

namespace Graph

variable {α : Type}

/-- There is an edge from `a` to `b`. -/
def Edge (g : Graph α) (a b : α) : Prop := b ∈ g.succ a

/-- `c` is a closed walk along edges that repeats no node but the first. -/
def IsCycle (g : Graph α) (c : List α) : Prop :=
  ∃ a p, c = a :: p ++ [a] ∧ (a :: p).Nodup ∧ c.IsChain g.Edge

/-- No node reaches itself. -/
def Acyclic (g : Graph α) : Prop := ∀ a, ¬ Relation.TransGen g.Edge a a

end Graph

/-- The local variables of the search. -/
structure Search (α : Type) where
  cycles : List (List α)
  visiting : List α
  visited : List α
  stack : List α

namespace Search

variable {α : Type} [DecidableEq α]

/-- The variables before the search. -/
def start : Search α := ⟨[], [], [], []⟩

/-- Enter a node. -/
def enter (s : Search α) (node : α) : Search α :=
  { s with visiting := s.visiting ++ [node], stack := s.stack ++ [node] }

/-- Leave a node. -/
def leave (s : Search α) (node : α) : Search α :=
  { s with
    stack := s.stack.dropLast
    visiting := s.visiting.erase node
    visited := s.visited ++ [node] }

/-- The walk from `dest` along the stack and back to `dest`. -/
def cycleAt (s : Search α) (dest : α) : List α :=
  s.stack.drop (s.stack.idxOf dest) ++ [dest]

/-- List a cycle that is not listed yet. -/
def report (s : Search α) (cycle : List α) : Search α :=
  if cycle ∈ s.cycles then s else { s with cycles := s.cycles ++ [cycle] }

end Search

section
variable {α : Type} [DecidableEq α] (g : Graph α)

/-- One successor of the current node. `recur` visits it. -/
def look (recur : α → Search α → Option (Search α)) (s : Search α) (dest : α) :
    Option (Search α) :=
  if dest ∈ s.visiting then some (s.report (s.cycleAt dest))
  else if dest ∉ s.visited then recur dest s
  else some s

/-- Visit a node, with at most `limit` nested visits. -/
def visit : Nat → α → Search α → Option (Search α)
  | 0,         _,    _ => none
  | limit + 1, node, s => do
      let s ← (g.succ node).foldlM (look (visit limit)) (s.enter node)
      return s.leave node

/-- Visit the keys that are not visited yet. -/
def visitKeys (limit : Nat) (keys : List α) (s : Search α) : Option (Search α) :=
  keys.foldlM (fun s n => if n ∉ s.visited then visit g limit n s else some s) s

/-- The cycles the search lists with at most `limit` nested visits. -/
def findCyclesWithin (limit : Nat) : Option (List (List α)) :=
  (visitKeys g limit g.keys Search.start).map Search.cycles

/-- The cycles the search lists. The bound is more than any search needs. -/
def findCycles : List (List α) := (findCyclesWithin g (g.keys.length + 1)).getD []

end

/-! ### Acyclic graphs -/

namespace Graph

variable {α : Type} {g : Graph α}

/-- Every node of the list has all its successors before it. -/
def Settled (g : Graph α) (l : List α) : Prop :=
  ∀ pre v post, l = pre ++ v :: post → ∀ d ∈ g.succ v, d ∈ pre

/-- The empty list is settled. -/
theorem settled_nil : g.Settled [] := by
  intro pre v post h
  simp at h

/-- A node can be added when its successors are all there. -/
theorem Settled.concat {l : List α} {v : α} (h : g.Settled l) (hv : ∀ d ∈ g.succ v, d ∈ l) :
    g.Settled (l ++ [v]) := by
  intro pre w post heq d hd
  rcases List.eq_nil_or_concat post with rfl | ⟨post, x, rfl⟩
  · obtain ⟨rfl, hw⟩ := List.append_inj' heq rfl
    rw [List.cons.injEq] at hw
    exact hv d (hw.1 ▸ hd)
  · rw [List.concat_eq_append, ← List.cons_append, ← List.append_assoc] at heq
    exact h pre w post (List.append_inj' heq rfl).1 d hd

/-- The nodes a settled list reaches come before the node they are reached from. -/
theorem Settled.before {l : List α} (h : g.Settled l) {a b : α}
    (hab : Relation.TransGen g.Edge a b) :
    ∀ pre post, l = pre ++ a :: post → b ∈ pre := by
  induction hab using Relation.TransGen.head_induction_on with
  | single hedge =>
      intro pre post heq
      exact h pre _ post heq _ hedge
  | @head x y hedge _ ih =>
      intro pre post heq
      -- The successor comes before the node, and what it reaches before the successor.
      obtain ⟨pre', mid, rfl⟩ := List.append_of_mem (h pre x post heq y hedge)
      have hb := ih pre' (mid ++ x :: post) (by rw [heq]; simp)
      exact List.mem_append_left _ hb

/-- A graph whose nodes are settled in a list without repetition has no cycle. -/
theorem acyclic_of_settled {l : List α} (h : g.Settled l) (hnodup : l.Nodup)
    (hkeys : ∀ a ∈ g.keys, a ∈ l) : g.Acyclic := by
  intro a hcycle
  have hkey : a ∈ g.keys := by
    rcases Relation.TransGen.head'_iff.mp hcycle with ⟨b, hedge, -⟩
    exact g.mem_keys a b hedge
  obtain ⟨pre, post, rfl⟩ := List.append_of_mem (hkeys a hkey)
  have hpre := h.before hcycle pre post rfl
  rw [List.nodup_append] at hnodup
  exact hnodup.2.2 a hpre a List.mem_cons_self rfl

/-- A closed walk is a cycle of the graph. -/
theorem IsCycle.not_acyclic {c : List α} (h : g.IsCycle c) : ¬ g.Acyclic := by
  obtain ⟨a, p, rfl, -, hchain⟩ := h
  intro hacyclic
  have hwalk : ∀ (q : List α) (b : α), (b :: q ++ [a]).IsChain g.Edge →
      Relation.TransGen g.Edge b a := by
    intro q
    induction q with
    | nil =>
        intro b hb
        simp only [List.cons_append, List.nil_append, List.isChain_cons_cons] at hb
        exact .single hb.1
    | cons c q ih =>
        intro b hb
        simp only [List.cons_append, List.isChain_cons_cons] at hb
        exact .head hb.1 (ih c (by simpa using hb.2))
  exact hacyclic a (hwalk p a hchain)

end Graph

/-! ### The invariant -/

section
variable {α : Type} {g : Graph α} {s s' s'' : Search α}

/-- The invariant of the search: the two records of the current path agree, the
path is a walk, it shares no node with the finished ones, what is listed are
cycles, and while nothing is listed the finished nodes are settled. -/
structure Searched (g : Graph α) (s : Search α) : Prop where
  visiting : s.visiting = s.stack
  nodup : (s.stack ++ s.visited).Nodup
  path : s.stack.IsChain g.Edge
  cycle : ∀ c ∈ s.cycles, g.IsCycle c
  once : s.cycles.Nodup
  settled : s.cycles = [] → g.Settled s.visited

/-- The search starts with nothing on its path. -/
theorem searched_start (g : Graph α) : Searched g Search.start where
  visiting := rfl
  nodup := List.nodup_nil
  path := .nil
  cycle := by simp [Search.start]
  once := List.nodup_nil
  settled _ := g.settled_nil

/-- What a visit keeps: the path stays, and what is finished or listed stays so. -/
structure Extends (s s' : Search α) : Prop where
  stack : s'.stack = s.stack
  visited : s.visited ⊆ s'.visited
  cycles : s.cycles <+: s'.cycles

/-- A search goes on from itself. -/
theorem Extends.refl (s : Search α) : Extends s s :=
  ⟨rfl, fun _ h => h, List.prefix_rfl⟩

/-- A search that goes on twice goes on. -/
theorem Extends.trans (h : Extends s s') (h' : Extends s' s'') : Extends s s'' :=
  ⟨h'.stack.trans h.stack, fun _ hx => h'.visited (h.visited hx), h.cycles.trans h'.cycles⟩

/-- Nothing listed after the visit means nothing listed before. -/
theorem Extends.nil (h : Extends s s') (hnil : s'.cycles = []) : s.cycles = [] :=
  List.prefix_nil.mp (hnil ▸ h.cycles)

/-- A node the search may enter: it is new, and the last node of the path leads
to it. -/
structure Next (g : Graph α) (s : Search α) (node : α) : Prop where
  not_stack : node ∉ s.stack
  not_visited : node ∉ s.visited
  edge : ∀ a ∈ s.stack.getLast?, g.Edge a node

/-- A new node continues the path. -/
theorem searched_enter {node : α} (h : Searched g s) (hn : Next g s node) :
    Searched g (s.enter node) where
  visiting := by simp only [Search.enter, h.visiting]
  nodup := by
    simp only [Search.enter, List.append_assoc, List.singleton_append]
    rw [List.nodup_middle, List.nodup_cons, List.mem_append, not_or]
    exact ⟨⟨hn.not_stack, hn.not_visited⟩, h.nodup⟩
  path := by
    simp only [Search.enter]
    rw [List.isChain_append]
    refine ⟨h.path, List.isChain_singleton _, fun a ha b hb => ?_⟩
    rw [List.head?_cons, Option.mem_some] at hb
    exact hb ▸ hn.edge a ha
  cycle := h.cycle
  once := h.once
  settled := h.settled

variable [DecidableEq α]

/-- Leaving a node whose successors are finished, unless something is listed. -/
theorem searched_leave {node : α} {path : List α} (h : Searched g s)
    (hstack : s.stack = path ++ [node])
    (hsucc : s.cycles = [] → ∀ d ∈ g.succ node, d ∈ s.visited) :
    Searched g (s.leave node) where
  visiting := by
    -- The path has no node twice, so it is the last occurrence that is erased.
    have hnot : node ∉ path := by
      have hnodup := (List.nodup_append.mp h.nodup).1
      rw [hstack, List.nodup_append] at hnodup
      exact fun hmem => hnodup.2.2 node hmem node (List.mem_singleton_self _) rfl
    simp only [Search.leave, h.visiting, hstack, List.dropLast_concat]
    rw [List.erase_append_right _ hnot]
    simp
  nodup := by
    have hnodup := h.nodup
    simp only [Search.leave, hstack, List.dropLast_concat] at hnodup ⊢
    -- The node moves from the end of the path to the finished ones.
    refine (List.Perm.nodup_iff ?_).mp hnodup
    rw [List.append_assoc]
    exact List.Perm.append_left _ List.perm_append_comm
  path := h.path.dropLast
  cycle := h.cycle
  once := h.once
  settled hnil := (h.settled hnil).concat (hsucc hnil)

/-- The walk along the stack is a cycle. -/
theorem isCycle_cycleAt {dest : α} (h : Searched g s) (hdest : dest ∈ s.stack)
    (hedge : ∀ a ∈ s.stack.getLast?, g.Edge a dest) : g.IsCycle (s.cycleAt dest) := by
  have hlt : s.stack.idxOf dest < s.stack.length := List.idxOf_lt_length_iff.mpr hdest
  have hdrop : s.stack.drop (s.stack.idxOf dest)
      = dest :: s.stack.drop (s.stack.idxOf dest + 1) := by
    rw [List.drop_eq_getElem_cons hlt, List.getElem_idxOf]
  refine ⟨dest, s.stack.drop (s.stack.idxOf dest + 1), ?_, ?_, ?_⟩
  · rw [Search.cycleAt, hdrop]
  · rw [← hdrop]
    exact (List.nodup_append.mp h.nodup).1.sublist (List.drop_sublist _ _)
  · rw [Search.cycleAt, List.isChain_append]
    refine ⟨h.path.drop _, List.isChain_singleton _, fun a ha b hb => ?_⟩
    rw [List.head?_cons, Option.mem_some] at hb
    rw [List.getLast?_drop, if_neg (by omega)] at ha
    exact hb ▸ hedge a ha

/-- A cycle that is reported is one more. -/
theorem searched_report {c : List α} (h : Searched g s) (hc : g.IsCycle c) :
    Searched g (s.report c) ∧ Extends s (s.report c) ∧ (s.report c).cycles ≠ [] := by
  unfold Search.report
  split
  · -- A cycle that was reported before is not listed again.
    rename_i hmem
    exact ⟨h, .refl s, List.ne_nil_of_mem hmem⟩
  · rename_i hmem
    refine ⟨⟨h.visiting, h.nodup, h.path, ?_, ?_, ?_⟩,
      ⟨rfl, fun _ hx => hx, List.prefix_append _ _⟩, by simp⟩
    · intro c' hc'
      rcases List.mem_append.mp hc' with hold | hnew
      · exact h.cycle c' hold
      · exact List.mem_singleton.mp hnew ▸ hc
    · rw [List.nodup_append]
      refine ⟨h.once, List.nodup_singleton _, fun a ha b hb hab => hmem ?_⟩
      rwa [← List.mem_singleton.mp hb, ← hab]
    · intro hnil
      simp at hnil

/-! ### The visits -/

/-- What a recursive visit does when it returns. -/
def Visits (g : Graph α) (recur : α → Search α → Option (Search α)) : Prop :=
  ∀ node s s', Searched g s → Next g s node → recur node s = some s' →
    Searched g s' ∧ Extends s s' ∧ node ∈ s'.visited

/-- One successor: it is finished afterwards, or a cycle is listed. -/
theorem look_spec {recur : α → Search α → Option (Search α)} (hrecur : Visits g recur)
    {dest : α} (h : Searched g s) (hedge : ∀ a ∈ s.stack.getLast?, g.Edge a dest)
    (hlook : look recur s dest = some s') :
    Searched g s' ∧ Extends s s' ∧ (s'.cycles = [] → dest ∈ s'.visited) := by
  unfold look at hlook
  rw [h.visiting] at hlook
  split at hlook
  · -- The node is on the path, so an edge leads back and closes a cycle.
    rename_i hmem
    rw [Option.some.injEq] at hlook
    subst hlook
    obtain ⟨hs, hext, hne⟩ := searched_report h (isCycle_cycleAt h hmem hedge)
    exact ⟨hs, hext, fun hnil => absurd hnil hne⟩
  · rename_i hstack
    split at hlook
    · -- The node is new, and its visit is that of the induction.
      rename_i hvisited
      obtain ⟨hs, hext, hmem⟩ := hrecur dest s s' h ⟨hstack, hvisited, hedge⟩ hlook
      exact ⟨hs, hext, fun _ => hmem⟩
    · rename_i hvisited
      rw [Option.some.injEq] at hlook
      subst hlook
      exact ⟨h, .refl s, fun _ => not_not.mp hvisited⟩

/-- All successors of the last node of the path. -/
theorem look_fold {recur : α → Search α → Option (Search α)} (hrecur : Visits g recur)
    (dests : List α) (h : Searched g s)
    (hedge : ∀ d ∈ dests, ∀ a ∈ s.stack.getLast?, g.Edge a d)
    (hfold : dests.foldlM (look recur) s = some s') :
    Searched g s' ∧ Extends s s' ∧ (s'.cycles = [] → ∀ d ∈ dests, d ∈ s'.visited) := by
  -- After a node the path is the same again, so the edges to the rest still start at its end.
  induction dests generalizing s with
  | nil =>
      rw [List.foldlM_nil, Option.pure_def, Option.some.injEq] at hfold
      subst hfold
      exact ⟨h, .refl s, by simp⟩
  | cons d dests ih =>
      rw [List.foldlM_cons, Option.bind_eq_bind, Option.bind_eq_some_iff] at hfold
      obtain ⟨t, hlook, hrest⟩ := hfold
      obtain ⟨ht, hst, hd⟩ := look_spec hrecur h (hedge d List.mem_cons_self) hlook
      obtain ⟨hs', hts', hds⟩ := ih ht
        (fun e he => hst.stack ▸ hedge e (List.mem_cons_of_mem _ he)) hrest
      refine ⟨hs', hst.trans hts', fun hnil e he => ?_⟩
      rcases List.mem_cons.mp he with rfl | he
      · exact hts'.visited (hd (hts'.nil hnil))
      · exact hds hnil e he

/-- A visit keeps the invariant and finishes its node. The induction is on the
nesting bound. -/
theorem visits_visit (g : Graph α) (limit : Nat) : Visits g (visit g limit) := by
  -- The bound is that of the nesting; below the node there is one level less.
  induction limit with
  | zero =>
      intro node s s' _ _ hvisit
      simp [visit] at hvisit
  | succ limit ih =>
      intro node s s' h hn hvisit
      simp only [visit, Option.pure_def, Option.bind_eq_bind, Option.bind_eq_some_iff,
        Option.some.injEq] at hvisit
      obtain ⟨t, hfold, rfl⟩ := hvisit
      have hlast : (s.enter node).stack.getLast? = some node := by
        simp [Search.enter]
      obtain ⟨ht, hext, hsucc⟩ := look_fold ih (g.succ node) (searched_enter h hn)
        (fun d hd a ha => by
          rw [hlast, Option.mem_some] at ha
          exact ha ▸ hd) hfold
      -- The calls below leave the path as they found it, so the node is still at its end.
      have hstack : t.stack = s.stack ++ [node] := hext.stack
      refine ⟨searched_leave ht hstack hsucc, ⟨?_, ?_, hext.cycles⟩, ?_⟩
      · simp [Search.leave, hstack]
      · exact fun x hx => List.mem_append_left _ (hext.visited hx)
      · simp [Search.leave]

/-- The search over the keys keeps the invariant and finishes all of them. -/
theorem visitKeys_spec (limit : Nat) (keys : List α) (h : Searched g s) (hstack : s.stack = [])
    (hkeys : visitKeys g limit keys s = some s') :
    Searched g s' ∧ Extends s s' ∧ ∀ k ∈ keys, k ∈ s'.visited := by
  -- Between the keys the path is empty.
  induction keys generalizing s with
  | nil =>
      rw [visitKeys, List.foldlM_nil, Option.pure_def, Option.some.injEq] at hkeys
      subst hkeys
      exact ⟨h, .refl s, by simp⟩
  | cons k keys ih =>
      rw [visitKeys, List.foldlM_cons, Option.bind_eq_bind, Option.bind_eq_some_iff] at hkeys
      obtain ⟨t, hk, hrest⟩ := hkeys
      have hstep : Searched g t ∧ Extends s t ∧ k ∈ t.visited := by
        -- Only a key that is new is visited.
        split at hk
        · rename_i hnew
          exact visits_visit g limit k s t h ⟨by simp [hstack], hnew, by simp [hstack]⟩ hk
        · rename_i hold
          rw [Option.some.injEq] at hk
          subst hk
          exact ⟨h, .refl s, not_not.mp hold⟩
      obtain ⟨ht, hst, hmem⟩ := hstep
      obtain ⟨hs', hts', hall⟩ := ih ht (hst.stack.trans hstack) hrest
      refine ⟨hs', hst.trans hts', fun j hj => ?_⟩
      rcases List.mem_cons.mp hj with rfl | hj
      · exact hts'.visited hmem
      · exact hall j hj

/-! ### What is reached -/

/-- The successors of the finished nodes are finished or on the path. -/
def Explored (g : Graph α) (s : Search α) : Prop :=
  ∀ v ∈ s.visited, ∀ d ∈ g.succ v, d ∈ s.visited ∨ d ∈ s.stack

/-- A recursive visit keeps the finished nodes explored. -/
def Explores (g : Graph α) (recur : α → Search α → Option (Search α)) : Prop :=
  ∀ node s s', Searched g s → Next g s node → Explored g s → recur node s = some s' →
    Explored g s'

/-- One successor: it is finished afterwards, or it lies on the path. -/
theorem look_explored {recur : α → Search α → Option (Search α)} (hrecur : Visits g recur)
    (hexplores : Explores g recur) {dest : α} (h : Searched g s) (hs : Explored g s)
    (hedge : ∀ a ∈ s.stack.getLast?, g.Edge a dest) (hlook : look recur s dest = some s') :
    Explored g s' ∧ (dest ∈ s'.visited ∨ dest ∈ s'.stack) := by
  unfold look at hlook
  rw [h.visiting] at hlook
  split at hlook
  · rename_i hmem
    rw [Option.some.injEq] at hlook
    subst hlook
    -- The node is on the path, whether its cycle is new or not.
    unfold Search.report
    split
    · exact ⟨hs, Or.inr hmem⟩
    · exact ⟨hs, Or.inr hmem⟩
  · rename_i hstack
    split at hlook
    · rename_i hvisited
      have hnext : Next g s dest := ⟨hstack, hvisited, hedge⟩
      exact ⟨hexplores dest s s' h hnext hs hlook, Or.inl (hrecur dest s s' h hnext hlook).2.2⟩
    · rename_i hvisited
      rw [Option.some.injEq] at hlook
      subst hlook
      exact ⟨hs, Or.inl (not_not.mp hvisited)⟩

/-- All successors of the last node of the path. -/
theorem look_fold_explored {recur : α → Search α → Option (Search α)} (hrecur : Visits g recur)
    (hexplores : Explores g recur) (dests : List α) (h : Searched g s) (hs : Explored g s)
    (hedge : ∀ d ∈ dests, ∀ a ∈ s.stack.getLast?, g.Edge a d)
    (hfold : dests.foldlM (look recur) s = some s') :
    Explored g s' ∧ ∀ d ∈ dests, d ∈ s'.visited ∨ d ∈ s'.stack := by
  -- What the first node has found stays found while the others are looked at.
  induction dests generalizing s with
  | nil =>
      rw [List.foldlM_nil, Option.pure_def, Option.some.injEq] at hfold
      subst hfold
      exact ⟨hs, by simp⟩
  | cons d dests ih =>
      rw [List.foldlM_cons, Option.bind_eq_bind, Option.bind_eq_some_iff] at hfold
      obtain ⟨t, hlook, hrest⟩ := hfold
      have hd := hedge d List.mem_cons_self
      obtain ⟨ht, hst, -⟩ := look_spec hrecur h hd hlook
      obtain ⟨hexplored, hmem⟩ := look_explored hrecur hexplores h hs hd hlook
      have hedges : ∀ e ∈ dests, ∀ a ∈ t.stack.getLast?, g.Edge a e :=
        fun e he => hst.stack ▸ hedge e (List.mem_cons_of_mem _ he)
      obtain ⟨-, hts', -⟩ := look_fold hrecur dests ht hedges hrest
      obtain ⟨hs', hds⟩ := ih ht hexplored hedges hrest
      refine ⟨hs', fun e he => ?_⟩
      rcases List.mem_cons.mp he with rfl | he
      · exact hmem.imp (fun hv => hts'.visited hv) (fun hv => hts'.stack ▸ hv)
      · exact hds e he

/-- A visit keeps the finished nodes explored. -/
theorem explores_visit (g : Graph α) (limit : Nat) : Explores g (visit g limit) := by
  induction limit with
  | zero =>
      intro node s s' _ _ _ hvisit
      simp [visit] at hvisit
  | succ limit ih =>
      intro node s s' h hn hs hvisit
      simp only [visit, Option.pure_def, Option.bind_eq_bind, Option.bind_eq_some_iff,
        Option.some.injEq] at hvisit
      obtain ⟨t, hfold, rfl⟩ := hvisit
      have hedge : ∀ d ∈ g.succ node, ∀ a ∈ (s.enter node).stack.getLast?, g.Edge a d := by
        intro d hd a ha
        rw [Search.enter, List.getLast?_concat, Option.mem_some] at ha
        exact ha ▸ hd
      have hentered : Explored g (s.enter node) := fun v hv d hd =>
        (hs v hv d hd).imp id (List.mem_append_left _)
      have hstack : t.stack = s.stack ++ [node] :=
        (look_fold (visits_visit g limit) _ (searched_enter h hn) hedge hfold).2.1.stack
      obtain ⟨ht, hsucc⟩ := look_fold_explored (visits_visit g limit) ih _
        (searched_enter h hn) hentered hedge hfold
      -- A successor that was on the path is the node itself, or is on the path still.
      have hleave : ∀ d, d ∈ t.visited ∨ d ∈ t.stack →
          d ∈ (t.leave node).visited ∨ d ∈ (t.leave node).stack := by
        intro d hd
        simp only [Search.leave, hstack, List.dropLast_concat, List.mem_append,
          List.mem_singleton] at hd ⊢
        tauto
      intro v hv d hd
      rcases List.mem_append.mp hv with hv | hv
      · exact hleave d (ht v hv d hd)
      · obtain rfl := List.mem_singleton.mp hv
        exact hleave d (hsucc d hd)

omit [DecidableEq α] in
/-- Between two keys, the finished nodes contain all that they reach. -/
theorem Explored.reach (hs : Explored g s) (hstack : s.stack = []) {a b : α}
    (h : Relation.ReflTransGen g.Edge a b) (ha : a ∈ s.visited) : b ∈ s.visited := by
  induction h with
  | refl => exact ha
  | tail _ hedge ih =>
      rcases hs _ ih _ hedge with hv | hv
      · exact hv
      · rw [hstack] at hv
        exact absurd hv List.not_mem_nil

/-! ### The nesting bound -/

/-- A simple path that continues the current one at `node`, through nodes that
are not finished, has at most `n` nodes from there on. -/
def Room (g : Graph α) (s : Search α) (node : α) (n : Nat) : Prop :=
  ∀ p, p.head? = some node → (s.stack ++ p).Nodup → (s.stack ++ p).IsChain g.Edge →
    (∀ x ∈ p, x ∉ s.visited) → p.length ≤ n

/-- A visit returns if there is room for the paths it may follow. -/
theorem visit_isSome (g : Graph α) (limit : Nat) :
    ∀ node s, Searched g s → Next g s node → Room g s node limit →
      ∃ s', visit g limit node s = some s' := by
  induction limit with
  | zero =>
      intro node s h hn hroom
      have henter := searched_enter h hn
      have hle := hroom [node] rfl (List.nodup_append.mp henter.nodup).1 henter.path
        (by simpa using hn.not_visited)
      simp at hle
  | succ limit ih =>
      intro node s h hn hroom
      have hfold : ∀ (dests : List α) (t : Search α), (∀ d ∈ dests, g.Edge node d) →
          Searched g t → t.stack = s.stack ++ [node] → s.visited ⊆ t.visited →
          ∃ t', dests.foldlM (look (visit g limit)) t = some t' := by
        intro dests
        induction dests with
        | nil => exact fun t _ _ _ _ => ⟨t, rfl⟩
        | cons d dests ihd =>
            intro t hedges ht hstack hvis
            have hedge : ∀ a ∈ t.stack.getLast?, g.Edge a d := by
              intro a ha
              rw [hstack, List.getLast?_concat, Option.mem_some] at ha
              exact ha ▸ hedges d List.mem_cons_self
            -- The room at `d` is that at `node` without `node` itself.
            have hroom' : Room g t d limit := by
              intro p hhead hnodup hchain hnew
              rw [hstack, List.append_assoc, List.singleton_append] at hnodup hchain
              have hle := hroom (node :: p) rfl hnodup hchain (by
                intro x hx
                rcases List.mem_cons.mp hx with rfl | hx
                · exact hn.not_visited
                · exact fun hmem => hnew x hx (hvis hmem))
              rw [List.length_cons] at hle
              omega
            have hlook : ∃ u, look (visit g limit) t d = some u := by
              unfold look
              split
              · exact ⟨_, rfl⟩
              · rename_i hvisiting
                split
                · rename_i hvisited
                  rw [ht.visiting] at hvisiting
                  exact ih d t ht ⟨hvisiting, hvisited, hedge⟩ hroom'
                · exact ⟨_, rfl⟩
            obtain ⟨u, hu⟩ := hlook
            obtain ⟨hsu, hext, -⟩ := look_spec (visits_visit g limit) ht hedge hu
            obtain ⟨t', ht'⟩ := ihd u (fun e he => hedges e (List.mem_cons_of_mem _ he)) hsu
              (hext.stack.trans hstack) (List.Subset.trans hvis hext.visited)
            refine ⟨t', ?_⟩
            rw [List.foldlM_cons, hu]
            exact ht'
      obtain ⟨t, ht⟩ := hfold (g.succ node) (s.enter node) (fun d hd => hd) (searched_enter h hn)
        rfl (List.Subset.refl _)
      exact ⟨t.leave node, by simp [visit, ht]⟩

/-- A simple path that starts at a key and meets no node that an earlier key
reaches has at most `n` nodes. -/
def Graph.Shallow (g : Graph α) (n : Nat) : Prop :=
  ∀ pre k post p, g.keys = pre ++ k :: post → (k :: p).Nodup → (k :: p).IsChain g.Edge →
    (∀ j ∈ pre, ∀ x ∈ k :: p, ¬ Relation.ReflTransGen g.Edge j x) → (k :: p).length ≤ n

omit [DecidableEq α] in
/-- Every node of a walk but the last has an edge. -/
theorem exists_edge_of_isChain {R : α → α → Prop} {l : List α} (h : l.IsChain R) :
    ∀ a ∈ l.dropLast, ∃ b, R a b := by
  induction l with
  | nil => simp
  | cons a l ih =>
      cases l with
      | nil => simp
      | cons b l =>
          rw [List.isChain_cons_cons] at h
          intro x hx
          rw [List.dropLast_cons_cons, List.mem_cons] at hx
          rcases hx with rfl | hx
          · exact ⟨b, h.1⟩
          · exact ih h.2 x hx

omit [DecidableEq α] in
/-- No simple path has more nodes than there are keys, plus one. -/
theorem Graph.shallow_keys (g : Graph α) : g.Shallow (g.keys.length + 1) := by
  intro pre k post p _ hnodup hchain _
  have hkeys : ∀ a ∈ (k :: p).dropLast, a ∈ g.keys := by
    intro a ha
    obtain ⟨b, hedge⟩ := exists_edge_of_isChain hchain a ha
    exact g.mem_keys a b hedge
  have hlen := (hnodup.sublist (List.dropLast_sublist _)).length_le_of_subset hkeys
  rw [List.length_dropLast] at hlen
  omega

/-- The search over the keys returns within the depth of the graph. -/
theorem visitKeys_isSome {limit : Nat} (hlimit : g.Shallow limit) {pre : List α} (keys : List α)
    (hkeys : g.keys = pre ++ keys) (h : Searched g s) (hexplored : Explored g s)
    (hstack : s.stack = []) (hpre : ∀ j ∈ pre, j ∈ s.visited) :
    ∃ s', visitKeys g limit keys s = some s' := by
  -- The keys before the next one are explored, so its visit has room within the bound.
  induction keys generalizing s pre with
  | nil => exact ⟨s, rfl⟩
  | cons k keys ih =>
      have hk : ∃ t, (if k ∉ s.visited then visit g limit k s else some s) = some t ∧
          Explored g t := by
        split
        · rename_i hnew
          have hnext : Next g s k := ⟨by simp [hstack], hnew, by simp [hstack]⟩
          have hroom : Room g s k limit := by
            intro p hhead hnodup hchain hfresh
            obtain ⟨q, rfl⟩ := List.head?_eq_some_iff.mp hhead
            rw [hstack, List.nil_append] at hnodup hchain
            refine hlimit pre k keys q hkeys hnodup hchain fun j hj x hx hreach => ?_
            -- A node that an earlier key reaches was found by its visit, so it is not on the
            -- new path.
            exact hfresh x hx (hexplored.reach hstack hreach (hpre j hj))
          obtain ⟨t, ht⟩ := visit_isSome g limit k s h hnext hroom
          exact ⟨t, ht, explores_visit g limit k s t h hnext hexplored ht⟩
        · exact ⟨s, rfl, hexplored⟩
      obtain ⟨t, ht, hexplored'⟩ := hk
      have hone : visitKeys g limit [k] s = some t := by
        rw [visitKeys, List.foldlM_cons, ht]
        rfl
      obtain ⟨hst, hext, hmem⟩ := visitKeys_spec limit [k] h hstack hone
      obtain ⟨s', hs'⟩ := ih (hkeys.trans (List.append_cons pre k keys)) hst hexplored'
        (hext.stack.trans hstack) (by
          intro j hj
          rcases List.mem_append.mp hj with hj | hj
          · exact hext.visited (hpre j hj)
          · exact hmem j hj)
      refine ⟨s', ?_⟩
      rw [visitKeys, List.foldlM_cons, ht]
      exact hs'

/-- The search returns within the depth of the graph. -/
theorem findCyclesWithin_isSome {limit : Nat} (hlimit : g.Shallow limit) :
    ∃ s, visitKeys g limit g.keys Search.start = some s := by
  have hnone : ∀ v, v ∉ (Search.start : Search α).visited := fun _ => List.not_mem_nil
  exact visitKeys_isSome hlimit g.keys (List.nil_append _).symm (searched_start g)
    (fun v hv => absurd hv (hnone v)) rfl (fun j hj => absurd hj List.not_mem_nil)

/-! ### The detector -/

variable (g)

/-- The search ends in a state of the invariant with all keys finished. -/
theorem findCycles_spec : ∃ s : Search α, Searched g s ∧ findCycles g = s.cycles ∧
    ∀ k ∈ g.keys, k ∈ s.visited := by
  obtain ⟨s, hs⟩ := findCyclesWithin_isSome g.shallow_keys
  obtain ⟨hsearched, -, hall⟩ := visitKeys_spec _ g.keys (searched_start g) rfl hs
  exact ⟨s, hsearched, by simp [findCycles, findCyclesWithin, hs], hall⟩

/-- What the search lists are cycles. -/
theorem findCycles_sound {c : List α} (hc : c ∈ findCycles g) : g.IsCycle c := by
  obtain ⟨s, hs, heq, -⟩ := findCycles_spec g
  exact hs.cycle c (heq ▸ hc)

/-- No cycle is listed twice. -/
theorem findCycles_nodup : (findCycles g).Nodup := by
  obtain ⟨s, hs, heq, -⟩ := findCycles_spec g
  exact heq ▸ hs.once

/-- **The search detects cycles**: it lists none exactly when there are none. -/
theorem findCycles_eq_nil_iff : findCycles g = [] ↔ g.Acyclic := by
  constructor
  · intro hnil
    obtain ⟨s, hs, heq, hall⟩ := findCycles_spec g
    exact Graph.acyclic_of_settled (hs.settled (heq ▸ hnil)) (List.nodup_append.mp hs.nodup).2.1
      hall
  · intro hacyclic
    rw [List.eq_nil_iff_forall_not_mem]
    exact fun c hc => (findCycles_sound g hc).not_acyclic hacyclic

end

end HangAnalyzer.Lib
