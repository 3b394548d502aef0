import HangAnalyzer.Lib.DepthFirst

/-!
# `HangAnalyzer.Lib.SearchDepth`: how deep the search nests

A search that is bound to `limit` nested visits does not return on every graph,
and whether it does depends on the order in which it takes the successors.
`returns_iff_shallow` says when it returns in every order of the successors:
exactly when no simple path of more than `limit` nodes starts at a key and
avoids what the earlier keys reach.

The keys before the start of a path are finished when the search comes to it, and
all they reach is (`Explored.reach`), so the rest of the graph is all the search
still follows. Conversely, a path is followed to its end if each of its nodes
is the first successor of the one before it (`visit_eq_none`), and some order
of the successors makes it so (`followed`).
-/

set_option autoImplicit false

namespace HangAnalyzer.Lib

variable {α : Type}

/-- The same graph with another order of the successors of each node. -/
def Graph.reorder (g : Graph α) (iter : α → List α → List α)
    (perm : ∀ a l, (iter a l).Perm l) : Graph α where
  keys := g.keys
  succ a := iter a (g.succ a)
  mem_keys a b hb := g.mem_keys a b ((perm a _).mem_iff.mp hb)

section
variable {g : Graph α} {iter : α → List α → List α} {perm : ∀ a l, (iter a l).Perm l}

/-- Another order of the search has the same edges. -/
@[simp] theorem Graph.edge_reorder : (g.reorder iter perm).Edge = g.Edge := by
  funext a b
  exact propext (perm a _).mem_iff

/-- Another order of the search has the same start nodes. -/
@[simp] theorem Graph.keys_reorder : (g.reorder iter perm).keys = g.keys := rfl

/-- The depth of a graph is no matter of the order. -/
@[simp] theorem Graph.shallow_reorder {n : Nat} :
    (g.reorder iter perm).Shallow n ↔ g.Shallow n := by
  unfold Graph.Shallow
  simp only [Graph.edge_reorder, Graph.keys_reorder]

end

variable [DecidableEq α] {g : Graph α} {s s' : Search α}

/-! ### What a visit finishes -/

/-- A recursive visit finishes no more than its node reaches. -/
def Finds (g : Graph α) (recur : α → Search α → Option (Search α)) : Prop :=
  ∀ node s s', recur node s = some s' →
    ∀ x ∈ s'.visited, x ∈ s.visited ∨ Relation.ReflTransGen g.Edge node x

/-- A look finds what can be reached from its node. -/
theorem look_finds {recur : α → Search α → Option (Search α)} (hrecur : Finds g recur)
    {dest : α} (hlook : look recur s dest = some s') {x : α} (hx : x ∈ s'.visited) :
    x ∈ s.visited ∨ Relation.ReflTransGen g.Edge dest x := by
  unfold look at hlook
  split at hlook
  · -- A node on the stack is only reported.
    rw [Option.some.injEq] at hlook
    subst hlook
    unfold Search.report at hx
    split at hx
    · exact Or.inl hx
    · exact Or.inl hx
  · split at hlook
    · exact hrecur dest s s' hlook x hx
    · rw [Option.some.injEq] at hlook
      exact Or.inl (hlook ▸ hx)

/-- The looks at the successors find what can be reached from the node. -/
theorem look_fold_finds {recur : α → Search α → Option (Search α)} (hrecur : Finds g recur)
    {node : α} (dests : List α) (hedge : ∀ d ∈ dests, g.Edge node d)
    (hfold : dests.foldlM (look recur) s = some s') {x : α} (hx : x ∈ s'.visited) :
    x ∈ s.visited ∨ Relation.ReflTransGen g.Edge node x := by
  induction dests generalizing s with
  | nil =>
      rw [List.foldlM_nil, Option.pure_def, Option.some.injEq] at hfold
      exact Or.inl (hfold ▸ hx)
  | cons d dests ih =>
      rw [List.foldlM_cons, Option.bind_eq_bind, Option.bind_eq_some_iff] at hfold
      obtain ⟨t, hlook, hrest⟩ := hfold
      rcases ih (fun e he => hedge e (List.mem_cons_of_mem _ he)) hrest with ht | hreach
      · -- What was found from the edge is reached from the node.
        exact (look_finds hrecur hlook ht).imp id (.head (hedge d List.mem_cons_self))
      · exact Or.inr hreach

/-- A visit finishes no more than its node reaches. -/
theorem finds_visit (g : Graph α) (limit : Nat) : Finds g (visit g limit) := by
  induction limit with
  | zero =>
      intro node s s' hvisit
      simp [visit] at hvisit
  | succ limit ih =>
      intro node s s' hvisit x hx
      simp only [visit, Option.pure_def, Option.bind_eq_bind, Option.bind_eq_some_iff,
        Option.some.injEq] at hvisit
      obtain ⟨t, hfold, rfl⟩ := hvisit
      rcases List.mem_append.mp hx with hx | hx
      · exact look_fold_finds ih _ (fun d hd => hd) hfold hx
      · exact Or.inr (List.mem_singleton.mp hx ▸ .refl)

/-- The search over some keys finishes no more than they reach. -/
theorem visitKeys_finds {limit : Nat} (keys : List α) (hkeys : visitKeys g limit keys s = some s')
    {x : α} (hx : x ∈ s'.visited) :
    x ∈ s.visited ∨ ∃ k ∈ keys, Relation.ReflTransGen g.Edge k x := by
  induction keys generalizing s with
  | nil =>
      rw [visitKeys, List.foldlM_nil, Option.pure_def, Option.some.injEq] at hkeys
      exact Or.inl (hkeys ▸ hx)
  | cons k keys ih =>
      rw [visitKeys, List.foldlM_cons, Option.bind_eq_bind, Option.bind_eq_some_iff] at hkeys
      obtain ⟨t, hk, hrest⟩ := hkeys
      rcases ih hrest with ht | ⟨j, hj, hreach⟩
      · -- The key is searched, or it was visited before.
        split at hk
        · rcases finds_visit g limit k s t hk x ht with hs | hreach
          · exact Or.inl hs
          · exact Or.inr ⟨k, List.mem_cons_self, hreach⟩
        · rw [Option.some.injEq] at hk
          exact Or.inl (hk ▸ ht)
      · exact Or.inr ⟨j, List.mem_cons_of_mem _ hj, hreach⟩

/-! ### A path that is followed to its end -/

/-- Each node of the path is the first successor of the node before it. -/
def Followed (g : Graph α) (path : List α) : Prop :=
  path.IsChain fun a b => (g.succ a).head? = some b

omit [DecidableEq α] in
/-- A walk along only edges is followed in every order. -/
theorem followed_of_only {path : List α}
    (h : path.IsChain fun a b => ∀ c, g.Edge a c ↔ c = b) : Followed g path := by
  refine h.imp fun a b honly => ?_
  cases hsucc : g.succ a with
  | nil => exact absurd ((honly b).mpr rfl) (by simp [Graph.Edge, hsucc])
  | cons c dests =>
      have hc : c = b := (honly c).mp (by simp [Graph.Edge, hsucc])
      rw [hc, List.head?_cons]

/-- A path of new nodes that is longer than the bound exceeds it. -/
theorem visit_eq_none (limit : Nat) (node : α) (p : List α) (hvisiting : s.visiting = s.stack)
    (hfollowed : Followed g (node :: p)) (hnodup : (s.stack ++ node :: p).Nodup)
    (hnew : ∀ x ∈ node :: p, x ∉ s.visited) (hlong : limit < (node :: p).length) :
    visit g limit node s = none := by
  induction limit generalizing node p s with
  | zero => rfl
  | succ limit ih =>
      cases p with
      | nil =>
          rw [List.length_singleton] at hlong
          omega
      | cons b p =>
          rw [Followed, List.isChain_cons_cons] at hfollowed
          obtain ⟨hhead, hrest⟩ := hfollowed
          obtain ⟨dests, hsucc⟩ := List.head?_eq_some_iff.mp hhead
          rw [← List.singleton_append, ← List.append_assoc] at hnodup
          have hvisiting' : (s.enter node).visiting = (s.enter node).stack := by
            simp only [Search.enter, hvisiting]
          have hnone := ih b p hvisiting' hrest hnodup
            (fun x hx => hnew x (List.mem_cons_of_mem _ hx))
            (by rw [List.length_cons] at hlong; omega)
          -- The first successor is new, so it is visited, and that visit fails.
          have hstack : b ∉ (s.enter node).visiting := by
            rw [hvisiting']
            intro hmem
            exact (List.nodup_append.mp hnodup).2.2 b hmem b List.mem_cons_self rfl
          have hvisited : b ∉ (s.enter node).visited :=
            hnew b (List.mem_cons_of_mem _ List.mem_cons_self)
          have hlook : look (visit g limit) (s.enter node) b = none := by
            rw [look, if_neg hstack, if_pos hvisited, hnone]
          rw [visit, hsucc, List.foldlM_cons, hlook]
          rfl

/-- A path that starts at a key, meets no node that an earlier key reaches and is
longer than the bound makes the search exceed it. -/
theorem visitKeys_eq_none {limit : Nat} {pre post : List α} {k : α} {p : List α}
    (hkeys : g.keys = pre ++ k :: post) (hfollowed : Followed g (k :: p)) (hnodup : (k :: p).Nodup)
    (hfresh : ∀ j ∈ pre, ∀ x ∈ k :: p, ¬ Relation.ReflTransGen g.Edge j x)
    (hlong : limit < (k :: p).length) : visitKeys g limit g.keys Search.start = none := by
  rw [hkeys, visitKeys, List.foldlM_append]
  -- The keys before `k` reach nothing of the walk.
  cases hpre : visitKeys g limit pre Search.start with
  | none =>
      rw [visitKeys] at hpre
      rw [hpre]
      rfl
  | some s =>
      obtain ⟨hs, hext, -⟩ := visitKeys_spec limit pre (searched_start g) rfl hpre
      have hstack : s.stack = [] := hext.stack
      have hnew : ∀ x ∈ k :: p, x ∉ s.visited := by
        intro x hx hmem
        rcases visitKeys_finds pre hpre hmem with hstart | ⟨j, hj, hreach⟩
        · exact absurd hstart List.not_mem_nil
        · exact hfresh j hj x hx hreach
      have hnone := visit_eq_none limit k p hs.visiting hfollowed
        (by rwa [hstack, List.nil_append]) hnew hlong
      rw [visitKeys] at hpre
      rw [hpre, Option.bind_eq_bind, Option.bind_some, List.foldlM_cons,
        if_pos (hnew k List.mem_cons_self), hnone]
      rfl

/-! ### An order that follows a path -/

/-- Take the next node of the path first. -/
def follow (path : List α) (a : α) (l : List α) : List α :=
  match path[path.idxOf a + 1]? with
  | some b => if b ∈ l then b :: l.erase b else l
  | none   => l

/-- The order that follows a path has the same elements. -/
theorem follow_perm (path : List α) (a : α) (l : List α) : (follow path a l).Perm l := by
  unfold follow
  split
  · split
    · rename_i hmem
      exact (List.perm_cons_erase hmem).symm
    · exact .refl l
  · exact .refl l

/-- In that order the path is followed. -/
theorem followed (path : List α) (hnodup : path.Nodup) (hchain : path.IsChain g.Edge) :
    Followed (g.reorder (follow path) (follow_perm path)) path := by
  have hsuffix : ∀ done rest, path = done ++ rest →
      Followed (g.reorder (follow path) (follow_perm path)) rest := by
    -- The induction is on what is left of the path.
    intro done rest
    induction rest generalizing done with
    | nil => exact fun _ => .nil
    | cons a rest ih =>
        intro heq
        cases rest with
        | nil => exact List.isChain_singleton a
        | cons b rest =>
            have hidx : path.idxOf a = done.length := by
              have hnot : a ∉ done := by
                intro hmem
                rw [heq] at hnodup
                exact (List.nodup_append.mp hnodup).2.2 a hmem a List.mem_cons_self rfl
              rw [heq, List.idxOf_append_of_notMem hnot, List.idxOf_cons_self, Nat.add_zero]
            have hnext : path[path.idxOf a + 1]? = some b := by
              rw [hidx, heq, List.getElem?_append_right (by omega)]
              simp
            have hedge : b ∈ g.succ a := by
              rw [heq, List.isChain_append] at hchain
              exact (List.isChain_cons_cons.mp hchain.2.1).1
            refine List.isChain_cons_cons.mpr ⟨?_, ih (done ++ [a]) (by rw [heq]; simp)⟩
            show (follow path a (g.succ a)).head? = some b
            rw [follow, hnext]
            simp only [if_pos hedge, List.head?_cons]
  exact hsuffix [] path rfl

/-- **The depth of the search.** It returns within `limit` nested visits in every
order of the successors exactly when the graph is that shallow. -/
theorem returns_iff_shallow (g : Graph α) (limit : Nat) :
    (∀ iter perm, (findCyclesWithin (g.reorder iter perm) limit).isSome) ↔ g.Shallow limit := by
  constructor
  · -- The order that follows the walk first goes down all of it.
    intro hreturns pre k post p hkeys hnodup hchain hfresh
    by_contra hlong
    have hnone := visitKeys_eq_none (g := g.reorder (follow (k :: p)) (follow_perm (k :: p)))
      hkeys (followed (k :: p) hnodup hchain) hnodup (by simpa using hfresh)
      (Nat.lt_of_not_le hlong)
    have hsome := hreturns (follow (k :: p)) (follow_perm (k :: p))
    rw [findCyclesWithin, hnone] at hsome
    simp at hsome
  · intro hshallow iter perm
    have hreordered : (g.reorder iter perm).Shallow limit :=
      Graph.shallow_reorder.mpr hshallow
    obtain ⟨s, hs⟩ := findCyclesWithin_isSome hreordered
    rw [findCyclesWithin, hs]
    rfl

end HangAnalyzer.Lib
