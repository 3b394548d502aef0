import Mathlib.Logic.Relation
import HangAnalyzer.Lib.SharedStores

/-!
# `HangAnalyzer.Lib.SeqLock`: regions with a number word

The calls of `HangAnalyzer.Lib.SharedStores` where each call stores into one region of
the memory, the home of its sequence number. A call clears the number word of the
region first and stores its own number there last.

As long as no two calls in progress share a region, a region holds what one call has
stored into it (`Holds`). When that call has finished, the number word shows its
number. When another call begins to store, the number of the first one never comes
back (`kept_or_left`). So a reader that sees one number twice has read, in between,
what the call with that number stored (`twice`).
-/

set_option autoImplicit false

namespace HangAnalyzer.Lib

variable {Loc Arg : Type} {width : Loc → Nat}

/-- A division of the memory into regions. `region l` is the region of a location,
`home seq` that of a sequence number, and `number r` the number word of a region. -/
structure Regions (Loc : Type) where
  region : Loc → Option Nat
  home : Nat → Nat
  number : Nat → Loc

namespace Protocol

/-- The calls store constants, keep to their regions, and frame their stores by those to
the number word. -/
structure Framed (P : Protocol Loc Arg) (rs : Regions Loc) : Prop where
  counter : rs.region P.counter = none
  number : ∀ r, rs.region (rs.number r) = some r
  dst : ∀ seq arg, ∀ st ∈ P.program seq arg, rs.region st.dst = some (rs.home seq)
  const : ∀ seq arg, ∀ st ∈ P.program seq arg, ∃ v, st.src = .const v
  frame : ∀ seq arg, ∃ mid, P.program seq arg
      = ⟨rs.number (rs.home seq), .const 0⟩ :: mid ++ [⟨rs.number (rs.home seq), .const seq⟩] ∧
    ∀ st ∈ mid, st.dst ≠ rs.number (rs.home seq)

/-- Call `k` has executed all its stores. -/
def Finished (s : Shared width) (k : Nat) : Prop := ∃ seq, s.calls[k]? = some ⟨seq, []⟩

/-- No two calls in progress share a region. -/
def Exclusive (rs : Regions Loc) (s : Shared width) : Prop :=
  ∀ (i j : Nat) (fi fj : Flight Loc), i ≠ j → s.calls[i]? = some fi → s.calls[j]? = some fj →
    fi.todo ≠ [] → fj.todo ≠ [] → rs.home fi.seq ≠ rs.home fj.seq

variable [DecidableEq Loc]

/-- Region `r` holds what call `k` has stored so far, over some earlier memory. No
other call of the region is half-way, and no later one has begun. -/
structure Holds (P : Protocol Loc Arg) (args : Nat → Arg) (rs : Regions Loc) (s : Shared width)
    (r k : Nat) : Prop where
  stored : ∃ (fl : Flight Loc) (done : List (Assign Loc)) (m' : Memory width),
    s.calls[k]? = some fl ∧ rs.home fl.seq = r ∧ done ≠ [] ∧
    P.program fl.seq (args k) = done ++ fl.todo ∧
    ∀ l, rs.region l = some r → s.mem.read l = (done.foldl Assign.exec m').read l
  others : ∀ (j : Nat) (fl : Flight Loc), j ≠ k → s.calls[j]? = some fl → rs.home fl.seq = r →
    fl.todo = [] ∨ fl.todo = P.program fl.seq (args j)
  later : ∀ (j : Nat) (fl : Flight Loc), k < j → s.calls[j]? = some fl → rs.home fl.seq = r →
    fl.todo = P.program fl.seq (args j)

/-- Nobody has stored into region `r` yet. -/
structure Untouched (P : Protocol Loc Arg) (args : Nat → Arg) (rs : Regions Loc)
    (m : Memory width) (s : Shared width) (r : Nat) : Prop where
  mem : ∀ l, rs.region l = some r → s.mem.read l = m.read l
  others : ∀ (j : Nat) (fl : Flight Loc), s.calls[j]? = some fl → rs.home fl.seq = r →
    fl.todo = P.program fl.seq (args j)

/-- The memory is that of a run, and a call that is overtaken by a later one of its region
is overtaken before that one has stored anything. -/
structure Orderly (P : Protocol Loc Arg) (args : Nat → Arg) (rs : Regions Loc)
    (m : Memory width) (s : Shared width) : Prop where
  tracked : P.Tracked args m s
  overtaken : ∀ (j i : Nat) (fj fi : Flight Loc), j < i → s.calls[j]? = some fj →
    s.calls[i]? = some fi → rs.home fj.seq = rs.home fi.seq → fj.todo ≠ [] →
    fi.todo = P.program fi.seq (args i)

section
variable {P : Protocol Loc Arg} {args : Nat → Arg} {rs : Regions Loc} {m : Memory width}
  {s s' t u : Shared width} {r k : Nat}

/-! ### One step -/

/-- The calls after a claim: the old ones, and a new one that has stored nothing. -/
theorem calls_of_claim (hs : P.step args s .claim = some s') {j : Nat} {fl : Flight Loc}
    (hj : s'.calls[j]? = some fl) :
    s.calls[j]? = some fl ∨ fl.todo = P.program fl.seq (args j) := by
  obtain rfl := Option.some.inj hs
  rcases getElem?_concat_cases hj with hold | ⟨rfl, rfl⟩
  · exact Or.inl hold
  · exact Or.inr rfl

/-- A claim changes no region. -/
theorem read_of_claim (hP : P.Framed rs) (hs : P.step args s .claim = some s') {l : Loc}
    (hl : rs.region l = some r) : s'.mem.read l = s.mem.read l := by
  have hne : l ≠ P.counter := by
    intro heq
    rw [heq, hP.counter] at hl
    cases hl
  obtain rfl := Option.some.inj hs
  exact Memory.read_store_of_ne _ _ hne

/-- A step that takes nothing away from call `k`. -/
theorem getElem?_claim (hs : P.step args s .claim = some s') {fl : Flight Loc}
    (hk : s.calls[k]? = some fl) : s'.calls[k]? = some fl := by
  obtain rfl := Option.some.inj hs
  exact (List.getElem?_append_left (List.getElem?_eq_some_iff.mp hk).1).trans hk

/-- Once a call has finished, it stays so. -/
theorem Finished.step {op : Op} (h : Finished s k) (hs : P.step args s op = some s') :
    Finished s' k := by
  obtain ⟨seq, hk⟩ := h
  cases op with
  | claim => exact ⟨seq, getElem?_claim hs hk⟩
  | advance j =>
      obtain ⟨seq', a, todo, hj, rfl⟩ := step_advance P args hs
      have hne : j ≠ k := by
        rintro rfl
        rw [hk] at hj
        cases hj
      exact ⟨seq, by rw [List.getElem?_set_ne hne]; exact hk⟩

/-- A call that has finished makes no further step. -/
theorem Finished.not_advance (h : Finished s k) : P.step args s (.advance k) ≠ some s' := by
  intro hs
  obtain ⟨seq, hk⟩ := h
  obtain ⟨_, _, _, hk', -⟩ := step_advance P args hs
  rw [hk] at hk'
  cases hk'

/-- A step of a call leaves the other regions alone. -/
theorem advance_elsewhere (hP : P.Framed rs) (htracked : P.Tracked args m s) {j seq : Nat}
    {a : Assign Loc} {todo : List (Assign Loc)} (hj : s.calls[j]? = some ⟨seq, a :: todo⟩)
    (hne : rs.home seq ≠ r) {l : Loc} (hl : rs.region l = some r) :
    (s.mem.store a.dst (a.src.eval s.mem)).read l = s.mem.read l := by
  refine Memory.read_store_of_ne _ _ ?_
  rintro rfl
  obtain ⟨done, hprog, -⟩ := htracked.todo j _ hj
  have hdst := hP.dst seq (args j) a (by rw [hprog]; simp)
  rw [hl] at hdst
  exact hne (Option.some.inj hdst).symm

/-- A store of a constant leaves two memories that agree on a location so. -/
theorem read_exec_congr {m₁ m₂ : Memory width} {a : Assign Loc} (ha : ∃ v, a.src = .const v)
    {l : Loc} (hl : m₁.read l = m₂.read l) : (a.exec m₁).read l = (a.exec m₂).read l := by
  obtain ⟨v, hv⟩ := ha
  unfold Assign.exec
  rw [hv]
  by_cases hne : l = a.dst
  · subst hne
    rw [Memory.read_store_self, Memory.read_store_self]
    rfl
  · rw [Memory.read_store_of_ne _ _ hne, Memory.read_store_of_ne _ _ hne, hl]

omit [DecidableEq Loc] in
/-- No call has been overtaken at the start. -/
theorem orderly_start : Orderly P args rs m (start m) where
  tracked := tracked_start P args m
  overtaken j i fj fi _ hj := by simp [start] at hj

/-- A call that stores while an earlier one of its region is in progress would make two
of them. -/
theorem orderly_step (h : Orderly P args rs m s) (hex : Exclusive rs s) {op : Op}
    (hs : P.step args s op = some s') : Orderly P args rs m s' := by
  cases op with
  | claim =>
      refine ⟨tracked_claim h.tracked hs, fun j i fj fi hji hj hi hhome hbusy => ?_⟩
      -- An old call that is overtaken now was overtaken before.
      rcases calls_of_claim hs hi with hold | hnew
      · have hlt := (List.getElem?_eq_some_iff.mp hold).1
        have hj' : s.calls[j]? = some fj := by
          have hget := getElem?_claim hs (List.getElem?_eq_getElem (Nat.lt_trans hji hlt))
          rw [List.getElem?_eq_getElem (Nat.lt_trans hji hlt), ← hget]
          exact hj
        exact h.overtaken j i fj fi hji hj' hold hhome hbusy
      · exact hnew
  | advance k =>
      refine ⟨tracked_advance h.tracked hs, fun j i fj fi hji hj hi hhome hbusy => ?_⟩
      obtain ⟨seq, a, todo, hk, rfl⟩ := step_advance P args hs
      -- A step of the earlier call leaves the other one as it is.
      rcases getElem?_set_cases hj with ⟨rfl, rfl⟩ | ⟨hjk, hold⟩
      · rw [List.getElem?_set_ne (Nat.ne_of_lt hji)] at hi
        exact h.overtaken j i _ fi hji hk hi hhome (by simp)
      · -- The later call cannot have started, as the earlier one is in progress in its
        -- region.
        rcases getElem?_set_cases hi with ⟨rfl, rfl⟩ | ⟨-, hi⟩
        · exact absurd hhome (hex j i fj ⟨seq, a :: todo⟩ hjk hold hk hbusy (by simp))
        · exact h.overtaken j i fj fi hji hold hi hhome hbusy

/-- The first store of a call into its region. -/
theorem holds_first {j seq : Nat} {a : Assign Loc} {todo : List (Assign Loc)}
    (hj : s.calls[j]? = some ⟨seq, a :: todo⟩) (hprog : P.program seq (args j) = a :: todo)
    (hothers : ∀ (i : Nat) (fl : Flight Loc), i ≠ j → s.calls[i]? = some fl →
      rs.home fl.seq = rs.home seq → fl.todo = [] ∨ fl.todo = P.program fl.seq (args i))
    (hlater : ∀ (i : Nat) (fl : Flight Loc), j < i → s.calls[i]? = some fl →
      rs.home fl.seq = rs.home seq → fl.todo = P.program fl.seq (args i)) :
    Holds P args rs
      { mem := s.mem.store a.dst (a.src.eval s.mem)
        tag := Function.update s.tag a.dst (some j)
        calls := s.calls.set j ⟨seq, todo⟩ } (rs.home seq) j where
  -- The one store so far is the first of the program.
  stored := ⟨⟨seq, todo⟩, [a], s.mem,
    List.getElem?_set_self (List.getElem?_eq_some_iff.mp hj).1, rfl, by simp, by simp [hprog],
    fun _ _ => rfl⟩
  others i fl hne hi := by
    rw [List.getElem?_set_ne (Ne.symm hne)] at hi
    exact hothers i fl hne hi
  later i fl hlt hi := by
    rw [List.getElem?_set_ne (Nat.ne_of_lt hlt)] at hi
    exact hlater i fl hlt hi

/-- What a step does to a region that nobody has stored into. -/
theorem untouched_step (hP : P.Framed rs) (h₀ : Orderly P args rs m s) {op : Op}
    (h : Untouched P args rs m s r) (hs : P.step args s op = some s') :
    Untouched P args rs m s' r ∨ ∃ j, Holds P args rs s' r j := by
  cases op with
  | claim =>
      refine Or.inl ⟨fun l hl => (read_of_claim hP hs hl).trans (h.mem l hl), ?_⟩
      intro j fl hj hhome
      rcases calls_of_claim hs hj with hold | hnew
      · exact h.others j fl hold hhome
      · exact hnew
  | advance j =>
      obtain ⟨seq, a, todo, hj, rfl⟩ := step_advance P args hs
      -- The first store to the region begins to fill it. A store elsewhere does not touch it.
      by_cases hhome : rs.home seq = r
      · subst hhome
        refine Or.inr ⟨j, holds_first hj (h.others j _ hj rfl).symm (fun i fl _ hi hhome' => ?_)
          fun i fl _ hi hhome' => ?_⟩
        · exact Or.inr (h.others i fl hi hhome')
        · exact h.others i fl hi hhome'
      · refine Or.inl ⟨fun l hl => ?_, fun i fl hi hhome' => ?_⟩
        · exact (advance_elsewhere hP h₀.tracked hj hhome hl).trans (h.mem l hl)
        · rcases getElem?_set_cases hi with ⟨rfl, rfl⟩ | ⟨-, hi⟩
          · exact absurd hhome' hhome
          · exact h.others i fl hi hhome'

/-- What a step does to a region that holds the stores of call `k`: nothing, or call
`k` goes on, or another call begins. -/
theorem holds_step (hP : P.Framed rs) (h₀ : Orderly P args rs m s) (hex : Exclusive rs s)
    {op : Op} (h : Holds P args rs s r k) (hs : P.step args s op = some s') :
    (Holds P args rs s' r k ∧ ∀ l, rs.region l = some r → s'.mem.read l = s.mem.read l) ∨
      (op = .advance k ∧ Holds P args rs s' r k) ∨
      ∃ j, j ≠ k ∧ op = .advance j ∧ Holds P args rs s' r j := by
  obtain ⟨⟨fl, done, m', hk, hfl, hdone, hprog, hmem⟩, hothers, hlater⟩ := h
  cases op with
  | claim =>
      refine Or.inl ⟨⟨⟨fl, done, m', getElem?_claim hs hk, hfl, hdone, hprog, ?_⟩, ?_, ?_⟩, ?_⟩
      · intro l hl
        exact (read_of_claim hP hs hl).trans (hmem l hl)
      · intro j fj hne hj hhome
        rcases calls_of_claim hs hj with hold | hnew
        · exact hothers j fj hne hold hhome
        · exact Or.inr hnew
      · intro j fj hlt hj hhome
        rcases calls_of_claim hs hj with hold | hnew
        · exact hlater j fj hlt hold hhome
        · exact hnew
      · intro l hl
        exact read_of_claim hP hs hl
  | advance j =>
      obtain ⟨seq, a, todo, hj, rfl⟩ := step_advance P args hs
      have hlt := (List.getElem?_eq_some_iff.mp hj).1
      by_cases hhome : rs.home seq = r
      · by_cases hjk : j = k
        · -- The same call goes on.
          subst hjk
          obtain rfl := Option.some.inj (hk.symm.trans hj)
          refine Or.inr (Or.inl ⟨rfl, ⟨⟨seq, todo⟩, done ++ [a], m', List.getElem?_set_self hlt,
            hhome, by simp, by simp [hprog], fun l hl => ?_⟩, fun i fi hne hi hhome' => ?_,
            fun i fi hlt' hi hhome' => ?_⟩)
          · rw [List.foldl_append]
            have hconst := hP.const seq (args j) a (by rw [hprog]; simp)
            exact read_exec_congr hconst (hmem l hl)
          · rw [List.getElem?_set_ne (Ne.symm hne)] at hi
            exact hothers i fi hne hi hhome'
          · rw [List.getElem?_set_ne (Nat.ne_of_lt hlt')] at hi
            exact hlater i fi hlt' hi hhome'
        · -- Another call begins, so call `k` must have finished.
          have hfinished : fl.todo = [] := by
            by_contra hbusy
            exact hex k j fl _ (Ne.symm hjk) hk hj hbusy (by simp) (hfl.trans hhome.symm)
          have hfirst : P.program seq (args j) = a :: todo := by
            rcases hothers j _ hjk hj hhome with hnil | hfull
            · cases hnil
            · exact hfull.symm
          refine Or.inr (Or.inr ⟨j, hjk, rfl, ?_⟩)
          subst hhome
          refine holds_first hj hfirst (fun i fi hne hi hhome' => ?_) fun i fi hlt' hi hhome' => ?_
          · by_cases hik : i = k
            · subst hik
              obtain rfl := Option.some.inj (hk.symm.trans hi)
              exact Or.inl hfinished
            · exact hothers i fi hik hi hhome'
          · exact h₀.overtaken j i _ fi hlt' hj hi hhome'.symm (by simp)
      · have hjk : j ≠ k := by
          rintro rfl
          obtain rfl := Option.some.inj (hk.symm.trans hj)
          exact hhome hfl
        have hkeep : ∀ l, rs.region l = some r →
            (s.mem.store a.dst (a.src.eval s.mem)).read l = s.mem.read l := fun l hl =>
          advance_elsewhere hP h₀.tracked hj hhome hl
        -- The calls of the region are the same.
        have hcalls : ∀ (i : Nat) (fi : Flight Loc), (s.calls.set j ⟨seq, todo⟩)[i]? = some fi →
            rs.home fi.seq = r → s.calls[i]? = some fi := by
          intro i fi hi hhome'
          rcases getElem?_set_cases hi with ⟨rfl, rfl⟩ | ⟨-, hi⟩
          · exact absurd hhome' hhome
          · exact hi
        refine Or.inl ⟨⟨⟨fl, done, m', ?_, hfl, hdone, hprog, fun l hl => ?_⟩, ?_, ?_⟩, hkeep⟩
        · rw [List.getElem?_set_ne hjk]
          exact hk
        · exact (hkeep l hl).trans (hmem l hl)
        · intro i fi hne hi hhome'
          exact hothers i fi hne (hcalls i fi hi hhome') hhome'
        · intro i fi hlt' hi hhome'
          exact hlater i fi hlt' (hcalls i fi hi hhome') hhome'

/-! ### Runs -/

/-- A step from a state in which no two calls in progress share a region. -/
def Moves (P : Protocol Loc Arg) (args : Nat → Arg) (rs : Regions Loc) (s t : Shared width) :
    Prop :=
  Exclusive rs s ∧ ∃ op, P.step args s op = some t

/-- The calls are orderly in every later state. -/
theorem orderly_later (h : Relation.ReflTransGen (Moves P args rs) s t)
    (hs : Orderly P args rs m s) : Orderly P args rs m t := by
  induction h with
  | refl => exact hs
  | tail _ hstep ih =>
      obtain ⟨hex, op, hop⟩ := hstep
      exact orderly_step ih hex hop

/-- A call that has made its stores stays finished. -/
theorem Finished.later (h : Finished s k) (hlater : Relation.ReflTransGen (Moves P args rs) s t) :
    Finished t k := by
  induction hlater with
  | refl => exact h
  | tail _ hstep ih =>
      obtain ⟨-, op, hop⟩ := hstep
      exact ih.step hop

/-- What a region may hold. -/
def Settled (P : Protocol Loc Arg) (args : Nat → Arg) (rs : Regions Loc) (m : Memory width)
    (s : Shared width) (r : Nat) : Prop :=
  Untouched P args rs m s r ∨ ∃ k, Holds P args rs s r k

/-- At the start nobody has touched a region. -/
theorem settled_start (r : Nat) : Settled P args rs m (start m) r :=
  Or.inl ⟨fun _ _ => rfl, fun j fl hj => by simp [start] at hj⟩

/-- A region is settled in every later state. -/
theorem settled_later (hP : P.Framed rs) (h : Relation.ReflTransGen (Moves P args rs) s t)
    (h₀ : Orderly P args rs m s) (hs : Settled P args rs m s r) :
    Settled P args rs m t r := by
  induction h with
  | refl => exact hs
  | tail hlater hstep ih =>
      obtain ⟨hex, op, hop⟩ := hstep
      have hnow := orderly_later hlater h₀
      -- An untouched region stays so, or a call takes it.
      rcases ih with huntouched | ⟨k, hholds⟩
      · exact untouched_step hP hnow huntouched hop
      · rcases holds_step hP hnow hex hholds hop with ⟨hk, -⟩ | ⟨-, hk⟩ | ⟨j, -, -, hj⟩
        · exact Or.inr ⟨k, hk⟩
        · exact Or.inr ⟨k, hk⟩
        · exact Or.inr ⟨j, hj⟩

/-- A region that another call than `k` has stored into never holds call `k` again, if
call `k` has finished. -/
theorem left_later (hP : P.Framed rs) (h : Relation.ReflTransGen (Moves P args rs) s t)
    (h₀ : Orderly P args rs m s) (hfinished : Finished s k)
    (hleft : ∃ j, j ≠ k ∧ Holds P args rs s r j) : ∃ j, j ≠ k ∧ Holds P args rs t r j := by
  induction h with
  | refl => exact hleft
  | tail hlater hstep ih =>
      obtain ⟨hex, op, hop⟩ := hstep
      obtain ⟨j, hne, hholds⟩ := ih
      rcases holds_step hP (orderly_later hlater h₀) hex hholds hop with
        ⟨hj, -⟩ | ⟨-, hj⟩ | ⟨i, -, hadvance, hi⟩
      · exact ⟨j, hne, hj⟩
      · exact ⟨j, hne, hj⟩
      · -- The call has finished, so it is not the one that takes the region.
        refine ⟨i, ?_, hi⟩
        rintro rfl
        rw [hadvance] at hop
        exact (hfinished.later hlater).not_advance hop

/-- A region that holds a finished call keeps it word for word, or another call has
begun to store. -/
theorem kept_or_left (hP : P.Framed rs) (h : Relation.ReflTransGen (Moves P args rs) s t)
    (h₀ : Orderly P args rs m s) (hfinished : Finished s k) (hholds : Holds P args rs s r k) :
    (Holds P args rs t r k ∧ ∀ l, rs.region l = some r → t.mem.read l = s.mem.read l) ∨
      ∃ j, j ≠ k ∧ Holds P args rs t r j := by
  induction h with
  | refl => exact Or.inl ⟨hholds, fun _ _ => rfl⟩
  | tail hlater hstep ih =>
      have hnow := orderly_later hlater h₀
      have hdone := hfinished.later hlater
      -- Nothing changes while the call holds the region.
      rcases ih with ⟨hk, hsame⟩ | hleft
      · obtain ⟨hex, op, hop⟩ := hstep
        rcases holds_step hP hnow hex hk hop with ⟨hk', hkeep⟩ | ⟨hadvance, -⟩ | ⟨j, hne, -, hj⟩
        · exact Or.inl ⟨hk', fun l hl => (hkeep l hl).trans (hsame l hl)⟩
        · rw [hadvance] at hop
          exact absurd hop hdone.not_advance
        · exact Or.inr ⟨j, hne, hj⟩
      · exact Or.inr (left_later hP (.single hstep) hnow hdone hleft)

/-! ### The number word -/

/-- The number word shows the number of the call that the region holds, once the call
has finished, and zero before. -/
theorem Holds.number (hP : P.Framed rs) (h : Holds P args rs s r k) :
    ∃ fl, s.calls[k]? = some fl ∧ rs.home fl.seq = r ∧
      (fl.todo = [] ∧ s.mem.read (rs.number r) = fl.seq % 256 ^ width (rs.number r) ∨
        fl.todo ≠ [] ∧ s.mem.read (rs.number r) = 0) := by
  obtain ⟨fl, done, m', hk, hfl, hdone, hprog, hmem⟩ := h.stored
  refine ⟨fl, hk, hfl, ?_⟩
  obtain ⟨mid, hframe, hmid⟩ := hP.frame fl.seq (args k)
  rw [hfl] at hframe hmid
  rw [hmem _ (hP.number r)]
  rw [hprog] at hframe
  rcases List.eq_nil_or_concat fl.todo with htodo | ⟨todo, last, htodo⟩
  · -- The last store was that of the number.
    rw [htodo, List.append_nil] at hframe
    refine Or.inl ⟨htodo, ?_⟩
    rw [hframe]
    exact read_exec_last (⟨rs.number r, .const 0⟩ :: mid) [] m' (by simp)
  · -- The only store to the number word so far is the one that cleared it.
    refine Or.inr ⟨by simp [htodo], ?_⟩
    rw [htodo, List.concat_eq_append, ← List.append_assoc] at hframe
    obtain ⟨hfront, -⟩ := List.append_inj' hframe rfl
    obtain ⟨first, rest, rfl⟩ := List.exists_cons_of_ne_nil hdone
    rw [List.cons_append, List.cons.injEq] at hfront
    obtain ⟨rfl, hrest⟩ := hfront
    have hlast := read_exec_last [] rest m' (a := ⟨rs.number r, .const 0⟩) fun b hb =>
      hmid b (by rw [← hrest]; exact List.mem_append_left _ hb)
    exact hlast.trans (Nat.zero_mod _)

/-- The numbers of the calls are their places in the order of the claims, and not zero. -/
structure Numbered (m : Memory width) (P : Protocol Loc Arg) (s : Shared width) : Prop where
  zero : m.read P.counter = 0
  few : s.calls.length < 256 ^ width P.counter

omit [DecidableEq Loc] in
/-- The number of a call is its position plus one. -/
theorem Numbered.seq_eq (h : Numbered m P s) (htracked : P.Tracked args m s) {fl : Flight Loc}
    (hk : s.calls[k]? = some fl) : fl.seq = k + 1 := by
  have hlt := (List.getElem?_eq_some_iff.mp hk).1
  have hfew := h.few
  rw [htracked.seq k fl hk, h.zero, Nat.zero_add, Nat.mod_eq_of_lt (by omega)]

/-- The number word of a region shows a number: the call with this number has finished,
and the region holds it. -/
theorem holds_of_number (hP : P.Framed rs) (h₀ : Orderly P args rs m s)
    (hnumbered : Numbered m P s) (hwidth : width (rs.number r) = width P.counter)
    (hzero : m.read (rs.number r) = 0) (hsettled : Settled P args rs m s r) {n : Nat}
    (hn : s.mem.read (rs.number r) = n + 1) :
    rs.home (n + 1) = r ∧ Finished s n ∧ Holds P args rs s r n := by
  rcases hsettled with huntouched | ⟨k, hholds⟩
  · -- An untouched region has the number zero.
    rw [huntouched.mem _ (hP.number r), hzero] at hn
    cases hn
  · obtain ⟨fl, hk, hfl, ⟨htodo, hread⟩ | ⟨-, hread⟩⟩ := hholds.number hP
    · -- A call in progress has cleared the number, so this one has finished.
      have hseq := hnumbered.seq_eq h₀.tracked hk
      have hlt := (List.getElem?_eq_some_iff.mp hk).1
      have hfew := hnumbered.few
      rw [hread, hseq, hwidth, Nat.mod_eq_of_lt (by omega)] at hn
      obtain rfl : k = n := Nat.succ.inj hn
      refine ⟨by rw [← hseq]; exact hfl, ⟨fl.seq, ?_⟩, hholds⟩
      rw [hk, ← htodo]
    · rw [hread] at hn
      cases hn

/-- The region of a finished call holds it, as long as no later call of the region has
claimed its number. -/
theorem holds_of_finished (hP : P.Framed rs) (hsettled : Settled P args rs m s r)
    {fl : Flight Loc} (hk : s.calls[k]? = some fl)
    (htodo : fl.todo = []) (hfl : rs.home fl.seq = r)
    (hlast : ∀ (j : Nat) (fj : Flight Loc), k < j → s.calls[j]? = some fj →
      rs.home fj.seq ≠ r) : Holds P args rs s r k := by
  -- The program of a call is not empty, so the call has stored something.
  have hprog : P.program fl.seq (args k) ≠ [] := by
    obtain ⟨mid, hframe, -⟩ := hP.frame fl.seq (args k)
    rw [hframe]
    simp
  rcases hsettled with huntouched | ⟨j, hj⟩
  · exact absurd ((huntouched.others k fl hk hfl).symm.trans htodo) hprog
  · obtain ⟨fj, hcall, hhome, -⟩ := hj.number hP
    rcases Nat.lt_trichotomy j k with hlt | heq | hgt
    · exact absurd ((hj.later k fl hlt hk hfl).symm.trans htodo) hprog
    · exact heq ▸ hj
    · exact absurd hhome (hlast j fj hgt hcall)

/-- No call is ever taken away. -/
theorem length_later (h : Relation.ReflTransGen (Moves P args rs) s t) :
    s.calls.length ≤ t.calls.length := by
  induction h with
  | refl => exact Nat.le_refl _
  | tail _ hstep ih =>
      obtain ⟨-, op, hop⟩ := hstep
      exact Nat.le_trans ih (length_le_of_step hop)

/-- What holds of a later state holds of an earlier one. -/
theorem Numbered.earlier (h : Numbered m P t)
    (hlater : Relation.ReflTransGen (Moves P args rs) s t) : Numbered m P s where
  zero := h.zero
  few := Nat.lt_of_le_of_lt (length_later hlater) h.few

/-- **A number seen twice.** When the number word of a region shows one number in two
states, the region is the same in all states in between: it holds what the call with
that number has stored. -/
theorem twice (hP : P.Framed rs) (h₀ : Orderly P args rs m s) (hnumbered : Numbered m P u)
    (hwidth : width (rs.number r) = width P.counter) (hzero : m.read (rs.number r) = 0)
    (hsettled : Settled P args rs m s r) (hst : Relation.ReflTransGen (Moves P args rs) s t)
    (htu : Relation.ReflTransGen (Moves P args rs) t u) {n : Nat}
    (hs : s.mem.read (rs.number r) = n + 1) (hu : u.mem.read (rs.number r) = n + 1) :
    Holds P args rs t r n ∧ ∀ l, rs.region l = some r → t.mem.read l = s.mem.read l := by
  have hbefore := hnumbered.earlier (hst.trans htu)
  obtain ⟨-, hfinished, hholds⟩ :=
    holds_of_number hP h₀ hbefore hwidth hzero hsettled hs
  rcases kept_or_left hP hst h₀ hfinished hholds with hkept | hleft
  · exact hkept
  · -- Once it has left the region, the number does not come back.
    have hnow := orderly_later hst h₀
    obtain ⟨j, hne, hj⟩ := left_later hP htu hnow (hfinished.later hst) hleft
    have hend := orderly_later htu hnow
    obtain ⟨fl, hk, hfl, ⟨-, hread⟩ | ⟨-, hread⟩⟩ := hj.number hP
    · have hseq := hnumbered.seq_eq hend.tracked hk
      have hlt := (List.getElem?_eq_some_iff.mp hk).1
      have hfew := hnumbered.few
      rw [hread, hseq, hwidth, Nat.mod_eq_of_lt (by omega)] at hu
      exact absurd (Nat.succ.inj hu) hne
    · rw [hread] at hu
      cases hu

/-! ### Calls one after the other -/

omit [DecidableEq Loc] in
/-- With one call in progress at most, no two of them share a region. -/
theorem exclusive_of_one (h : ∀ (i : Nat) (fi : Flight Loc), i ≠ k → s.calls[i]? = some fi →
    fi.todo = []) : Exclusive rs s := by
  intro i j fi fj hne hi hj hbusy hbusy'
  by_cases hik : i = k
  · exact absurd (h j fj (fun hjk => hne (hik.trans hjk.symm)) hj) hbusy'
  · exact absurd (h i fi hik hi) hbusy

end

end Protocol

end HangAnalyzer.Lib
