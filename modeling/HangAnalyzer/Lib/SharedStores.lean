import HangAnalyzer.Lib.Memory
import HangAnalyzer.Lib.Runs

/-!
# `HangAnalyzer.Lib.SharedStores`: writers that claim a number and then store

Any number of calls share one memory. A call first claims a sequence number
from a counter word with one atomic increment. It then executes a straight-line
program of word stores, one store at a time, in any interleaving with the other
calls. A store's value is a constant or a word loaded at the time of the store.

The state keeps a ghost `tag` for each location: the call, counted in claim
order from zero, whose store to the location was the last one. `Tracked` is the
invariant that ties the tag to the memory. A location nobody stored to keeps its
initial value. The value of a location tagged `k` is that of the last store to
it that call `k` executed. `Run.tags_eq` says that the tags depend on the
interleaving alone, not on the values the calls store.
-/

set_option autoImplicit false

namespace HangAnalyzer.Lib

/-- An element of a list after one has been appended: one from before, or the new one. -/
theorem getElem?_concat_cases {α : Type} {l : List α} {j : Nat} {a b : α}
    (h : (l ++ [a])[j]? = some b) : l[j]? = some b ∨ j = l.length ∧ b = a := by
  rw [List.getElem?_append] at h
  split at h
  · exact Or.inl h
  · have hlt : j - l.length < 1 := (List.getElem?_eq_some_iff.mp h).1
    exact Or.inr ⟨by omega, List.mem_singleton.mp (List.mem_of_getElem? h)⟩

/-- An element of a list after one has been replaced: the new one, or one from before. -/
theorem getElem?_set_cases {α : Type} {l : List α} {k j : Nat} {a b : α}
    (h : (l.set k a)[j]? = some b) : j = k ∧ b = a ∨ j ≠ k ∧ l[j]? = some b := by
  by_cases hjk : j = k
  · subst hjk
    have hlt : j < l.length := by simpa using (List.getElem?_eq_some_iff.mp h).1
    rw [List.getElem?_set_self hlt] at h
    exact Or.inl ⟨rfl, (Option.some.inj h).symm⟩
  · rw [List.getElem?_set_ne (Ne.symm hjk)] at h
    exact Or.inr ⟨hjk, h⟩

/-- What a store writes: a constant, or the word at a location when the store
executes. -/
inductive Source (Loc : Type) where
  | const (v : Nat)
  | load (l : Loc)

/-- One store of a program. -/
structure Assign (Loc : Type) where
  dst : Loc
  src : Source Loc

/-- A claim protocol: the counter word, and the stores a call executes once it
has its sequence number. No store goes to the counter. -/
structure Protocol (Loc : Type) (Arg : Type) where
  counter : Loc
  program : Nat → Arg → List (Assign Loc)
  dst_ne_counter : ∀ seq arg, ∀ st ∈ program seq arg, st.dst ≠ counter

/-- A call in progress: its sequence number and the stores still to execute. -/
structure Flight (Loc : Type) where
  seq : Nat
  todo : List (Assign Loc)

/-- The shared memory, the ghost tags, and the calls in claim order. -/
structure Shared {Loc : Type} (width : Loc → Nat) where
  mem : Memory width
  tag : Loc → Option Nat
  calls : List (Flight Loc)

/-- One atomic action: the next call claims its number, or call `k` executes
its next store. -/
inductive Op where
  | claim
  | advance (k : Nat)
  deriving Repr, DecidableEq

variable {Loc Arg : Type} {width : Loc → Nat}

/-- The value of a source in a memory. -/
def Source.eval (m : Memory width) : Source Loc → Nat
  | const v => v
  | load l  => m.read l

/-! ### Programs without interruption -/

section
variable [DecidableEq Loc]

/-- Execute one store. -/
def Assign.exec (m : Memory width) (a : Assign Loc) : Memory width :=
  m.store a.dst (a.src.eval m)

/-- A program leaves a location alone that none of its stores goes to. -/
theorem read_exec_of_ne {l : Loc} (as : List (Assign Loc)) (m : Memory width)
    (h : ∀ a ∈ as, a.dst ≠ l) : (as.foldl Assign.exec m).read l = m.read l := by
  induction as generalizing m with
  | nil => rfl
  | cons a as ih =>
      rw [List.foldl_cons, ih _ fun b hb => h b (List.mem_cons_of_mem _ hb)]
      exact Memory.read_store_of_ne _ _ (h a List.mem_cons_self).symm

/-- A location holds what the last store to it wrote. -/
theorem read_exec_last {a : Assign Loc} (pre post : List (Assign Loc)) (m : Memory width)
    (h : ∀ b ∈ post, b.dst ≠ a.dst) :
    ((pre ++ a :: post).foldl Assign.exec m).read a.dst
      = a.src.eval (pre.foldl Assign.exec m) % 256 ^ width a.dst := by
  rw [List.foldl_append, List.foldl_cons, read_exec_of_ne post _ h]
  exact Memory.read_store_self _ _ _

/-- After a list of constants, a location holds the one that was stored there. -/
theorem read_exec_of_mem {l : Loc} {v : Nat} (as : List (Assign Loc)) (m : Memory width)
    (hmem : ⟨l, .const v⟩ ∈ as) (hsame : ∀ b ∈ as, b.dst = l → b.src = .const v) :
    (as.foldl Assign.exec m).read l = v % 256 ^ width l := by
  obtain ⟨pre, post, rfl⟩ := List.append_of_mem hmem
  -- The last store to the place decides, and all of them store the same value.
  induction post using List.reverseRecOn with
  | nil => exact read_exec_last (a := ⟨l, .const v⟩) pre [] m (by simp)
  | append_singleton post b ih =>
      have hfront : pre ++ ⟨l, .const v⟩ :: (post ++ [b])
          = pre ++ ⟨l, .const v⟩ :: post ++ [b] := by
        simp
      rw [hfront, List.foldl_append]
      show (b.exec _).read l = _
      by_cases hb : l = b.dst
      · have hsrc := hsame b (by simp) hb.symm
        rw [Assign.exec, hsrc, hb]
        exact Memory.read_store_self _ _ _
      · rw [Assign.exec, Memory.read_store_of_ne _ _ hb]
        exact ih (by simp) fun b' hb' => hsame b' (by
          rw [hfront]
          exact List.mem_append_left _ hb')

end

namespace Protocol

/-- A location that no call ever stores to. -/
def ReadOnly (P : Protocol Loc Arg) (l : Loc) : Prop :=
  l ≠ P.counter ∧ ∀ seq arg, ∀ st ∈ P.program seq arg, st.dst ≠ l

/-- A source whose value is fixed from the start. -/
def Stable (P : Protocol Loc Arg) : Source Loc → Prop
  | .const _ => True
  | .load l  => P.ReadOnly l

/-- The state before any call. -/
def start (m : Memory width) : Shared width where
  mem := m
  tag _ := none
  calls := []

/-! ### The tags and the memory -/

/-- The last store call `k` executed to `l`, where `k` is the tag of `l`: the
call's program is `pre ++ st :: mid` followed by the stores still to execute,
and `mid` leaves `l` alone. If the value of `st` was fixed from the start, `l`
still holds it. -/
structure LastStore (P : Protocol Loc Arg) (args : Nat → Arg) (m : Memory width)
    (s : Shared width) (l : Loc) (k : Nat) : Prop where
  exists_store : ∃ fl pre st mid, s.calls[k]? = some fl ∧
    P.program fl.seq (args k) = pre ++ st :: mid ++ fl.todo ∧
    st.dst = l ∧ (∀ x ∈ mid, x.dst ≠ l) ∧
    (P.Stable st.src → s.mem.read l = st.src.eval m % 256 ^ width l)

/-- The invariant of every run from the memory `m`. -/
structure Tracked (P : Protocol Loc Arg) (args : Nat → Arg) (m : Memory width)
    (s : Shared width) : Prop where
  counter : s.mem.read P.counter
    = (m.read P.counter + s.calls.length) % 256 ^ width P.counter
  seq : ∀ k fl, s.calls[k]? = some fl →
    fl.seq = (m.read P.counter + (k + 1)) % 256 ^ width P.counter
  todo : ∀ k fl, s.calls[k]? = some fl →
    ∃ done, P.program fl.seq (args k) = done ++ fl.todo ∧
      ∀ st ∈ done, (s.tag st.dst).isSome
  untouched : ∀ l, l ≠ P.counter → s.tag l = none → s.mem.read l = m.read l
  last : ∀ l k, s.tag l = some k → P.LastStore args m s l k

variable {P : Protocol Loc Arg} {args : Nat → Arg} {m : Memory width} {s s' : Shared width}

/-- Nobody stored to the counter through a program. -/
theorem Tracked.tag_counter (h : P.Tracked args m s) : s.tag P.counter = none := by
  cases ht : s.tag P.counter with
  | none => rfl
  | some k =>
      obtain ⟨fl, pre, st, mid, -, hprog, hdst, -⟩ := (h.last _ k ht).exists_store
      exact absurd hdst (P.dst_ne_counter fl.seq (args k) st (by simp [hprog]))

/-- A read-only location keeps its initial value. -/
theorem Tracked.readOnly (h : P.Tracked args m s) {l : Loc} (hl : P.ReadOnly l) :
    s.mem.read l = m.read l := by
  refine h.untouched l hl.1 ?_
  cases ht : s.tag l with
  | none => rfl
  | some k =>
      obtain ⟨fl, pre, st, mid, -, hprog, hdst, -⟩ := (h.last _ k ht).exists_store
      exact absurd hdst (hl.2 fl.seq (args k) st (by simp [hprog]))

/-- A stable source has its initial value in every reachable memory. -/
theorem Tracked.eval_stable (h : P.Tracked args m s) {src : Source Loc} (hs : P.Stable src) :
    src.eval s.mem = src.eval m := by
  cases src with
  | const v => rfl
  | load l => exact h.readOnly hs

/-- Nothing has been stored at the start. -/
theorem tracked_start (P : Protocol Loc Arg) (args : Nat → Arg) (m : Memory width) :
    P.Tracked args m (start m) where
  counter := by simp [start]
  seq := by simp [start]
  todo := by simp [start]
  untouched := by simp [start]
  last := by simp [start]

/-! ### The steps -/

variable [DecidableEq Loc]

/-- The state after one action. Argument `args k` belongs to the call that
claims in position `k`. -/
def step (P : Protocol Loc Arg) (args : Nat → Arg) (s : Shared width) :
    Op → Option (Shared width)
  | .claim =>
      let mem := s.mem.store P.counter (s.mem.read P.counter + 1)
      let seq := mem.read P.counter
      some { s with mem, calls := s.calls ++ [⟨seq, P.program seq (args s.calls.length)⟩] }
  | .advance k =>
      match s.calls[k]? with
      | some ⟨seq, a :: todo⟩ =>
          some {
            mem := s.mem.store a.dst (a.src.eval s.mem)
            tag := Function.update s.tag a.dst (some k)
            calls := s.calls.set k ⟨seq, todo⟩ }
      | _ => none

/-- An enabled `advance k` executes the first store of call `k`. -/
theorem step_advance (P : Protocol Loc Arg) (args : Nat → Arg) {k : Nat}
    (h : P.step args s (.advance k) = some s') :
    ∃ seq a todo, s.calls[k]? = some ⟨seq, a :: todo⟩ ∧
      s' = { mem := s.mem.store a.dst (a.src.eval s.mem)
             tag := Function.update s.tag a.dst (some k)
             calls := s.calls.set k ⟨seq, todo⟩ } := by
  simp only [step] at h
  split at h
  · rename_i seq a todo hk
    exact ⟨seq, a, todo, hk, (Option.some.inj h).symm⟩
  · cases h

/-- No call is ever taken away. -/
theorem length_le_of_step {op : Op} (h : P.step args s op = some s') :
    s.calls.length ≤ s'.calls.length := by
  cases op with
  | claim =>
      obtain rfl := Option.some.inj h
      simp
  | advance k =>
      obtain ⟨seq, a, todo, -, rfl⟩ := step_advance P args h
      simp

/-- A claim appends one call and changes the counter only. -/
theorem tracked_claim (h : P.Tracked args m s) (hs : P.step args s .claim = some s') :
    P.Tracked args m s' := by
  simp only [step, Option.some.injEq] at hs
  subst hs
  -- The number the new call gets is the counter after the increment.
  have hseq : (s.mem.store P.counter (s.mem.read P.counter + 1)).read P.counter
      = (m.read P.counter + (s.calls.length + 1)) % 256 ^ width P.counter := by
    rw [Memory.read_store_self, h.counter, Nat.mod_add_mod, Nat.add_assoc]
  have hkeep : ∀ l, l ≠ P.counter →
      (s.mem.store P.counter (s.mem.read P.counter + 1)).read l = s.mem.read l :=
    fun l hl => Memory.read_store_of_ne _ _ hl
  -- A call of the longer list is an old call or the new one.
  have hcalls : ∀ (k : Nat) (fl new : Flight Loc), (s.calls ++ [new])[k]? = some fl →
      s.calls[k]? = some fl ∨ (k = s.calls.length ∧ fl = new) :=
    fun _ _ _ => getElem?_concat_cases
  constructor
  case counter =>
      simpa using hseq
  case seq =>
      intro k fl hk
      rcases hcalls k fl _ hk with hold | ⟨rfl, rfl⟩
      · exact h.seq k fl hold
      · exact hseq
  case todo =>
      intro k fl hk
      rcases hcalls k fl _ hk with hold | ⟨rfl, rfl⟩
      · exact h.todo k fl hold
      · exact ⟨[], by simp, by simp⟩
  case untouched =>
      intro l hl ht
      rw [hkeep l hl]
      exact h.untouched l hl ht
  case last =>
      intro l k ht
      obtain ⟨fl, pre, st, mid, hk, hprog, hdst, hmid, hval⟩ := (h.last l k ht).exists_store
      have hl : l ≠ P.counter := fun e => by
        rw [e, h.tag_counter] at ht
        cases ht
      refine ⟨fl, pre, st, mid, ?_, hprog, hdst, hmid, fun hst => ?_⟩
      · rw [List.getElem?_append_left (List.getElem?_eq_some_iff.mp hk).1]
        exact hk
      · rw [hkeep l hl]
        exact hval hst

/-- One store of call `k` retags its destination and leaves the rest. -/
theorem tracked_advance {k : Nat} (h : P.Tracked args m s)
    (hs : P.step args s (.advance k) = some s') : P.Tracked args m s' := by
  obtain ⟨seq, a, todo, hk, rfl⟩ := step_advance P args hs
  have hklt : k < s.calls.length := (List.getElem?_eq_some_iff.mp hk).1
  obtain ⟨done, hprog, hdone⟩ := h.todo k _ hk
  have hne : a.dst ≠ P.counter :=
    P.dst_ne_counter seq (args k) a (by simp [hprog])
  -- The program of a call does not change, and only call `k` shortens its rest.
  have hcalls : ∀ (j : Nat) (fl : Flight Loc), (s.calls.set k ⟨seq, todo⟩)[j]? = some fl →
      (j = k ∧ fl = ⟨seq, todo⟩) ∨ (j ≠ k ∧ s.calls[j]? = some fl) :=
    fun _ _ => getElem?_set_cases
  have htag : ∀ l, (s.tag l).isSome → (Function.update s.tag a.dst (some k) l).isSome := by
    intro l hl
    by_cases hla : l = a.dst
    · simp [hla]
    · simpa [Function.update_of_ne hla] using hl
  constructor
  case counter =>
      simp only [List.length_set]
      rw [Memory.read_store_of_ne _ _ hne.symm]
      exact h.counter
  case seq =>
      intro j fl hj
      rcases hcalls j fl hj with ⟨rfl, rfl⟩ | ⟨-, hold⟩
      · simpa using h.seq j _ hk
      · exact h.seq j fl hold
  case todo =>
      intro j fl hj
      rcases hcalls j fl hj with ⟨rfl, rfl⟩ | ⟨-, hold⟩
      · refine ⟨done ++ [a], by simp [hprog], fun st hst => ?_⟩
        rcases List.mem_append.mp hst with hst | hst
        · exact htag _ (hdone st hst)
        · simp [List.mem_singleton.mp hst]
      · obtain ⟨done', hprog', hdone'⟩ := h.todo j fl hold
        exact ⟨done', hprog', fun st hst => htag _ (hdone' st hst)⟩
  case untouched =>
      intro l hl ht
      by_cases hla : l = a.dst
      · simp [hla] at ht
      · simp only [Function.update_of_ne hla] at ht
        rw [Memory.read_store_of_ne _ _ hla]
        exact h.untouched l hl ht
  case last =>
      intro l j ht
      by_cases hla : l = a.dst
      · -- The store just executed is the last one to its destination.
        subst hla
        simp only [Function.update_self, Option.some.injEq] at ht
        subst ht
        refine ⟨⟨seq, todo⟩, done, a, [], ?_, by simp [hprog], rfl, by simp, fun hst => ?_⟩
        · exact List.getElem?_set_self hklt
        · rw [Memory.read_store_self, h.eval_stable hst]
      · simp only [Function.update_of_ne hla] at ht
        obtain ⟨fl, pre, st, mid, hj, hpj, hdst, hmid, hval⟩ := (h.last l j ht).exists_store
        have hread : (s.mem.store a.dst (a.src.eval s.mem)).read l = s.mem.read l :=
          Memory.read_store_of_ne _ _ hla
        by_cases hjk : j = k
        · -- Call `k` itself stored elsewhere: its store joins the middle part.
          subst hjk
          rw [hk, Option.some.injEq] at hj
          subst hj
          refine ⟨⟨seq, todo⟩, pre, st, mid ++ [a], List.getElem?_set_self hklt,
            by simp [hpj], hdst, fun x hx => ?_, fun hst => ?_⟩
          · rcases List.mem_append.mp hx with hx | hx
            · exact hmid x hx
            · rw [List.mem_singleton.mp hx]
              exact fun e => hla e.symm
          · exact hread.trans (hval hst)
        · refine ⟨fl, pre, st, mid, ?_, hpj, hdst, hmid, fun hst => hread.trans (hval hst)⟩
          rw [List.getElem?_set_ne (fun e => hjk e.symm)]
          exact hj

/-- Every reachable state is tracked. -/
theorem tracked_run {ops : List Op} (h : Run (P.step args) (start m) ops s) :
    P.Tracked args m s := by
  refine Run.invariant (P.Tracked args m) ?_ h (tracked_start P args m)
  intro s a s' hs hstep
  cases a with
  | claim => exact tracked_claim hs hstep
  | advance k => exact tracked_advance hs hstep

/-! ### The order of the stores -/

/-- The stores of call `k`. -/
def stores (P : Protocol Loc Arg) (args : Nat → Arg) (m : Memory width) (k : Nat) :
    List (Assign Loc) :=
  P.program ((m.read P.counter + (k + 1)) % 256 ^ width P.counter) (args k)

/-- A run has one call for each claim in its schedule. -/
theorem length_calls {ops : List Op} (h : Run (P.step args) (start m) ops s) :
    s.calls.length = ops.count .claim := by
  induction ops using List.reverseRecOn generalizing s with
  | nil => simp [← Run.nil_iff.mp h, start]
  | append_singleton ops op ih =>
      obtain ⟨t, hrun, hstep⟩ := Run.concat_iff.mp h
      cases op with
      | claim =>
          simp only [step, Option.some.injEq] at hstep
          simp [← hstep, ih hrun]
      | advance k =>
          obtain ⟨seq, a, todo, -, rfl⟩ := step_advance P args hstep
          simp [ih hrun]

/-- A call that has not claimed has no step in the schedule, and a call that has
claimed has as many stores behind it as the schedule has steps of it. -/
theorem counted {ops : List Op} (h : Run (P.step args) (start m) ops s) (k : Nat) :
    (s.calls.length ≤ k → ops.count (.advance k) = 0) ∧
      ∀ fl, s.calls[k]? = some fl →
        fl.todo = (P.stores args m k).drop (ops.count (.advance k)) := by
  -- The induction is on the run. An advance takes the first of the stores that are left.
  induction ops using List.reverseRecOn generalizing s with
  | nil => simp [← Run.nil_iff.mp h, start]
  | append_singleton ops op ih =>
      obtain ⟨t, hrun, hstep⟩ := Run.concat_iff.mp h
      obtain ⟨hnone, hsome⟩ := ih hrun
      have hseq := (tracked_run h).seq k
      cases op with
      | claim =>
          have hcount : (ops ++ [Op.claim]).count (.advance k) = ops.count (.advance k) := by
            simp
          simp only [step, Option.some.injEq] at hstep
          subst hstep
          rw [hcount]
          refine ⟨fun hk => hnone ?_, fun fl hk => ?_⟩
          · simp only [List.length_append, List.length_cons, List.length_nil] at hk
            omega
          · rcases getElem?_concat_cases hk with hold | ⟨rfl, rfl⟩
            · exact hsome fl hold
            · -- The new call has its whole program before it.
              rw [hnone (Nat.le_refl _), List.drop_zero]
              rw [stores, ← hseq _ List.getElem?_concat_length]
      | advance j =>
          obtain ⟨seq, a, todo, hj, rfl⟩ := step_advance P args hstep
          have hjlt : j < t.calls.length := (List.getElem?_eq_some_iff.mp hj).1
          by_cases hjk : j = k
          · subst hjk
            refine ⟨fun hk => ?_, fun fl hk => ?_⟩
            · simp only [List.length_set] at hk
              omega
            · rw [List.getElem?_set_self hjlt, Option.some.injEq] at hk
              subst hk
              have htodo := hsome _ hj
              rw [List.count_append, List.count_singleton_self, ← List.drop_drop, ← htodo]
              rfl
          · have hcount : (ops ++ [Op.advance j]).count (.advance k)
                = ops.count (.advance k) := by
              simp [List.count_append, hjk]
            rw [hcount]
            refine ⟨fun hk => hnone ?_, fun fl hk => hsome fl ?_⟩
            · simpa only [List.length_set] using hk
            · rw [List.getElem?_set_ne hjk] at hk
              exact hk

/-- The next store of a call is the one its number of steps points at. -/
theorem stores_getElem? {ops : List Op} (h : Run (P.step args) (start m) ops s) {k seq : Nat}
    {a : Assign Loc} {todo : List (Assign Loc)} (hk : s.calls[k]? = some ⟨seq, a :: todo⟩) :
    (P.stores args m k)[ops.count (.advance k)]? = some a := by
  have htodo := (counted h k).2 _ hk
  rw [← List.head?_drop, ← htodo]
  rfl

/-- If `l` is tagged `k`, every store another call executed to `l` came before
some store of call `k` to `l`: there is a moment when the first was done and the
second was not. -/
theorem last_after {ops : List Op} (h : Run (P.step args) (start m) ops s) {l : Loc}
    {j k i : Nat} (ht : s.tag l = some k) (hjk : j ≠ k) (hi : i < ops.count (.advance j))
    (hdst : (P.stores args m j)[i]?.map Assign.dst = some l) :
    ∃ pre i', pre <+: ops ∧ i < pre.count (.advance j) ∧ pre.count (.advance k) ≤ i' ∧
      (P.stores args m k)[i']?.map Assign.dst = some l := by
  induction ops using List.reverseRecOn generalizing s with
  | nil => simp at hi
  | append_singleton ops op ih =>
      obtain ⟨t, hrun, hstep⟩ := Run.concat_iff.mp h
      -- A moment of the shorter schedule is one of the longer.
      have hlonger : t.tag l = some k → i < ops.count (.advance j) →
          ∃ pre i', pre <+: ops ++ [op] ∧ i < pre.count (.advance j) ∧
            pre.count (.advance k) ≤ i' ∧
            (P.stores args m k)[i']?.map Assign.dst = some l := by
        intro ht hi
        obtain ⟨pre, i', hpre, hrest⟩ := ih hrun ht hi
        exact ⟨pre, i', hpre.trans (List.prefix_append _ _), hrest⟩
      cases op with
      | claim =>
          simp only [step, Option.some.injEq] at hstep
          subst hstep
          exact hlonger ht (by simpa using hi)
      | advance c =>
          obtain ⟨seq, a, todo, hc, rfl⟩ := step_advance P args hstep
          have hnext := stores_getElem? hrun hc
          by_cases hl : l = a.dst
          · -- The last store of the schedule is the one to `l`.
            simp only [hl, Function.update_self, Option.some.injEq] at ht
            subst ht
            refine ⟨ops, ops.count (.advance c), List.prefix_append _ _, ?_, Nat.le_refl _, ?_⟩
            · simpa [List.count_append, hjk.symm] using hi
            · rw [hnext, Option.map_some, hl]
          · simp only [Function.update_of_ne hl] at ht
            refine hlonger ht ?_
            by_cases hcj : c = j
            · subst hcj
              have hne : i ≠ ops.count (.advance c) := by
                rintro rfl
                rw [hnext, Option.map_some, Option.some.injEq] at hdst
                exact hl hdst.symm
              rw [List.count_append, List.count_singleton_self] at hi
              omega
            · simpa [List.count_append, hcj] using hi

/-! ### Runs that differ in their arguments only -/

/-- What a store does apart from the arguments of its call: its destination,
and its source where the destination is one of the locations `p`. -/
def outline (p : Loc → Bool) (a : Assign Loc) : Loc × Option (Source Loc) :=
  (a.dst, if p a.dst then some a.src else none)

/-- The stores of a call go to the same places whatever its arguments, and the
locations `p` get values that do not depend on the arguments. -/
structure Uniform (P : Protocol Loc Arg) (p : Loc → Bool) : Prop where
  outline_eq : ∀ seq a a', (P.program seq a).map (outline p) = (P.program seq a').map (outline p)
  stable : ∀ seq a, ∀ st ∈ P.program seq a, p st.dst → P.Stable st.src

/-- The part of the calls that does not depend on their arguments. -/
def shape (p : Loc → Bool) (s : Shared width) : List (Nat × List (Loc × Option (Source Loc))) :=
  s.calls.map fun fl => (fl.seq, fl.todo.map (outline p))

/-- Two states of one interleaving under different arguments. -/
structure Alike (P : Protocol Loc Arg) (p : Loc → Bool) (args args' : Nat → Arg)
    (m : Memory width) (s t : Shared width) : Prop where
  left : P.Tracked args m s
  right : P.Tracked args' m t
  tag : s.tag = t.tag
  shape : shape p s = shape p t
  agree : ∀ l, p l → s.mem.read l = t.mem.read l

variable {p : Loc → Bool} {args' : Nat → Arg} {t : Shared width}

omit [DecidableEq Loc] in
/-- Two runs with different arguments start alike. -/
theorem alike_start (P : Protocol Loc Arg) (p : Loc → Bool) (args args' : Nat → Arg)
    (m : Memory width) : P.Alike p args args' m (start m) (start m) :=
  ⟨tracked_start P args m, tracked_start P args' m, rfl, rfl, fun _ _ => rfl⟩

omit [DecidableEq Loc] in
/-- Runs that are alike have as many calls. -/
theorem Alike.length_eq (h : P.Alike p args args' m s t) :
    s.calls.length = t.calls.length := by
  simpa [Protocol.shape] using congrArg List.length h.shape

omit [DecidableEq Loc] in
/-- Two alike states finish together. -/
theorem Alike.todo_nil (h : P.Alike p args args' m s t) (hs : ∀ fl ∈ s.calls, fl.todo = []) :
    ∀ fl ∈ t.calls, fl.todo = [] := by
  intro fl hfl
  have hmem : (fl.seq, fl.todo.map (outline p)) ∈ Protocol.shape p s := by
    rw [h.shape]
    exact List.mem_map.mpr ⟨fl, hfl, rfl⟩
  obtain ⟨fl', hfl', heq⟩ := List.mem_map.mp hmem
  rw [hs fl' hfl', List.map_nil, Prod.mk.injEq] at heq
  exact List.map_eq_nil_iff.mp heq.2.symm

/-- A claim keeps two states alike. -/
theorem alike_claim (hp : P.Uniform p) (h : P.Alike p args args' m s t)
    (hs : P.step args s .claim = some s') :
    ∃ t', P.step args' t .claim = some t' ∧ P.Alike p args args' m s' t' := by
  have hc : s.mem.read P.counter = t.mem.read P.counter := by
    rw [h.left.counter, h.right.counter, h.length_eq]
  refine ⟨_, rfl, tracked_claim h.left hs, tracked_claim h.right rfl, ?_, ?_, ?_⟩
  all_goals
    simp only [step, Option.some.injEq] at hs
    subst hs
  · exact h.tag
  · -- The counters agree, so both calls get the same number.
    have hsh := h.shape
    simp only [Protocol.shape] at hsh
    simp only [Protocol.shape, List.map_append, List.map_cons, List.map_nil, hsh,
      Memory.read_store_self, hc]
    rw [hp.outline_eq _ (args s.calls.length) (args' t.calls.length)]
  · intro l hl
    by_cases hlc : l = P.counter
    · rw [hlc, Memory.read_store_self, Memory.read_store_self, hc]
    · rw [Memory.read_store_of_ne _ _ hlc, Memory.read_store_of_ne _ _ hlc]
      exact h.agree l hl

/-- A store of one call keeps two states alike. -/
theorem alike_advance (hp : P.Uniform p) (h : P.Alike p args args' m s t) {k : Nat}
    (hs : P.step args s (.advance k) = some s') :
    ∃ t', P.step args' t (.advance k) = some t' ∧ P.Alike p args args' m s' t' := by
  obtain ⟨seq, a, todo, hk, rfl⟩ := step_advance P args hs
  -- The same call of the other state has alike stores left.
  have hk' : (Protocol.shape p t)[k]? = some (seq, (a :: todo).map (outline p)) := by
    rw [← h.shape]
    simp [Protocol.shape, hk]
  obtain ⟨⟨seq', todo'⟩, hfl, hshape⟩ : ∃ fl, t.calls[k]? = some fl ∧
      (fl.seq, fl.todo.map (outline p)) = (seq, (a :: todo).map (outline p)) := by
    simpa [Protocol.shape] using hk'
  simp only [Prod.mk.injEq] at hshape
  obtain ⟨rfl, htodo⟩ := hshape
  cases todo' with
  | nil => simp at htodo
  | cons a' todo' =>
      simp only [List.map_cons, List.cons.injEq, outline, Prod.mk.injEq] at htodo
      obtain ⟨⟨hdst, hsrc⟩, htodo⟩ := htodo
      have ht : P.step args' t (.advance k) = some {
          mem := t.mem.store a'.dst (a'.src.eval t.mem)
          tag := Function.update t.tag a'.dst (some k)
          calls := t.calls.set k ⟨seq', todo'⟩ } := by
        simp [step, hfl]
      refine ⟨_, ht, tracked_advance h.left hs, tracked_advance h.right ht, ?_, ?_, ?_⟩
      · simp only [h.tag, hdst]
      · have hsh := h.shape
        simp only [Protocol.shape] at hsh
        simp only [Protocol.shape, List.map_set, hsh]
        rw [← htodo]
      · intro l hl
        by_cases hla : l = a.dst
        · -- The destination is one of `p`, so the two sources are one.
          rw [hla] at hl ⊢
          rw [if_pos hl, if_pos (hdst ▸ hl), Option.some.injEq] at hsrc
          obtain ⟨done, hprog, -⟩ := h.left.todo k _ hk
          have hstable : P.Stable a.src := hp.stable seq' (args k) a (by simp [hprog]) hl
          have heval : a'.src.eval t.mem = a.src.eval s.mem := by
            rw [hsrc, h.left.eval_stable hstable, h.right.eval_stable hstable]
          rw [hdst, heval, Memory.read_store_self, Memory.read_store_self]
        · rw [Memory.read_store_of_ne _ _ hla, Memory.read_store_of_ne _ _ (hdst ▸ hla)]
          exact h.agree l hl

/-- A step of one run is a step of the other, and they stay alike. -/
theorem alike_step (hp : P.Uniform p) (h : P.Alike p args args' m s t) (op : Op)
    (hs : P.step args s op = some s') :
    ∃ t', P.step args' t op = some t' ∧ P.Alike p args args' m s' t' := by
  cases op with
  | claim => exact alike_claim hp h hs
  | advance k => exact alike_advance hp h hs

/-- The ghost tags of a run do not depend on the arguments of the calls. -/
theorem tags_eq (hp : P.Uniform p) {ops : List Op}
    (h : Run (P.step args) (start m) ops s) (args' : Nat → Arg) :
    ∃ t, Run (P.step args') (start m) ops t ∧ P.Alike p args args' m s t :=
  Run.simulates (P.Alike p args args' m) (fun _ _ op _ hst hs => alike_step hp hst op hs) h
    (alike_start P p args args' m)

/-! ### Calls that are not interrupted -/

/-- A call that executes the rest of its program without interruption: the other calls
stay as they are. -/
theorem exists_run_todo (P : Protocol Loc Arg) (args : Nat → Arg) {k seq : Nat}
    (todo : List (Assign Loc)) {s : Shared width} (hk : s.calls[k]? = some ⟨seq, todo⟩) :
    ∃ s', Run (P.step args) s (List.replicate todo.length (.advance k)) s' ∧
      Run.Along (P.step args) (fun t _ _ => ∀ i ≠ k, t.calls[i]? = s.calls[i]?) s
        (List.replicate todo.length (.advance k)) ∧
      s'.mem = todo.foldl Assign.exec s.mem ∧ s'.calls = s.calls.set k ⟨seq, []⟩ := by
  -- The call executes one store after the other, and the other calls stay as they are.
  induction todo generalizing s with
  | nil =>
      obtain ⟨hlt, hget⟩ := List.getElem?_eq_some_iff.mp hk
      refine ⟨s, Run.nil_iff.mpr rfl, Run.along_nil, rfl, ?_⟩
      rw [← hget, List.set_getElem_self]
  | cons a todo ih =>
      let t : Shared width := {
        mem := a.exec s.mem
        tag := Function.update s.tag a.dst (some k)
        calls := s.calls.set k ⟨seq, todo⟩ }
      have hstep : P.step args s (.advance k) = some t := by
        simp [step, hk, t, Assign.exec]
      have ht : t.calls[k]? = some ⟨seq, todo⟩ :=
        List.getElem?_set_self (List.getElem?_eq_some_iff.mp hk).1
      have hothers : ∀ i ≠ k, t.calls[i]? = s.calls[i]? := by
        intro i hne
        exact List.getElem?_set_ne (Ne.symm hne)
      obtain ⟨s', hrun, halong, hmem, hcalls⟩ := ih ht
      refine ⟨s', Run.cons_iff.mpr ⟨t, hstep, hrun⟩,
        Run.along_cons_iff.mpr fun t' ht' => ?_, ?_, ?_⟩
      · obtain rfl := Option.some.inj (hstep.symm.trans ht')
        refine ⟨fun _ _ => rfl, halong.mono fun u _ _ hu i hne => ?_⟩
        exact (hu i hne).trans (hothers i hne)
      · rw [hmem, List.foldl_cons]
      · rw [hcalls, List.set_set]

/-- A call that claims and executes its program without interruption. -/
theorem exists_run_call (P : Protocol Loc Arg) (args : Nat → Arg) (s : Shared width) :
    ∃ ops s' seq, Run (P.step args) s ops s' ∧
      Run.Along (P.step args)
        (fun t _ _ => ∀ i ≠ s.calls.length, t.calls[i]? = s.calls[i]?) s ops ∧
      seq = (s.mem.store P.counter (s.mem.read P.counter + 1)).read P.counter ∧
      s'.mem = (P.program seq (args s.calls.length)).foldl Assign.exec
        (s.mem.store P.counter (s.mem.read P.counter + 1)) ∧
      s'.calls = s.calls ++ [⟨seq, []⟩] := by
  -- The call claims its number and then executes its program.
  obtain ⟨t, ht, hmem, hcalls⟩ : ∃ t, P.step args s .claim = some t ∧
      t.mem = s.mem.store P.counter (s.mem.read P.counter + 1) ∧
      t.calls = s.calls ++ [⟨t.mem.read P.counter,
        P.program (t.mem.read P.counter) (args s.calls.length)⟩] := ⟨_, rfl, rfl, rfl⟩
  have hk : t.calls[s.calls.length]? = some ⟨t.mem.read P.counter,
      P.program (t.mem.read P.counter) (args s.calls.length)⟩ := by
    rw [hcalls, List.getElem?_concat_length]
  have hothers : ∀ i ≠ s.calls.length, t.calls[i]? = s.calls[i]? := by
    intro i hne
    rw [hcalls, List.getElem?_append]
    split
    · rfl
    · rw [List.getElem?_eq_none (by simpa using by omega), List.getElem?_eq_none (by omega)]
  obtain ⟨s', hrun, halong, hmem', hcalls'⟩ := exists_run_todo P args _ hk
  refine ⟨_, s', t.mem.read P.counter, Run.cons_iff.mpr ⟨t, ht, hrun⟩,
    Run.along_cons_iff.mpr fun t' ht' => ?_, ?_, ?_, ?_⟩
  · obtain rfl := Option.some.inj (ht.symm.trans ht')
    refine ⟨fun _ _ => rfl, halong.mono fun u _ _ hu i hne => ?_⟩
    exact (hu i hne).trans (hothers i hne)
  · rw [hmem]
  · rw [hmem', hmem]
  · rw [hcalls', hcalls]
    simp

end Protocol

end HangAnalyzer.Lib
