import HangAnalyzer.Lib.SharedStores

/-!
# `HangAnalyzer.Lib.WordCopy`: a copy taken while the writers run

A reader copies the memory of `HangAnalyzer.Lib.SharedStores` group by group:
`group l` is the position at which it reads location `l`, and all locations of
one group are read in one atomic action. The writers' actions may fall between
any two groups. The ghost `bufTag` copies the writers' tags along with the
words.

Every copied word is a word of some earlier state of the run (`Copying.Sound`),
but different words may come from different states.
-/

set_option autoImplicit false

namespace HangAnalyzer.Lib

/-- The writers' state, the number of groups read, and the copy so far. -/
structure Copying {Loc : Type} (width : Loc → Nat) where
  shared : Shared width
  next : Nat
  buf : Memory width
  bufTag : Loc → Option Nat

/-- An action of a writer, or the reader reads its next group. -/
inductive CopyOp where
  | write (op : Op)
  | copy
  deriving Repr, DecidableEq

variable {Loc Arg : Type} {width : Loc → Nat}

namespace Copying

/-- The state before any call, with an empty copy. -/
def start (m : Memory width) : Copying width where
  shared := Protocol.start m
  next := 0
  buf := Memory.zero width
  bufTag _ := none

/-- Every group read so far holds the values and the tags it had in one earlier
state of the run. -/
structure Sound (P : Protocol Loc Arg) (args : Nat → Arg) (group : Loc → Nat)
    (m : Memory width) (s : Copying width) : Prop where
  now : P.Tracked args m s.shared
  copied : ∀ g < s.next, ∃ t : Shared width, P.Tracked args m t ∧
    t.calls.length ≤ s.shared.calls.length ∧
    ∀ l, group l = g → s.buf.read l = t.mem.read l ∧ s.bufTag l = t.tag l

/-- Nothing has been copied at the start. -/
theorem sound_start (P : Protocol Loc Arg) (args : Nat → Arg) (group : Loc → Nat)
    (m : Memory width) : Sound P args group m (start m) where
  now := Protocol.tracked_start P args m
  copied _ h := absurd h (Nat.not_lt_zero _)

variable [DecidableEq Loc]

/-- The state after one action. -/
def step (P : Protocol Loc Arg) (args : Nat → Arg) (group : Loc → Nat) (s : Copying width) :
    CopyOp → Option (Copying width)
  | .write op => (P.step args s.shared op).map fun shared => { s with shared }
  | .copy => some { s with
      next := s.next + 1
      buf := Memory.copyWhere (fun l => group l == s.next) s.shared.mem s.buf
      bufTag := fun l => if group l == s.next then s.shared.tag l else s.bufTag l }

variable {P : Protocol Loc Arg} {args : Nat → Arg} {group : Loc → Nat} {m : Memory width}
  {s s' : Copying width}

/-- A writer's action leaves the copy alone and never removes a call. -/
theorem sound_write {op : Op} (h : Sound P args group m s)
    (hs : step P args group s (.write op) = some s') : Sound P args group m s' := by
  simp only [step, Option.map_eq_some_iff] at hs
  obtain ⟨shared, hop, rfl⟩ := hs
  cases op with
  | claim =>
      have hlen : s.shared.calls.length ≤ shared.calls.length := by
        simp only [Protocol.step, Option.some.injEq] at hop
        simp [← hop]
      -- A word that was copied was that of an earlier moment, which stays so.
      refine ⟨Protocol.tracked_claim h.now hop, fun g hg => ?_⟩
      obtain ⟨t, ht, htlen, hcopy⟩ := h.copied g hg
      exact ⟨t, ht, Nat.le_trans htlen hlen, hcopy⟩
  | advance k =>
      have hlen : shared.calls.length = s.shared.calls.length := by
        obtain ⟨seq, a, todo, -, rfl⟩ := Protocol.step_advance P args hop
        simp
      refine ⟨Protocol.tracked_advance h.now hop, fun g hg => ?_⟩
      obtain ⟨t, ht, htlen, hcopy⟩ := h.copied g hg
      exact ⟨t, ht, by simpa only [hlen] using htlen, hcopy⟩

/-- The group just read comes from the current state. -/
theorem sound_copy (h : Sound P args group m s)
    (hs : step P args group s .copy = some s') : Sound P args group m s' := by
  simp only [step, Option.some.injEq] at hs
  subst hs
  refine ⟨h.now, fun g hg => ?_⟩
  by_cases hnow : g = s.next
  · refine ⟨s.shared, h.now, Nat.le_refl _, fun l hl => ?_⟩
    simp [Memory.read_copyWhere, hl, hnow]
  · have hlt : g < s.next := by
      simp only at hg
      omega
    obtain ⟨t, ht, htlen, hcopy⟩ := h.copied g hlt
    refine ⟨t, ht, htlen, fun l hl => ?_⟩
    simpa [Memory.read_copyWhere, hl, hnow] using hcopy l hl

/-- In every state of a copy each word is one that the memory had. -/
theorem sound_run {ops : List CopyOp} (h : Run (step P args group) (start m) ops s) :
    Sound P args group m s := by
  refine Run.invariant (Sound P args group m) ?_ h (sound_start P args group m)
  intro s a s' hs hstep
  cases a with
  | write op => exact sound_write hs hstep
  | copy => exact sound_copy hs hstep

/-- Two states of one interleaving under different arguments. -/
structure Alike (P : Protocol Loc Arg) (p : Loc → Bool) (args args' : Nat → Arg)
    (m : Memory width) (s t : Copying width) : Prop where
  shared : P.Alike p args args' m s.shared t.shared
  next : s.next = t.next
  bufTag : s.bufTag = t.bufTag
  agree : ∀ l, p l → s.buf.read l = t.buf.read l

/-- The copied tags of a run, and the copied words of the locations `p`, do not
depend on the arguments of the calls. -/
theorem bufTag_eq {p : Loc → Bool} (hp : P.Uniform p) {ops : List CopyOp}
    (h : Run (step P args group) (start m) ops s) (args' : Nat → Arg) :
    ∃ t : Copying width, Run (step P args' group) (start m) ops t ∧
      Alike P p args args' m s t := by
  refine Run.simulates (Alike P p args args' m) ?_ h
    ⟨Protocol.alike_start P p args args' m, rfl, rfl, fun _ _ => rfl⟩
  intro s t op s' halike hs
  cases op with
  | write op =>
      simp only [step, Option.map_eq_some_iff] at hs
      obtain ⟨shared, hop, rfl⟩ := hs
      obtain ⟨shared', hop', hshared⟩ := Protocol.alike_step hp halike.shared op hop
      exact ⟨{ t with shared := shared' }, by simp [step, hop'],
        ⟨hshared, halike.next, halike.bufTag, halike.agree⟩⟩
  -- The copies are of the same word, and their calls are told by the same tags.
  | copy =>
      simp only [step, Option.some.injEq] at hs
      subst hs
      refine ⟨_, rfl, halike.shared, by simp [halike.next], ?_, fun l hl => ?_⟩
      · simp [halike.next, halike.bufTag, halike.shared.tag]
      · simp only [Memory.read_copyWhere, halike.next, halike.agree l hl,
          halike.shared.agree l hl]

/-- The writers can run while the reader rests. -/
theorem run_writes {ops : List Op} {t : Shared width} (h : Run (P.step args) s.shared ops t) :
    Run (step P args group) s (ops.map .write) { s with shared := t } := by
  induction ops generalizing s with
  | nil =>
      obtain rfl := Run.nil_iff.mp h
      exact Run.nil_iff.mpr rfl
  | cons op ops ih =>
      obtain ⟨u, hu, hrest⟩ := Run.cons_iff.mp h
      refine Run.cons_iff.mpr ⟨{ s with shared := u }, ?_, ih hrest⟩
      rw [step, hu]
      rfl

/-- While the writers rest, the reader copies the memory as it is. -/
theorem exists_run_copies (P : Protocol Loc Arg) (args : Nat → Arg) (group : Loc → Nat)
    (s : Copying width) (n : Nat) :
    ∃ t : Copying width, Run (step P args group) s (List.replicate n .copy) t ∧
      t.shared = s.shared ∧ t.next = s.next + n ∧
      ∀ l, s.next ≤ group l → group l < s.next + n → t.buf.read l = s.shared.mem.read l := by
  -- Each copy takes the next word. Nothing stores meanwhile.
  induction n with
  | zero =>
      refine ⟨s, Run.nil_iff.mpr rfl, rfl, rfl, fun l hlo hhi => ?_⟩
      omega
  | succ n ih =>
      obtain ⟨t, hrun, hshared, hnext, hread⟩ := ih
      have hcopy : Run (step P args group) t [.copy] { t with
          next := t.next + 1
          buf := Memory.copyWhere (fun l => group l == t.next) t.shared.mem t.buf
          bufTag := fun l => if group l == t.next then t.shared.tag l else t.bufTag l } :=
        Run.single rfl
      rw [List.replicate_succ']
      refine ⟨_, hrun.append hcopy, hshared, ?_, fun l hlo hhi => ?_⟩
      · show t.next + 1 = _
        omega
      · show (Memory.copyWhere _ t.shared.mem t.buf).read l = _
        rw [Memory.read_copyWhere, hshared]
        by_cases hl : group l = t.next
        · simp [hl]
        · simp only [beq_iff_eq, hl, if_false]
          exact hread l hlo (by omega)

end Copying

end HangAnalyzer.Lib
