import Mathlib.Logic.Relation
import HangAnalyzer.Lib.Runs

/-!
# `HangAnalyzer.Lib.LiveRead`: reading a memory while it changes

A `Reading` is a program that reads one word after another and goes on with what it
has read. `Reading.eval` runs it on a memory that does not change. `Live.step` runs
it next to a system that does: any number of steps of the system may come between
two words.

`Reads` is the same run seen from the program: it goes from one state of the system
to a later one, and each word is read in some state in between. So the run of
`p.bind f` is a run of `p` followed by a run of `f` (`reads_bind`), and `reads_of_steps`
leads from the steps to this view. The predicate `Q` says what holds at every word
that is read.
-/

set_option autoImplicit false

namespace HangAnalyzer.Lib

/-- A program that reads words of a memory, and ends with a result. -/
inductive Reading (β : Type) where
  | done (b : β)
  | read (word : Nat) (next : List UInt8 → Reading β)

namespace Reading

variable {β γ : Type}

/-- Go on with the result of a program. -/
def bind : Reading β → (β → Reading γ) → Reading γ
  | done b,      f => f b
  | read w next, f => read w fun v => (next v).bind f

/-- The bytes of the `n` words from word `w` on. -/
def words : Nat → Nat → Reading (List UInt8)
  | _, 0     => done []
  | w, n + 1 => read w fun v => (words (w + 1) n).bind fun vs => done (v ++ vs)

/-- The result on a memory that does not change. -/
def eval (view : Nat → List UInt8) : Reading β → β
  | done b      => b
  | read w next => (next (view w)).eval view

end Reading

/-- A system, and the rest of a program that reads its memory. -/
structure Live (σ β : Type) where
  shared : σ
  reader : Reading β

/-- A step of the system, or the program reads its next word. -/
inductive LiveOp (α : Type) where
  | write (a : α)
  | read
  deriving Repr, DecidableEq

variable {σ α β γ : Type}

/-- The state after a step. `view s` are the words of the memory in the state `s`. -/
def Live.step (step : σ → α → Option σ) (view : σ → Nat → List UInt8) (s : Live σ β) :
    LiveOp α → Option (Live σ β)
  | .write a => (step s.shared a).map fun shared => { s with shared }
  | .read =>
      match s.reader with
      | .done _      => none
      | .read w next => some { s with reader := next (view s.shared w) }

/-- The program `p` starts in the state `s` and ends in the state `t` with the result
`b`. Between two words the system goes on by `R`, and `Q` holds at every word. -/
inductive Reads (R : σ → σ → Prop) (view : σ → Nat → List UInt8) (Q : σ → Nat → Prop) :
    σ → Reading β → σ → β → Prop where
  | done {s t : σ} {b : β} (later : Relation.ReflTransGen R s t) :
      Reads R view Q s (.done b) t b
  | read {s t u : σ} {w : Nat} {next : List UInt8 → Reading β} {b : β}
      (later : Relation.ReflTransGen R s t) (holds : Q t w)
      (rest : Reads R view Q t (next (view t w)) u b) : Reads R view Q s (.read w next) u b

section
variable {R : σ → σ → Prop} {view : σ → Nat → List UInt8} {Q : σ → Nat → Prop} {s t u : σ}
  {p : Reading β} {b : β}

/-- The system may go on before the program does. -/
theorem Reads.head (hlater : Relation.ReflTransGen R s t) (h : Reads R view Q t p u b) :
    Reads R view Q s p u b := by
  cases h with
  | done later => exact .done (hlater.trans later)
  | read later holds rest => exact .read (hlater.trans later) holds rest

/-- The program ends later than it starts. -/
theorem Reads.later (h : Reads R view Q s p u b) : Relation.ReflTransGen R s u := by
  induction h with
  | done later => exact later
  | read later _ _ ih => exact later.trans ih

/-- A program followed by another one. -/
theorem reads_bind {f : β → Reading γ} {c : γ} (h : Reads R view Q s (p.bind f) u c) :
    ∃ t b, Reads R view Q s p t b ∧ Reads R view Q t (f b) u c := by
  induction p generalizing s with
  | done b => exact ⟨s, b, .done .refl, h⟩
  | read w next ih =>
      cases h with
      | read later holds rest =>
          obtain ⟨t, b, hp, hf⟩ := ih _ rest
          exact ⟨t, b, .read later holds hp, hf⟩

/-- Each of several words is read in a state of its own. -/
theorem reads_words {w n : Nat} {vs : List UInt8} (h : Reads R view Q s (.words w n) u vs) :
    ∃ moment : Nat → σ,
      (∀ i < n, Relation.ReflTransGen R s (moment i) ∧ Relation.ReflTransGen R (moment i) u ∧
        Q (moment i) (w + i)) ∧
      vs = (List.range n).flatMap fun i => view (moment i) (w + i) := by
  induction n generalizing s u w vs with
  | zero =>
      cases h with
      | done later => exact ⟨fun _ => s, by simp, rfl⟩
  | succ n ih =>
      cases h with
      | @read _ t _ _ _ _ later holds rest =>
          obtain ⟨t', vs', hwords, hdone⟩ := reads_bind rest
          obtain ⟨moment, hmoment, rfl⟩ := ih hwords
          cases hdone with
          | done later' =>
              -- The first word is read at `t`, the others at the moments of the rest.
              refine ⟨fun i => Nat.casesOn i t moment, fun i hi => ?_, ?_⟩
              · cases i with
                | zero => exact ⟨later, hwords.later.trans later', holds⟩
                | succ i =>
                    obtain ⟨hfrom, hto, hq⟩ := hmoment i (Nat.lt_of_succ_lt_succ hi)
                    refine ⟨later.trans hfrom, hto.trans later', ?_⟩
                    show Q (moment i) (w + (i + 1))
                    rw [Nat.add_comm i, ← Nat.add_assoc]
                    exact hq
              · rw [List.range_succ_eq_map, List.flatMap_cons, List.flatMap_map]
                simp only [Nat.add_assoc, Nat.add_comm 1]
                rfl

/-- A run of any system with a `Live` part is a run of the program, if each step either moves
what the program reads by `R` or reads the next word of the program where `Q` holds. -/
theorem reads_of_steps {τ : Type} {step : τ → α → Option τ} (live : τ → Live σ β) {x y : τ}
    {ops : List α}
    (halong : Run.Along step (fun x _ y =>
      ((live y).reader = (live x).reader ∧
          Relation.ReflTransGen R (live x).shared (live y).shared) ∨
        ∃ w next, (live x).reader = .read w next ∧ Q (live x).shared w ∧
          live y = ⟨(live x).shared, next (view (live x).shared w)⟩) x ops)
    (h : Run step x ops y) (hdone : (live y).reader = .done b) :
    Reads R view Q (live x).shared (live x).reader (live y).shared b := by
  -- A step of the others leaves the reader, and a step of the reader leaves the shared state.
  induction ops generalizing x with
  | nil =>
      obtain rfl := Run.nil_iff.mp h
      rw [hdone]
      exact .done .refl
  | cons op ops ih =>
      obtain ⟨z, hop, hrest⟩ := Run.cons_iff.mp h
      obtain ⟨hstep, halong⟩ := Run.along_cons_iff.mp halong z hop
      have hlater := ih halong hrest
      rcases hstep with ⟨hreader, hmoved⟩ | ⟨w, next, hreader, hq, hz⟩
      · rw [← hreader]
        exact hlater.head hmoved
      · rw [hz] at hlater
        rw [hreader]
        exact .read .refl hq hlater

/-- A run of the steps is a run of the program. -/
theorem reads_of_run {step : σ → α → Option σ} {ops : List (LiveOp α)}
    (halong : Run.Along (Live.step step view) (fun x op y =>
      (∀ a, op = .write a → R x.shared y.shared) ∧
        (op = .read → ∀ w next, x.reader = .read w next → Q x.shared w)) ⟨s, p⟩ ops)
    (h : Run (Live.step step view) ⟨s, p⟩ ops ⟨t, .done b⟩) : Reads R view Q s p t b := by
  refine reads_of_steps id (fun pre op post x y heq hpre hop => ?_) h rfl
  obtain ⟨hwrite, hread⟩ := halong pre op post x y heq hpre hop
  cases op with
  | write a =>
      obtain ⟨shared, -, rfl⟩ := Option.map_eq_some_iff.mp hop
      exact .inl ⟨rfl, .single (hwrite a rfl)⟩
  | read =>
      cases hreader : x.reader with
      | done b' =>
          rw [Live.step, hreader] at hop
          cases hop
      | read w next =>
          rw [Live.step, hreader] at hop
          obtain rfl := Option.some.inj hop
          exact .inr ⟨w, next, hreader, hread rfl w next hreader, rfl⟩

/-- The run of the system without the program. -/
theorem exists_run_shared {step : σ → α → Option σ} {x y : Live σ β} {ops : List (LiveOp α)}
    (h : Run (Live.step step view) x ops y) : ∃ as, Run step x.shared as y.shared := by
  refine Run.invariant (fun y : Live σ β => ∃ as, Run step x.shared as y.shared)
    -- Only the writes change what is shared.
    (fun y op z hy hop => ?_) h ⟨[], Run.nil_iff.mpr rfl⟩
  obtain ⟨as, has⟩ := hy
  cases op with
  | write a =>
      obtain ⟨t, ht, rfl⟩ := Option.map_eq_some_iff.mp hop
      exact ⟨as ++ [a], Run.concat_iff.mpr ⟨y.shared, has, ht⟩⟩
  | read =>
      cases hreader : y.reader with
      | done b =>
          rw [Live.step, hreader] at hop
          cases hop
      | read w next =>
          rw [Live.step, hreader] at hop
          obtain rfl := Option.some.inj hop
          exact ⟨as, has⟩

/-! ### The system first, then the program -/

/-- The system runs before the program starts. -/
theorem run_write {step : σ → α → Option σ} {ops : List α} (h : Run step s ops t) :
    Run (Live.step step view) ⟨s, p⟩ (ops.map .write) ⟨t, p⟩ := by
  induction ops generalizing s with
  | nil => rw [Run.nil_iff.mp h]; exact Run.nil_iff.mpr rfl
  | cons a ops ih =>
      obtain ⟨x, hx, hrest⟩ := Run.cons_iff.mp h
      refine Run.cons_iff.mpr ⟨⟨x, p⟩, ?_, ih hrest⟩
      rw [Live.step, hx]
      rfl

/-- The program runs to its end while the system does not move. -/
theorem exists_run_eval (step : σ → α → Option σ) (view : σ → Nat → List UInt8) (t : σ)
    (p : Reading β) : ∃ n, Run (Live.step step view) ⟨t, p⟩ (List.replicate n .read)
      ⟨t, .done (p.eval (view t))⟩ := by
  induction p with
  | done b => exact ⟨0, Run.nil_iff.mpr rfl⟩
  | read w next ih =>
      obtain ⟨n, hn⟩ := ih (view t w)
      exact ⟨n + 1, Run.cons_iff.mpr ⟨_, rfl, hn⟩⟩

/-- The steps of such a run are those of the system, and words that are read at its
end. -/
theorem along_write_read {step : σ → α → Option σ} {ops : List α}
    {P : Live σ β → LiveOp α → Live σ β → Prop} {n : Nat} (h : Run step s ops t)
    (hwrite : Run.Along step (fun x a y => P ⟨x, p⟩ (.write a) ⟨y, p⟩) s ops)
    (hread : ∀ q y, P ⟨t, q⟩ .read y) :
    Run.Along (Live.step step view) P ⟨s, p⟩ (ops.map .write ++ List.replicate n .read) := by
  -- After the last write the reader goes on alone.
  have hreads : ∀ q, Run.Along (Live.step step view) P ⟨t, q⟩ (List.replicate n .read) := by
    induction n with
    | zero => exact fun q => Run.along_nil
    | succ n ih =>
        intro q
        rw [List.replicate_succ, Run.along_cons_iff]
        intro x hx
        refine ⟨hread q x, ?_⟩
        cases q with
        | done b => cases hx
        | read w next =>
            obtain rfl := Option.some.inj hx
            exact ih _
  refine Run.along_append (run_write h) ?_ (hreads p)
  induction ops generalizing s with
  | nil => exact Run.along_nil
  | cons a ops ih =>
      obtain ⟨x, hx, hrest⟩ := Run.cons_iff.mp h
      obtain ⟨hfirst, hlater⟩ := Run.along_cons_iff.mp hwrite x hx
      rw [List.map_cons, Run.along_cons_iff]
      intro y hy
      obtain ⟨x', hx', rfl⟩ := Option.map_eq_some_iff.mp hy
      obtain rfl := Option.some.inj (hx.symm.trans hx')
      exact ⟨hfirst, ih hrest hlater⟩

end

namespace Reading

variable {p : Reading β} {view : Nat → List UInt8}

/-- The second part is read with what the first one found. -/
@[simp] theorem eval_bind (f : β → Reading γ) :
    (p.bind f).eval view = (f (p.eval view)).eval view := by
  induction p with
  | done b => rfl
  | read w next ih => exact ih _

/-- The bytes of consecutive words. -/
theorem eval_words (w n : Nat) :
    (words w n).eval view = (List.range n).flatMap fun i => view (w + i) := by
  induction n generalizing w with
  | zero => rfl
  | succ n ih =>
      show ((words (w + 1) n).bind fun vs => done (view w ++ vs)).eval view = _
      rw [eval_bind, ih, List.range_succ_eq_map, List.flatMap_cons, List.flatMap_map]
      simp only [Nat.add_assoc, Nat.add_comm 1]
      rfl

end Reading

end HangAnalyzer.Lib
