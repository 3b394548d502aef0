import HangAnalyzer.Mspti.Recording
import HangAnalyzer.Proofs.Mspti.Buffers
import HangAnalyzer.Proofs.Mspti.RoundTrip

/-!
# `HangAnalyzer.Proofs.Mspti.Recording`: one run, seen from three sides

A run of `HangAnalyzer.Mspti.Recording` is, for the calls, a run of
`HangAnalyzer.Mspti.Buffers` without a stop (`buffers_of_run`). For the mapping it is a run of
the claim protocol of `record`, with the arguments of the calls in the order of their claims
(`ring_of_run`). For the reader it is a reading of that mapping while it changes
(`reading_of_run`).

As long as the ring has not wrapped, no two calls have the same slot (`exclusive_of_fit`) and
no slot is claimed again (`notClaimedAgain_of_fit`).
-/

set_option autoImplicit false

namespace HangAnalyzer.Mspti.Buffers

open HangAnalyzer.Lib

section
variable {pool : Pool} {s t : State} {a : Action}

/-- A call is recorded behind those before. -/
theorem recorded_record (hmapped : s.mapped = true) (source : Option Nat) (call : Option Call) :
    (s.record source call).recorded = s.recorded ++ call.toList.map (source, ·) :=
  if_pos hmapped

/-- While the file is mapped, a step makes at most one `record` call. -/
theorem recorded_step (h : s.step pool a = some t) (hmapped : s.mapped = true)
    (hstop : a ≠ .stop) :
    t.mapped = true ∧ ∃ l, t.recorded = s.recorded ++ l ∧ l.length ≤ 1 := by
  have hnone : ∃ l, s.recorded = s.recorded ++ l ∧ l.length ≤ 1 :=
    ⟨[], (List.append_nil _).symm, Nat.zero_le 1⟩
  have hsome : ∀ (source : Option Nat) (call : Option Call),
      ∃ l, (s.record source call).recorded = s.recorded ++ l ∧ l.length ≤ 1 := by
    intro source call
    refine ⟨_, recorded_record hmapped source call, ?_⟩
    cases call <;> simp
  -- Only three steps call `record()`, and each calls it once at most.
  cases step_cases h with
  | read hk hpc ha => exact ⟨hmapped, hsome _ _⟩
  | callback => exact ⟨hmapped, hsome _ _⟩
  | status => exact ⟨hmapped, hsome _ _⟩
  | stop => exact absurd rfl hstop
  | restart hmapped' => exact absurd hmapped hmapped'
  | _ => exact ⟨hmapped, hnone⟩

end

end HangAnalyzer.Mspti.Buffers

namespace HangAnalyzer.Mspti

/-- A longer list has the same arguments for the calls of the shorter one. -/
theorem argsOf_prefix {calls calls' : List Call} (h : calls <+: calls') {k : Nat}
    (hk : k < calls.length) : argsOf calls k = argsOf calls' k := by
  obtain ⟨more, rfl⟩ := h
  have hget : calls[k]? = some calls[k] := List.getElem?_eq_getElem hk
  rw [argsOf_eq k _ hget, argsOf_eq k _ ((List.getElem?_append_left hk).trans hget)]

namespace Recording

open HangAnalyzer.Lib
open HangAnalyzer.Mspti.Buffers (Pool)
open Relation (ReflTransGen)

/-! ### The steps -/

/-- What a step can do. -/
inductive State.Step (pool : Pool) (pid : UInt32) (capacity : UInt64) (s : State) :
    Action → State → Prop where
  | go {a : Buffers.Action} {buffers : Buffers.State} (hready : s.ready a = true)
      (hstep : s.buffers.step pool a = some buffers)
      (hnone : ¬ s.buffers.recorded.length < buffers.recorded.length) :
      Step pool pid capacity s (.buffers a) { s with buffers }
  | claim {a : Buffers.Action} {buffers : Buffers.State} {ring : Shared Cell.width}
      (hready : s.ready a = true) (hstep : s.buffers.step pool a = some buffers)
      (hsome : s.buffers.recorded.length < buffers.recorded.length)
      (hring : (msptiProtocol pid capacity.toNat).step
        (argsOf (buffers.recorded.map Prod.snd)) s.ring .claim = some ring) :
      Step pool pid capacity s (.buffers a) { s with buffers, ring }
  | store {k : Nat} {ring : Shared Cell.width}
      (hring : (msptiProtocol pid capacity.toNat).step
        (argsOf (s.buffers.recorded.map Prod.snd)) s.ring (.advance k) = some ring) :
      Step pool pid capacity s (.store k) { s with ring }
  | read {w : Nat} {next : List UInt8 → Reading (Except String (RingHeader × List Event))}
      (hreader : s.reader = .read w next) :
      Step pool pid capacity s .read { s with reader := next (view capacity.toNat s.ring w) }

section
variable {pool : Pool} {pid : UInt32} {capacity : UInt64} {s t u : State} {a : Action}
  {as : List Action}

/-- Every step of the recording is one of the list. -/
theorem step_cases (h : s.step pool pid capacity a = some t) :
    s.Step pool pid capacity a t := by
  cases a with
  | buffers a =>
      -- A step of the buffers may call `record()`, which claims a number of the ring.
      simp only [State.step] at h
      split at h
      case isTrue hready =>
        obtain ⟨buffers, hstep, h⟩ := Option.bind_eq_some_iff.mp h
        split at h
        case isTrue hsome =>
          obtain ⟨ring, hring, rfl⟩ := Option.map_eq_some_iff.mp h
          exact .claim hready hstep hsome hring
        case isFalse hnone =>
          obtain rfl := Option.some.inj h
          exact .go hready hstep hnone
      case isFalse => cases h
  | store k =>
      obtain ⟨ring, hring, rfl⟩ := Option.map_eq_some_iff.mp h
      exact .store hring
  | read =>
      cases hreader : s.reader with
      | done r =>
          rw [State.step, hreader] at h
          cases h
      | read w next =>
          rw [State.step, hreader] at h
          obtain rfl := Option.some.inj h
          exact .read hreader

/-- A step that is ready stops nothing. -/
theorem ne_stop_of_ready {a : Buffers.Action} (h : s.ready a = true) : a ≠ .stop := by
  rintro rfl
  cases h

/-- The file is mapped, and each `record` call has claimed its number. -/
structure State.Claimed (s : State) : Prop where
  mapped : s.buffers.mapped = true
  length : s.ring.calls.length = s.buffers.recorded.length

/-- No number is claimed at the start. -/
theorem claimed_start {wallNs monoNs : UInt64} {contents : Nat → List Buffers.Activity} :
    (State.start capacity pid wallNs monoNs contents).Claimed := ⟨rfl, rfl⟩

/-- A step keeps the calls that have been made, and the new one claims its number. -/
theorem State.Claimed.step (h : s.Claimed) (hstep : s.step pool pid capacity a = some t) :
    t.Claimed ∧ s.buffers.recorded <+: t.buffers.recorded := by
  cases step_cases hstep with
  -- Nothing was recorded, so no call of the ring starts.
  | go hready hbuffers hnone =>
      obtain ⟨hmapped, l, hl, hone⟩ :=
        Buffers.recorded_step hbuffers h.mapped (ne_stop_of_ready hready)
      rw [hl, List.length_append] at hnone
      obtain rfl : l = [] := List.eq_nil_of_length_eq_zero (by omega)
      rw [List.append_nil] at hl
      refine ⟨⟨hmapped, ?_⟩, ?_⟩
      · rw [hl]
        exact h.length
      · rw [hl]
  -- One call was recorded, and one call of the ring starts.
  | claim hready hbuffers hsome hring =>
      obtain ⟨hmapped, l, hl, hone⟩ :=
        Buffers.recorded_step hbuffers h.mapped (ne_stop_of_ready hready)
      refine ⟨⟨hmapped, ?_⟩, ⟨l, hl.symm⟩⟩
      obtain rfl := Option.some.inj hring
      rw [hl, List.length_append] at hsome ⊢
      rw [List.length_append, List.length_singleton, h.length]
      omega
  | store hring =>
      refine ⟨⟨h.mapped, ?_⟩, List.prefix_refl _⟩
      -- A store goes on with a call that has started.
      obtain ⟨seq, a, todo, -, rfl⟩ := Protocol.step_advance _ _ hring
      rw [List.length_set]
      exact h.length
  | read hreader => exact ⟨⟨h.mapped, h.length⟩, List.prefix_refl _⟩

/-- Along a run every call claims its number when it is recorded, and no record is taken
back. -/
theorem State.Claimed.run (h : s.Claimed) (hrun : Run (State.step pool pid capacity) s as t) :
    t.Claimed ∧ s.buffers.recorded <+: t.buffers.recorded := by
  refine Run.invariant (fun x : State => x.Claimed ∧ s.buffers.recorded <+: x.buffers.recorded)
    (fun x a y hx hstep => ?_) hrun ⟨h, List.prefix_refl _⟩
  obtain ⟨hy, hprefix⟩ := hx.1.step hstep
  exact ⟨hy, hx.2.trans hprefix⟩

/-- A step of the mapping, with the arguments of all calls that are made before the end. -/
theorem State.Claimed.ring_step (h : s.Claimed) (hstep : s.step pool pid capacity a = some t)
    (hlater : t.buffers.recorded <+: u.buffers.recorded) :
    t.ring = s.ring ∨ ∃ op, (msptiProtocol pid capacity.toNat).step
      (argsOf (u.buffers.recorded.map Prod.snd)) s.ring op = some t.ring := by
  cases step_cases hstep with
  | go => exact .inl rfl
  | @claim a buffers ring hready hbuffers hsome hring =>
      -- The new call is the last one so far, and the end has the same call in its place.
      have hargs : argsOf (buffers.recorded.map Prod.snd) s.ring.calls.length
          = argsOf (u.buffers.recorded.map Prod.snd) s.ring.calls.length := by
        refine argsOf_prefix (hlater.map Prod.snd) ?_
        rw [List.length_map, h.length]
        exact hsome
      refine .inr ⟨.claim, ?_⟩
      rw [← hring, Protocol.step, Protocol.step, hargs]
  | store hring => exact .inr ⟨.advance _, hring⟩
  | read hreader => exact .inl rfl

end

/-! ### The three sides of a run -/

section
variable {pool : Pool} {pid : UInt32} {capacity wallNs monoNs : UInt64}
  {contents : Nat → List Buffers.Activity} {s : State} {as : List Action}

/-- The run of the calls. -/
theorem buffers_of_run (h : Run (State.step pool pid capacity)
      (State.start capacity pid wallNs monoNs contents) as s) :
    ∃ bs, Run (Buffers.State.step pool) (Buffers.State.start contents) bs s.buffers ∧
      Buffers.Action.stop ∉ bs := by
  refine Run.invariant (fun x : State => ∃ bs,
    Run (Buffers.State.step pool) (Buffers.State.start contents) bs x.buffers ∧
      Buffers.Action.stop ∉ bs) (fun x a y hx hstep => ?_) h ⟨[], Run.nil_iff.mpr rfl, by simp⟩
  -- The actions of the ring and of the reader are left out.
  obtain ⟨bs, hbs, hstop⟩ := hx
  have hconcat : ∀ {b : Buffers.Action} {buffers : Buffers.State}, x.ready b = true →
      x.buffers.step pool b = some buffers →
      ∃ bs, Run (Buffers.State.step pool) (Buffers.State.start contents) bs buffers ∧
        Buffers.Action.stop ∉ bs := by
    intro b buffers hready hb
    refine ⟨bs ++ [b], Run.concat_iff.mpr ⟨x.buffers, hbs, hb⟩, ?_⟩
    rw [List.mem_append, List.mem_singleton]
    exact fun hmem => hmem.elim hstop (ne_stop_of_ready hready).symm
  cases step_cases hstep with
  | go hready hbuffers hnone => exact hconcat hready hbuffers
  | claim hready hbuffers hsome hring => exact hconcat hready hbuffers
  | store hring => exact ⟨bs, hbs, hstop⟩
  | read hreader => exact ⟨bs, hbs, hstop⟩

/-- Each step of the mapping, with the arguments of the calls of the whole run. -/
theorem ring_along (h : Run (State.step pool pid capacity)
      (State.start capacity pid wallNs monoNs contents) as s) :
    Run.Along (State.step pool pid capacity) (fun x _ y => y.ring = x.ring ∨
      ∃ op, (msptiProtocol pid capacity.toNat).step (argsOf (s.buffers.recorded.map Prod.snd))
        x.ring op = some y.ring) (State.start capacity pid wallNs monoNs contents) as := by
  refine Run.along_of_run h fun pre x a y post hpre hstep hpost => ?_
  have hx := (claimed_start.run hpre).1
  exact hx.ring_step hstep ((hx.step hstep).1.run hpost).2

/-- The run of the mapping. -/
theorem ring_of_run (h : Run (State.step pool pid capacity)
      (State.start capacity pid wallNs monoNs contents) as s) :
    ∃ ops, Run ((msptiProtocol pid capacity.toNat).step
      (argsOf (s.buffers.recorded.map Prod.snd)))
      (Protocol.start (initRing capacity pid wallNs monoNs)) ops s.ring := by
  refine Run.invariant_along (fun x : State => ∃ ops, Run ((msptiProtocol pid capacity.toNat).step
      (argsOf (s.buffers.recorded.map Prod.snd)))
      (Protocol.start (initRing capacity pid wallNs monoNs)) ops x.ring)
    (fun x a y hx _ hring => ?_) (ring_along h) h ⟨[], Run.nil_iff.mpr rfl⟩
  obtain ⟨ops, hops⟩ := hx
  -- The ring stays as it is, or makes a step of its own.
  rcases hring with hsame | ⟨op, hop⟩
  · rw [hsame]
    exact ⟨ops, hops⟩
  · exact ⟨ops ++ [op], Run.concat_iff.mpr ⟨x.ring, hops, hop⟩⟩

/-- At no time two `record` calls in progress have the same slot. -/
def SlotsExclusive (pool : Pool) (pid : UInt32) (capacity wallNs monoNs : UInt64)
    (contents : Nat → List Buffers.Activity) (as : List Action) : Prop :=
  Run.Along (State.step pool pid capacity)
    (fun x _ _ => Protocol.Exclusive (slotRegions capacity.toNat) x.ring)
    (State.start capacity pid wallNs monoNs contents) as

/-- If the step reads a word, `Q` holds at that word. -/
def State.AtWord (s : State) (Q : Shared Cell.width → Nat → Prop) (a : Action) : Prop :=
  a = .read → ∀ w next, s.reader = .read w next → Q s.ring w

/-- `Q` holds at every word that the reader reads. -/
def AtWords (pool : Pool) (pid : UInt32) (capacity wallNs monoNs : UInt64)
    (contents : Nat → List Buffers.Activity) (as : List Action)
    (Q : Shared Cell.width → Nat → Prop) : Prop :=
  Run.Along (State.step pool pid capacity) (fun x a _ => x.AtWord Q a)
    (State.start capacity pid wallNs monoNs contents) as

/-- The run of the reader. -/
theorem reading_of_run {Q : Shared Cell.width → Nat → Prop}
    {r : Except String (RingHeader × List Event)}
    (h : Run (State.step pool pid capacity)
      (State.start capacity pid wallNs monoNs contents) as s) (hdone : s.reader = .done r)
    (hexclusive : SlotsExclusive pool pid capacity wallNs monoNs contents as)
    (hwords : AtWords pool pid capacity wallNs monoNs contents as Q) :
    Reads (Moves pid capacity.toNat (argsOf (s.buffers.recorded.map Prod.snd)))
      (view capacity.toNat) Q (Protocol.start (initRing capacity pid wallNs monoNs))
      (readRing (128 + capacity.toNat * 192)) s.ring r := by
  refine reads_of_steps (fun x : State => ⟨x.ring, x.reader⟩)
    (fun pre a post x y heq hpre hstep => ?_) h hdone
  have hring := ring_along h pre a post x y heq hpre hstep
  -- The slots are exclusive, so the step of the ring is one that the reader allows.
  have hmoved : ReflTransGen
      (Moves pid capacity.toNat (argsOf (s.buffers.recorded.map Prod.snd))) x.ring y.ring := by
    rcases hring with hsame | ⟨op, hop⟩
    · rw [hsame]
    · exact .single ⟨hexclusive pre a post x y heq hpre hstep, op, hop⟩
  cases step_cases hstep with
  | go => exact .inl ⟨rfl, hmoved⟩
  | claim => exact .inl ⟨rfl, hmoved⟩
  | store => exact .inl ⟨rfl, hmoved⟩
  | read hreader =>
      exact .inr ⟨_, _, hreader, hwords pre _ post x _ heq hpre hstep rfl _ _ hreader, rfl⟩

/-! ### A ring that has not wrapped -/

/-- What holds of every ring whose calls fit holds along a run whose calls all fit. -/
theorem along_of_fit {P : Shared Cell.width → Prop} (h : Run (State.step pool pid capacity)
      (State.start capacity pid wallNs monoNs contents) as s)
    (hfit : s.buffers.recorded.length ≤ capacity.toNat)
    (hP : ∀ args ring, (msptiProtocol pid capacity.toNat).Tracked args
      (initRing capacity pid wallNs monoNs) ring → ring.calls.length ≤ capacity.toNat → P ring) :
    Run.Along (State.step pool pid capacity) (fun x _ _ => P x.ring)
      (State.start capacity pid wallNs monoNs contents) as := by
  -- No more calls than slots were recorded in any state of the run.
  refine Run.along_of_run h fun pre x a y post hpre hstep hpost => ?_
  obtain ⟨ops, hops⟩ := ring_of_run hpre
  have hx := (claimed_start.run hpre).1
  obtain ⟨hy, hxy⟩ := hx.step hstep
  refine hP _ x.ring (Protocol.tracked_run hops) ?_
  rw [hx.length]
  exact Nat.le_trans (hxy.trans (hy.run hpost).2).length_le hfit

/-- No two of them are in one slot. -/
theorem exclusive_of_fit (h : Run (State.step pool pid capacity)
      (State.start capacity pid wallNs monoNs contents) as s) (hcapacity : 0 < capacity)
    (hfit : s.buffers.recorded.length ≤ capacity.toNat) :
    SlotsExclusive pool pid capacity wallNs monoNs contents as :=
  along_of_fit h hfit fun _ _ htracked hfew =>
    exclusive_of_few (fresh_initRing capacity pid wallNs monoNs hcapacity) capacity.toNat_lt
      htracked hfew

/-- No slot of them is claimed again. -/
theorem notClaimedAgain_of_fit (h : Run (State.step pool pid capacity)
      (State.start capacity pid wallNs monoNs contents) as s) (hcapacity : 0 < capacity)
    (hfit : s.buffers.recorded.length ≤ capacity.toNat) {k : Nat} (hk : k < capacity.toNat) :
    Run.Along (State.step pool pid capacity)
      (fun x _ _ => NotClaimedAgain capacity.toNat k x.ring)
      (State.start capacity pid wallNs monoNs contents) as :=
  along_of_fit h hfit fun _ _ htracked hfew =>
    notClaimedAgain_of_few (fresh_initRing capacity pid wallNs monoNs hcapacity)
      capacity.toNat_lt htracked hfew hk

end

/-! ### Runs of one party -/

section
variable (pool : Pool) (pid : UInt32) (capacity : UInt64) {s : State}

/-- Stores of one call. -/
theorem run_store {k n : Nat} {ring : Shared Cell.width}
    (h : Run ((msptiProtocol pid capacity.toNat).step
      (argsOf (s.buffers.recorded.map Prod.snd))) s.ring (List.replicate n (.advance k)) ring) :
    Run (State.step pool pid capacity) s (List.replicate n (.store k)) { s with ring } := by
  induction n generalizing s with
  | zero =>
      obtain rfl := Run.nil_iff.mp h
      exact Run.nil_iff.mpr rfl
  -- Each store of the call is one step.
  | succ n ih =>
      obtain ⟨t, ht, hrest⟩ := Run.cons_iff.mp h
      exact Run.cons_iff.mpr ⟨{ s with ring := t }, Option.map_eq_some_iff.mpr ⟨t, ht, rfl⟩,
        ih (s := { s with ring := t }) hrest⟩

/-- A `record` call executes the stores that are left. -/
theorem exists_run_stores {k seq : Nat} (todo : List (Assign Cell))
    (hk : s.ring.calls[k]? = some ⟨seq, todo⟩) :
    ∃ n t, Run (State.step pool pid capacity) s (List.replicate n (.store k)) t ∧
      t.buffers = s.buffers ∧ t.reader = s.reader ∧
      t.ring.calls = s.ring.calls.set k ⟨seq, []⟩ := by
  obtain ⟨ring, hrun, -, -, hcalls⟩ := Protocol.exists_run_todo (msptiProtocol pid capacity.toNat)
    (argsOf (s.buffers.recorded.map Prod.snd)) todo hk
  exact ⟨_, _, run_store pool pid capacity hrun, rfl, rfl, hcalls⟩

/-- The reader reads to its end. -/
theorem exists_run_read (s : State) :
    ∃ n, Run (State.step pool pid capacity) s (List.replicate n .read)
      { s with reader := .done (s.reader.eval (view capacity.toNat s.ring)) } := by
  obtain ⟨buffers, ring, reader⟩ := s
  induction reader with
  | done r => exact ⟨0, Run.nil_iff.mpr rfl⟩
  | read w next ih =>
      obtain ⟨n, hn⟩ := ih (view capacity.toNat ring w)
      exact ⟨n + 1, Run.cons_iff.mpr ⟨_, rfl, hn⟩⟩

variable {pool pid capacity} {Q : Shared Cell.width → Nat → Prop} {as : List Action}

/-- All of its words are words of one state of the ring. -/
theorem along_read (hQ : ∀ w, Q s.ring w) (n : Nat) :
    Run.Along (State.step pool pid capacity) (fun x a _ => x.AtWord Q a) s
      (List.replicate n .read) := by
  induction n generalizing s with
  | zero => exact Run.along_nil
  | succ n ih =>
      rw [List.replicate_succ, Run.along_cons_iff]
      intro t ht
      refine ⟨fun _ w _ _ => hQ w, ?_⟩
      cases step_cases ht with
      | read hreader => exact ih hQ

/-- Between its steps it reads nothing. -/
theorem along_of_not_read (has : Action.read ∉ as) :
    Run.Along (State.step pool pid capacity) (fun x a _ => x.AtWord Q a) s as := by
  intro pre a post x y heq _ _ ha
  exact absurd (heq ▸ List.mem_append_right _ (ha ▸ List.mem_cons_self)) has

end

end Recording

end HangAnalyzer.Mspti
