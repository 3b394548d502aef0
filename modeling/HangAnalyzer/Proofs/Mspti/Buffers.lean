import HangAnalyzer.Lib.Claims
import HangAnalyzer.Mspti.Buffers

/-!
# `HangAnalyzer.Proofs.Mspti.Buffers`: no buffer is in two hands

A buffer is in a hand from the compare-exchange of `buffer_request` that sets its flag to
the store of `buffer_complete` that clears it: the call that has claimed it, msPTI, or the
call that gives it back has it. `exact_of_run` says that the flags are set for just the
buffers in a hand, and that no buffer is in two hands, whatever the order of the steps of
all the calls, and across any number of stops and starts, as long as no start clears the
flag of a buffer that is out.

`shared_iff_clear_in_use` says that this condition is the exact one: once a start has
cleared the flag of a buffer that is out, the next calls of `buffer_request` hand that
buffer out again.
-/

set_option autoImplicit false

namespace HangAnalyzer.Mspti.Buffers

open HangAnalyzer.Lib HangAnalyzer.Lib.Claims
open HangAnalyzer.Mspti.Switch (BUFFER_COUNT)

/-! ### The steps -/

/-- What a step can do. -/
inductive State.Step (pool : Pool) (s : State) : Action → State → Prop where
  | request : Step pool s .request { s with requests := s.requests ++ [.attempt 0] }
  | claim {k i : Nat} (hk : s.requests[k]? = some (.attempt i))
      (hfree : s.busy[i]? = some false) :
      Step pool s (.advanceRequest k)
        { s with busy := s.busy.set i true, requests := s.requests.set k (.claimed i) }
  | pass {k i : Nat} (hk : s.requests[k]? = some (.attempt i))
      (hbusy : s.busy[i]? = some true) :
      Step pool s (.advanceRequest k)
        { s with requests := s.requests.set k (.attempt (i + 1)) }
  | giveUp {k i : Nat} (hk : s.requests[k]? = some (.attempt i)) (hend : s.busy[i]? = none) :
      Step pool s (.advanceRequest k) { s with requests := s.requests.set k .refused }
  | handOut {k i b : Nat} (hk : s.requests[k]? = some (.claimed i))
      (hb : pool.entries[i]? = some b) :
      Step pool s (.advanceRequest k)
        { s with given := s.given ++ [b], requests := s.requests.set k (.done (some b)) }
  | drop {k : Nat} (hk : s.requests[k]? = some .refused) :
      Step pool s (.advanceRequest k)
        { s with
          dropped := if s.mapped then s.dropped + 1 else s.dropped
          requests := s.requests.set k (.done none) }
  | write {b : Nat} {records : List Activity} (hb : b ∈ s.given) :
      Step pool s (.write b records)
        { s with contents := Function.update s.contents b records }
  | completeNull {valid : Nat} :
      Step pool s (.complete none valid)
        { s with completions := s.completions ++ [⟨none, valid, .release 0, []⟩] }
  | complete {b valid : Nat} {pc : CompletionPc} (hb : b ∈ s.given)
      (hpc : pc = if valid ≠ 0 then .reading 0 else .release 0) :
      Step pool s (.complete (some b) valid)
        { s with
          given := s.given.erase b
          completions := s.completions ++ [⟨some b, valid, pc, (s.contents b).take valid⟩] }
  | read {k pos : Nat} {c : Completion} {a : Activity} {now : UInt64} {tid : UInt32}
      (hk : s.completions[k]? = some c) (hpc : c.pc = .reading pos)
      (ha : (s.validRecords c.buffer c.valid)[pos]? = some a) :
      Step pool s (.advanceCompletion k now tid)
        { s.record (some k) (a.call now tid) with
          completions := s.completions.set k { c with pc := .reading (pos + 1) } }
  | finish {k pos : Nat} {c : Completion} {now : UInt64} {tid : UInt32}
      (hk : s.completions[k]? = some c) (hpc : c.pc = .reading pos)
      (hend : (s.validRecords c.buffer c.valid)[pos]? = none) :
      Step pool s (.advanceCompletion k now tid)
        { s with completions := s.completions.set k { c with pc := .release 0 } }
  | release {k i b : Nat} {c : Completion} {now : UInt64} {tid : UInt32}
      (hk : s.completions[k]? = some c) (hpc : c.pc = .release i)
      (hb : pool.entries[i]? = some b) (hsame : c.buffer = some b) :
      Step pool s (.advanceCompletion k now tid)
        { s with
          busy := s.busy.set i false
          completions := s.completions.set k { c with pc := .done } }
  | skip {k i b : Nat} {c : Completion} {now : UInt64} {tid : UInt32}
      (hk : s.completions[k]? = some c) (hpc : c.pc = .release i)
      (hb : pool.entries[i]? = some b) (hother : c.buffer ≠ some b) :
      Step pool s (.advanceCompletion k now tid)
        { s with completions := s.completions.set k { c with pc := .release (i + 1) } }
  | leave {k i : Nat} {c : Completion} {now : UInt64} {tid : UInt32}
      (hk : s.completions[k]? = some c) (hpc : c.pc = .release i)
      (hend : pool.entries[i]? = none) :
      Step pool s (.advanceCompletion k now tid)
        { s with completions := s.completions.set k { c with pc := .done } }
  | callback {domain : CallbackDomain} {cbid : UInt32} {data : Option CallbackData}
      {now : UInt64} {tid : UInt32} :
      Step pool s (.callback domain cbid data now tid)
        (s.record none (Buffers.callback domain cbid data now tid))
  | status {code : UInt32} {name : CString} {now : UInt64} {tid : UInt32} :
      Step pool s (.status code name now tid)
        (s.record none (some (statusCall code name now tid)))
  | stop (hmapped : s.mapped) (hreset : s.reset = BUFFER_COUNT) :
      Step pool s .stop { s with mapped := false }
  | restart (hmapped : ¬ s.mapped) :
      Step pool s .restart { s with mapped := true, reset := 0, dropped := 0, recorded := [] }
  | clear (hreset : s.reset < BUFFER_COUNT) :
      Step pool s .clear { s with busy := s.busy.set s.reset false, reset := s.reset + 1 }

section
variable {pool : Pool} {contents : Nat → List Activity} {s t : State} {a : Action}
  {as : List Action}

/-- Every step of a `buffer_request` call is one of the list. -/
theorem requestStep_cases {pc pc' : RequestPc} {k : Nat} (hk : s.requests[k]? = some pc)
    (h : s.requestStep pool pc = some (t, pc')) :
    State.Step pool s (.advanceRequest k) { t with requests := s.requests.set k pc' } := by
  cases pc with
  | attempt i =>
      simp only [State.requestStep] at h
      split at h
      case h_1 hfree =>
        cases h
        exact .claim hk hfree
      case h_2 hbusy =>
        cases h
        exact .pass hk hbusy
      case h_3 hend =>
        cases h
        exact .giveUp hk hend
  | claimed i =>
      obtain ⟨b, hb, heq⟩ := Option.map_eq_some_iff.mp h
      cases heq
      exact .handOut hk hb
  | refused =>
      cases h
      exact .drop hk
  | done buffer => cases h

/-- Every step of a `buffer_complete` call is one of the list. -/
theorem completionStep_cases {c : Completion} {pc : CompletionPc} {k : Nat} {now : UInt64}
    {tid : UInt32} (hk : s.completions[k]? = some c)
    (h : s.completionStep pool k c now tid = some (t, pc)) :
    State.Step pool s (.advanceCompletion k now tid)
      { t with completions := s.completions.set k { c with pc } } := by
  cases hpc : c.pc with
  | reading pos =>
      simp only [State.completionStep, hpc] at h
      split at h
      case h_1 a ha =>
        cases h
        exact .read hk hpc ha
      case h_2 hend =>
        cases h
        exact .finish hk hpc hend
  | release i =>
      simp only [State.completionStep, hpc] at h
      split at h
      case h_1 b hb =>
        split at h
        case isTrue hsame =>
          cases h
          exact .release hk hpc hb hsame
        case isFalse hother =>
          cases h
          exact .skip hk hpc hb hother
      case h_2 hend =>
        cases h
        exact .leave hk hpc hend
  | done =>
      simp only [State.completionStep, hpc] at h
      cases h

/-- Every step of the pool is one of the list. -/
theorem step_cases (h : s.step pool a = some t) : State.Step pool s a t := by
  cases a with
  | request =>
      cases h
      exact .request
  | advanceRequest k =>
      obtain ⟨pc, hk, h⟩ := Option.bind_eq_some_iff.mp h
      obtain ⟨⟨u, pc'⟩, hstep, rfl⟩ := Option.map_eq_some_iff.mp h
      exact requestStep_cases hk hstep
  | write b records =>
      simp only [State.step] at h
      split at h
      case isTrue hb =>
        cases h
        exact .write hb
      case isFalse => cases h
  | complete buffer valid =>
      simp only [State.step] at h
      split at h
      case isTrue hb =>
        cases h
        cases buffer with
        | none =>
            have hnull : State.Step pool s (.complete none valid) _ := .completeNull
            simpa [State.validRecords] using hnull
        | some b => exact .complete (hb b rfl) (by simp)
      case isFalse => cases h
  | advanceCompletion k now tid =>
      obtain ⟨c, hk, h⟩ := Option.bind_eq_some_iff.mp h
      obtain ⟨⟨u, pc⟩, hstep, rfl⟩ := Option.map_eq_some_iff.mp h
      exact completionStep_cases hk hstep
  | callback domain cbid data now tid =>
      cases h
      exact .callback
  | status code name now tid =>
      cases h
      exact .status
  | stop =>
      simp only [State.step] at h
      split at h
      case isTrue hstop =>
        cases h
        exact .stop hstop.1 hstop.2
      case isFalse => cases h
  | restart =>
      simp only [State.step] at h
      split at h
      case isTrue => cases h
      case isFalse hmapped =>
        cases h
        exact .restart hmapped
  | clear =>
      simp only [State.step] at h
      split at h
      case isTrue hreset =>
        cases h
        exact .clear hreset
      case isFalse => cases h

end

/-! ### Who has which buffer -/

/-- The buffer that a `buffer_request` call has claimed and not yet returned. -/
def RequestPc.hand (pool : Pool) : RequestPc → Option Nat
  | .claimed i => pool.entries[i]?
  | _          => none

/-- The buffer that a `buffer_complete` call has. -/
def Completion.hand (c : Completion) : Option Nat := if c.pc = .done then none else c.buffer

/-- The entry of the buffer is not behind the comparisons that are done. -/
def Completion.Ahead (pool : Pool) (c : Completion) : Prop :=
  ∀ i b, c.pc = .release i → c.buffer = some b → b ∈ pool.entries.drop i

namespace State

/-- The buffers in a hand. -/
def hands (pool : Pool) (s : State) : List Nat :=
  s.requests.filterMap (RequestPc.hand pool) ++ s.given ++ s.completions.filterMap Completion.hand

/-- The flags are those of the buffers in a hand, and a call that gives a buffer back has
its entry still before it. -/
structure Inv (pool : Pool) (s : State) : Prop where
  length : s.busy.length = BUFFER_COUNT
  exact : Exact (Marked pool.entries s.busy) (s.hands pool)
  ahead : ∀ c ∈ s.completions, c.Ahead pool

/-- The buffer whose flag is cleared next is in no hand. -/
def ClearsIdle (pool : Pool) (s : State) (a : Action) (_ : State) : Prop :=
  a = .clear → ∀ b, pool.entries[s.reset]? = some b → b ∉ s.hands pool

end State

section
variable {pool : Pool} {contents : Nat → List Activity} {s t : State} {a : Action}
  {as : List Action}

open State

/-- All buffers are free at the start. -/
theorem inv_start : (State.start contents).Inv pool where
  length := List.length_replicate
  exact := exact_nil fun b => not_marked_replicate BUFFER_COUNT
  ahead := by simp [State.start]

/-- A `buffer_request` call goes on, and what is given changes with it. -/
theorem count_hands_request (pool : Pool) {pc : RequestPc} (pc' : RequestPc) {k : Nat}
    (busy : List Bool) (given : List Nat) (dropped : UInt64) (hk : s.requests[k]? = some pc)
    (b : Nat) :
    (({ s with busy, given, dropped, requests := s.requests.set k pc' } : State).hands pool).count
        b + (pc.hand pool).toList.count b + s.given.count b
      = (s.hands pool).count b + (pc'.hand pool).toList.count b + given.count b := by
  have hcount := (perm_filterMap_set (f := RequestPc.hand pool) hk pc').count_eq b
  simp only [hands, List.count_append] at hcount ⊢
  omega

/-- A `buffer_complete` call goes on. -/
theorem count_hands_completion (pool : Pool) {c : Completion} (c' : Completion) {k : Nat}
    (busy : List Bool) (recorded : List (Option Nat × Call)) (hk : s.completions[k]? = some c)
    (b : Nat) :
    (({ s with busy, recorded, completions := s.completions.set k c' } : State).hands pool).count
        b + c.hand.toList.count b
      = (s.hands pool).count b + c'.hand.toList.count b := by
  have hcount := (perm_filterMap_set (f := Completion.hand) hk c').count_eq b
  simp only [hands, List.count_append] at hcount ⊢
  omega

/-- A call that has not returned has its buffer in hand. -/
theorem mem_hands_completion {c : Completion} {b k : Nat} (hk : s.completions[k]? = some c)
    (hpc : c.pc ≠ .done) (hb : c.buffer = some b) : b ∈ s.hands pool := by
  refine List.mem_append_right _ (List.mem_filterMap.mpr ⟨c, List.mem_of_getElem? hk, ?_⟩)
  rw [Completion.hand, if_neg hpc, hb]

namespace State.Inv

variable (h : s.Inv pool)
include h

/-- There is a flag for each entry of the pool. -/
theorem length_entries : s.busy.length = pool.entries.length :=
  h.length.trans pool.length_eq.symm

/-- Only buffers of the pool are in somebody's hand. -/
theorem mem_entries {b : Nat} (hb : b ∈ s.hands pool) : b ∈ pool.entries :=
  ((h.exact.taken_iff b).mpr hb).mem

/-- A `buffer_request` call goes on, and no buffer changes hands. -/
theorem search {pc pc' : RequestPc} {k : Nat} {dropped : UInt64}
    (hk : s.requests[k]? = some pc) (hpc : pc.hand pool = none) (hpc' : pc'.hand pool = none) :
    ({ s with dropped, requests := s.requests.set k pc' } : State).Inv pool where
  length := h.length
  exact := by
    refine h.exact.perm (List.perm_iff_count.mpr fun b => ?_)
    have hcount := count_hands_request pool pc' s.busy s.given dropped hk b
    rw [hpc, hpc'] at hcount
    omega
  ahead := h.ahead

/-- The compare-exchange sets the flag of a free entry. -/
theorem claim {k i : Nat} (hk : s.requests[k]? = some (.attempt i))
    (hfree : s.busy[i]? = some false) :
    ({ s with busy := s.busy.set i true, requests := s.requests.set k (.claimed i) } : State).Inv
      pool where
  length := List.length_set.trans h.length
  exact := by
    have hlt := (List.getElem?_eq_some_iff.mp hfree).1
    have hb := List.getElem?_eq_getElem (h.length_entries ▸ hlt)
    -- The buffer of a free flag is in no hand, so this call is the only one to have it.
    refine (h.exact.take (not_marked pool.nodup hb hfree) (marked_set_true hb hlt)).perm
      (List.perm_iff_count.mpr fun b => ?_)
    have hcount := count_hands_request pool (.claimed i) (s.busy.set i true) s.given s.dropped hk b
    simp only [RequestPc.hand, hb, Option.toList_none, Option.toList_some, List.count_nil] at hcount
    rw [List.count_append]
    omega
  ahead := h.ahead

/-- The call returns the buffer to msPTI. -/
theorem handOut {k i b : Nat} (hk : s.requests[k]? = some (.claimed i))
    (hb : pool.entries[i]? = some b) :
    ({ s with given := s.given ++ [b], requests := s.requests.set k (.done (some b)) } : State).Inv
      pool where
  length := h.length
  exact := by
    -- The list of hands is only rearranged.
    refine h.exact.perm (List.perm_iff_count.mpr fun x => ?_)
    have hcount := count_hands_request pool (.done (some b)) s.busy (s.given ++ [b]) s.dropped hk x
    simp only [RequestPc.hand, hb, Option.toList_none, Option.toList_some, List.count_nil,
      List.count_append] at hcount
    omega
  ahead := h.ahead

/-- msPTI gives a buffer back. -/
theorem giveBack {c : Completion} (hgiven : ∀ b ∈ c.buffer, b ∈ s.given)
    (hpc : c.pc ≠ .done) (hahead : c.Ahead pool) :
    ({ s with
        given := c.buffer.elim s.given s.given.erase
        completions := s.completions ++ [c] } : State).Inv pool where
  length := h.length
  exact := by
    -- The buffer goes from msPTI to the call, and null is in no hand.
    refine h.exact.perm (List.perm_iff_count.mpr fun x => ?_)
    have hhand : c.hand = c.buffer := if_neg hpc
    cases hb : c.buffer with
    | none => simp [hands, hhand, hb]
    | some b =>
        have herase := (List.perm_cons_erase (hgiven b hb)).count_eq x
        rw [List.count_cons] at herase
        simp only [hands, Option.elim_some, List.filterMap_append, List.filterMap_cons, hhand, hb,
          List.filterMap_nil, List.count_append, List.count_cons, List.count_nil] at herase ⊢
        omega
  ahead c' hc' := (List.mem_append.mp hc').elim (h.ahead c') fun hmem =>
    List.mem_singleton.mp hmem ▸ hahead

/-- A `buffer_complete` call goes on and keeps what it has. -/
theorem keep {c : Completion} {pc : CompletionPc} {k : Nat}
    {recorded : List (Option Nat × Call)} (hk : s.completions[k]? = some c)
    (hhand : ({ c with pc } : Completion).hand = c.hand)
    (hahead : ({ c with pc } : Completion).Ahead pool) :
    ({ s with recorded, completions := s.completions.set k { c with pc } } : State).Inv pool where
  length := h.length
  exact := by
    refine h.exact.perm (List.perm_iff_count.mpr fun b => ?_)
    have hcount := count_hands_completion pool { c with pc } s.busy recorded hk b
    rw [hhand] at hcount
    omega
  ahead c' hc' := (List.mem_or_eq_of_mem_set hc').elim (h.ahead c') fun heq => heq ▸ hahead

/-- A `buffer_complete` call clears the flag of its buffer. -/
theorem release {k i b : Nat} {c : Completion} (hk : s.completions[k]? = some c)
    (hpc : c.pc = .release i) (hb : pool.entries[i]? = some b) (hsame : c.buffer = some b) :
    ({ s with
        busy := s.busy.set i false
        completions := s.completions.set k { c with pc := .done } } : State).Inv pool where
  length := List.length_set.trans h.length
  exact := by
    -- The buffer leaves the hand of the call at the store that clears its flag.
    refine (h.exact.perm (List.perm_iff_count.mpr fun x => ?_)).give
      (marked_set_false pool.nodup hb)
    have hcount := count_hands_completion pool { c with pc := .done }
      (s.busy.set i false) s.recorded
      hk x
    have hhand : c.hand = some b := by simp [Completion.hand, hpc, hsame]
    have hdone : ({ c with pc := .done } : Completion).hand = none := if_pos rfl
    rw [hhand, hdone] at hcount
    rw [List.count_append]
    simpa using hcount.symm
  ahead c' hc' := (List.mem_or_eq_of_mem_set hc').elim (h.ahead c') fun heq => by
    subst heq
    simp [Completion.Ahead]

/-- A start clears the flag of a buffer that is in no hand. -/
theorem clear (hidle : ∀ b, pool.entries[s.reset]? = some b → b ∉ s.hands pool)
    (hreset : s.reset < BUFFER_COUNT) :
    ({ s with busy := s.busy.set s.reset false, reset := s.reset + 1 } : State).Inv pool where
  length := List.length_set.trans h.length
  exact := by
    have hb := List.getElem?_eq_getElem (pool.length_eq ▸ hreset)
    refine ⟨h.exact.nodup, fun x => ?_⟩
    rw [marked_set_false pool.nodup hb, h.exact.taken_iff]
    exact ⟨And.left, fun hx => ⟨hx, fun heq => hidle _ hb (heq ▸ hx)⟩⟩
  ahead := h.ahead

/-- One step. -/
theorem step {a : Action} {t : State} (hstep : s.step pool a = some t)
    (hidle : s.ClearsIdle pool a t) : t.Inv pool := by
  cases step_cases hstep with
  | request =>
      -- A new call has nothing in hand yet.
      refine ⟨h.length, ?_, h.ahead⟩
      have hnew : [RequestPc.attempt 0].filterMap (RequestPc.hand pool) = [] := rfl
      simpa [hands, hnew] using h.exact
  | claim hk hfree => exact h.claim hk hfree
  | pass hk hbusy => exact h.search hk rfl rfl
  | giveUp hk hend => exact h.search hk rfl rfl
  | handOut hk hb => exact h.handOut hk hb
  | drop hk => exact h.search hk rfl rfl
  | write hb => exact ⟨h.length, h.exact, h.ahead⟩
  | completeNull => exact h.giveBack (by simp) (by simp) (by simp [Completion.Ahead])
  | complete hb hpc =>
      -- The call has the buffer in hand until its search for the entry is over.
      refine h.giveBack (c := ⟨some _, _, _, _⟩) (by simpa using hb) ?_ ?_
      · rw [hpc]
        split <;> simp
      · intro i x hi hx
        have hzero : i = 0 := by
          rw [hpc] at hi
          split at hi
          · cases hi
          · exact (CompletionPc.release.inj hi).symm
        rw [hzero, List.drop_zero, ← Option.some.inj hx]
        exact h.mem_entries (List.mem_append_left _ (List.mem_append_right _ hb))
  | read hk hpc ha =>
      refine h.keep hk ?_ ?_
      · simp [Completion.hand, hpc]
      · simp [Completion.Ahead]
  | finish hk hpc hend =>
      -- The search begins with the whole pool ahead of it, and the buffer is in the pool.
      refine h.keep hk ?_ ?_
      · simp [Completion.hand, hpc]
      · intro i x hi hx
        rw [← CompletionPc.release.inj hi, List.drop_zero]
        exact h.mem_entries (mem_hands_completion hk (by simp [hpc]) hx)
  | release hk hpc hb hsame => exact h.release hk hpc hb hsame
  | skip hk hpc hb hother =>
      refine h.keep hk ?_ ?_
      · simp [Completion.hand, hpc]
      · -- The entry just passed is another one, so the buffer is still ahead.
        intro j x hj hx
        have hmem := h.ahead _ (List.mem_of_getElem? hk) _ x hpc hx
        obtain ⟨hlt, heq⟩ := List.getElem?_eq_some_iff.mp hb
        rw [List.drop_eq_getElem_cons hlt, List.mem_cons, heq] at hmem
        rw [← CompletionPc.release.inj hj]
        exact hmem.resolve_left fun hsame => hother (hsame ▸ hx)
  | leave hk hpc hend =>
      rename_i k i c now tid
      -- The loop ends without a store only for the null pointer.
      have hnull : c.buffer = none := by
        cases hb : c.buffer with
        | none => rfl
        | some b =>
            have hmem := h.ahead c (List.mem_of_getElem? hk) i b hpc hb
            rw [List.drop_eq_nil_of_le (List.getElem?_eq_none_iff.mp hend)] at hmem
            cases hmem
      refine h.keep hk ?_ ?_
      · simp [Completion.hand, hnull]
      · simp [Completion.Ahead]
  | callback => exact ⟨h.length, h.exact, h.ahead⟩
  | status => exact ⟨h.length, h.exact, h.ahead⟩
  | stop hmapped hreset => exact ⟨h.length, h.exact, h.ahead⟩
  | restart hmapped => exact ⟨h.length, h.exact, h.ahead⟩
  | clear hreset => exact h.clear (hidle rfl) hreset

end State.Inv

/-- **No buffer is in two hands**: in any order of the steps of all calls, with any number
of stops and starts, the flags are set for just the buffers in a hand, and each of these is
in one hand, if no start clears the flag of a buffer that is out. -/
theorem exact_of_run (h : Run (State.step pool) (State.start contents) as s)
    (hidle : Run.Along (State.step pool) (State.ClearsIdle pool) (State.start contents) as) :
    Exact (Marked pool.entries s.busy) (s.hands pool) ∧ (s.hands pool).length ≤ BUFFER_COUNT := by
  have hinv : s.Inv pool :=
    Run.invariant_along (State.Inv pool) (fun t a t' ht hstep hP => ht.step hstep hP) hidle h
      inv_start
  exact ⟨hinv.exact, pool.length_eq ▸ hinv.exact.length_le fun b hb => hb.mem⟩

/-- Eight buffers of four megabytes each. -/
def samplePool : Pool where
  entries := [0, 1, 2, 3, 4, 5, 6, 7].map fun i => 0x10000000 + i * 0x400000
  length_eq := rfl
  nodup := by decide

/-- The steps with no `clear` among them clear no flag of a buffer that is out. -/
theorem along_of_not_clear (h : Action.clear ∉ as) :
    Run.Along (State.step pool) (State.ClearsIdle pool) s as := by
  intro pre a post t t' heq _ _ ha
  exact absurd (heq ▸ List.mem_append_right _ (ha ▸ List.mem_cons_self)) h

/-- A buffer that was given back before the stop, and the first flag of the next start. -/
theorem exact_of_restart :
    ∃ s, Run (State.step samplePool) (State.start fun _ => [])
        ([.request, .advanceRequest 0, .advanceRequest 0, .complete (some 0x10000000) 0,
          .advanceCompletion 0 10 7, .request, .stop, .restart] ++ [.clear]) s ∧
      Exact (Marked samplePool.entries s.busy) (s.hands samplePool) ∧
      (s.hands samplePool).length ≤ BUFFER_COUNT := by
  have hbefore : Run (State.step samplePool) (State.start fun _ => [])
      [.request, .advanceRequest 0, .advanceRequest 0, .complete (some 0x10000000) 0,
        .advanceCompletion 0 10 7, .request, .stop, .restart]
      { State.start fun _ => [] with
        reset := 0
        requests := [.done (some 0x10000000), .attempt 0]
        completions := [⟨some 0x10000000, 0, .done, []⟩] } := rfl
  have hidle : Run.Along (State.step samplePool) (State.ClearsIdle samplePool)
      (State.start fun _ => [])
      ([.request, .advanceRequest 0, .advanceRequest 0, .complete (some 0x10000000) 0,
        .advanceCompletion 0 10 7, .request, .stop, .restart] ++ [.clear]) :=
    Run.along_append hbefore (along_of_not_clear (by simp))
      (Run.along_cons_iff.mpr fun t _ => ⟨fun _ b _ => List.not_mem_nil, Run.along_nil⟩)
  exact ⟨_, hbefore.append (Run.single rfl), exact_of_run (hbefore.append (Run.single rfl)) hidle⟩

/-! ### A flag that is cleared too early -/

/-- A new `buffer_request` call passes the entries that are busy. -/
theorem run_scan (pool : Pool) (s : State) (j : Nat) (hbusy : ∀ i < j, s.busy[i]? = some true) :
    Run (State.step pool) s
      (.request :: List.replicate j (.advanceRequest s.requests.length))
      { s with requests := s.requests ++ [.attempt j] } := by
  induction j with
  | zero => exact Run.single rfl
  | succ j ih =>
      have hprefix := ih fun i hi => hbusy i (by omega)
      -- A busy entry makes the call go on to the next one.
      rw [List.replicate_succ', ← List.cons_append]
      refine hprefix.append (Run.single ?_)
      simp [State.step, State.requestStep, hbusy j (by omega)]

/-- It takes the first entry that is free. -/
theorem run_claim (pool : Pool) (s : State) (j : Nat) (hbusy : ∀ i < j, s.busy[i]? = some true)
    (hfree : s.busy[j]? = some false) :
    Run (State.step pool) s
      (.request :: List.replicate (j + 1) (.advanceRequest s.requests.length))
      { s with busy := s.busy.set j true, requests := s.requests ++ [.claimed j] } := by
  rw [List.replicate_succ', ← List.cons_append]
  refine (run_scan pool s j hbusy).append (Run.single ?_)
  simp [State.step, State.requestStep, hfree]

/-- A request that has claimed an entry has its buffer in hand. -/
theorem hands_claimed {b j : Nat} (busy : List Bool) (hb : pool.entries[j]? = some b) (x : Nat) :
    (({ s with busy, requests := s.requests ++ [.claimed j] } : State).hands pool).count x
      = (s.hands pool).count x + [b].count x := by
  have hnew : [RequestPc.claimed j].filterMap (RequestPc.hand pool) = [b] := by
    simp [RequestPc.hand, hb]
  simp only [hands, List.filterMap_append, hnew, List.count_append]
  omega

/-- New calls of `buffer_request` take all the entries before a given one. -/
theorem exists_fill (pool : Pool) (s : State) (hlen : s.busy.length = pool.entries.length)
    (j : Nat) (hj : j ≤ pool.entries.length) :
    ∃ as t, Run (State.step pool) s as t ∧ Action.clear ∉ as ∧
      (∀ i < j, t.busy[i]? = some true) ∧ (∀ i, j ≤ i → t.busy[i]? = s.busy[i]?) ∧
      ∀ x, (s.hands pool).count x ≤ (t.hands pool).count x := by
  induction j with
  | zero => exact ⟨[], s, Run.nil_iff.mpr rfl, by simp, by simp, by simp, fun x => le_rfl⟩
  | succ j ih =>
      obtain ⟨as, t, hrun, hclear, hbusy, hrest, hcount⟩ := ih (by omega)
      have hsome : s.busy[j]? = some s.busy[j] := List.getElem?_eq_getElem (by omega)
      cases hflag : s.busy[j] with
      -- The entry is already taken, so the same run is enough.
      | true =>
          refine ⟨as, t, hrun, hclear, fun i hi => ?_, fun i hi => hrest i (by omega), hcount⟩
          rcases Nat.lt_succ_iff_lt_or_eq.mp hi with hlt | rfl
          · exact hbusy i hlt
          · rw [hrest i le_rfl, hsome, hflag]
      -- One more call passes the entries before this one and takes it.
      | false =>
          have hfree : t.busy[j]? = some false := by rw [hrest j le_rfl, hsome, hflag]
          have hb := List.getElem?_eq_getElem (l := pool.entries) (i := j) (by omega)
          refine ⟨_, _, hrun.append (run_claim pool t j hbusy hfree), ?_, fun i hi => ?_,
            fun i hi => ?_, fun x => ?_⟩
          · simp [hclear]
          · show (t.busy.set j true)[i]? = some true
            rcases Nat.lt_succ_iff_lt_or_eq.mp hi with hlt | rfl
            · rw [List.getElem?_set_ne (by omega), hbusy i hlt]
            · exact List.getElem?_set_self (List.getElem?_eq_some_iff.mp hfree).1
          · show (t.busy.set j true)[i]? = s.busy[i]?
            rw [List.getElem?_set_ne (by omega), hrest i (by omega)]
          · rw [hands_claimed (t.busy.set j true) hb x]
            exact Nat.le_add_right_of_le (hcount x)

/-- **The exact condition of a restart**: after a start has cleared a flag, a buffer can
come into two hands without another flag being cleared if and only if the buffer of that
flag was out. -/
theorem shared_iff_clear_in_use (h : Run (State.step pool) (State.start contents) as s)
    (hidle : Run.Along (State.step pool) (State.ClearsIdle pool) (State.start contents) as)
    (hclear : s.step pool .clear = some t) :
    (∃ bs u, Run (State.step pool) t bs u ∧ Action.clear ∉ bs ∧ ¬ (u.hands pool).Nodup) ↔
      ∃ b ∈ s.hands pool, pool.entries[s.reset]? = some b := by
  have hinv : s.Inv pool :=
    Run.invariant_along (State.Inv pool) (fun t a t' ht hstep hP => ht.step hstep hP) hidle h
      inv_start
  constructor
  · -- No clear of a buffer that is out: the invariant holds to the end of the run.
    rintro ⟨bs, u, hrun, hquiet, htwice⟩
    by_contra hnone
    have hfirst : s.ClearsIdle pool .clear t := fun _ b hb hmem => hnone ⟨b, hmem, hb⟩
    have hrest : Run.Along (State.step pool) (State.ClearsIdle pool) t bs := by
      intro pre a post v v' heq hv ha hclr
      exact absurd (heq ▸ List.mem_append_right _ (hclr ▸ List.mem_cons_self)) hquiet
    have hend : u.Inv pool :=
      Run.invariant_along (State.Inv pool) (fun t a t' ht hstep hP => ht.step hstep hP) hrest hrun
        (hinv.step hclear hfirst)
    exact htwice hend.exact.nodup
  · -- New calls take all entries before the cleared one, and the last of them takes that one.
    rintro ⟨b, hmem, hb⟩
    cases step_cases hclear with
    | clear hreset =>
        have hlt := (List.getElem?_eq_some_iff.mp hb).1
        obtain ⟨bs, u, hrun, hquiet, hbusy, hfree, hcount⟩ :=
          exists_fill pool { s with busy := s.busy.set s.reset false, reset := s.reset + 1 }
            (List.length_set.trans hinv.length_entries) s.reset hlt.le
        have hcleared : u.busy[s.reset]? = some false := by
          rw [hfree s.reset le_rfl]
          exact List.getElem?_set_self (hinv.length_entries ▸ hlt)
        refine ⟨_, _, hrun.append (run_claim pool u s.reset hbusy hcleared), ?_, fun hnodup => ?_⟩
        · simp [hquiet]
        · -- The buffer is in its old hand, and in that of the new call.
          have hold : 1 ≤ (u.hands pool).count b :=
            (List.one_le_count_iff.mpr hmem).trans (hcount b)
          have hone := List.nodup_iff_count_le_one.mp hnodup b
          rw [hands_claimed (u.busy.set s.reset true) hb b, List.count_singleton_self] at hone
          omega

/-- msPTI still has the first buffer when the next start clears its flag. -/
theorem shared_after_restart :
    ∃ s t, Run (State.step samplePool) (State.start fun _ => [])
        [.request, .advanceRequest 0, .advanceRequest 0, .stop, .restart] s ∧
      s.step samplePool .clear = some t ∧
      ∃ bs u, Run (State.step samplePool) t bs u ∧ Action.clear ∉ bs ∧
        ¬ (u.hands samplePool).Nodup := by
  have hrun : Run (State.step samplePool) (State.start fun _ => [])
      [.request, .advanceRequest 0, .advanceRequest 0, .stop, .restart] _ := rfl
  have hshared := (shared_iff_clear_in_use hrun (along_of_not_clear (by simp)) rfl).mpr
    ⟨0x10000000, by simp [hands], rfl⟩
  exact ⟨_, _, hrun, rfl, hshared⟩

end

end HangAnalyzer.Mspti.Buffers
