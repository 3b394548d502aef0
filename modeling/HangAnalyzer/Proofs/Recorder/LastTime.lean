import HangAnalyzer.Lib.StoreOrder
import HangAnalyzer.Proofs.Recorder.Lapped

/-!
# `HangAnalyzer.Proofs.Recorder.LastTime`: the time in the header

The last store of a `flight_record` call copies the time of its slot to `last_ns`. With
calls of several threads this is not always its own time: a call that laps it has
stored a time of its own meanwhile. Nor is it always the newest one: a slow call may store
its old time after the others.

`lastNs_cases` says which time it is. `finished_le_lastNs` bounds the damage by the
duration of a call. When no call takes longer than `d`, the time in the header is at most
`2 * d` behind the end of any call.
-/

set_option autoImplicit false

namespace HangAnalyzer.Recorder

open HangAnalyzer.Lib

/-- The clock at the actions of a schedule. It does not run back, and a call reads it
between its first two stores. -/
structure Clocked (clock : Nat → Nat) (ops : List Op) (args : Nat → Call) : Prop where
  monotone : Monotone clock
  after : ∀ {k i}, StepAt ops k 0 i → clock i ≤ (args k).timestampNs.toNat
  before : ∀ {k i}, StepAt ops k 1 i → (args k).timestampNs.toNat ≤ clock i

/-- No call takes longer than `d` from its first store to any later one. -/
def Quick (clock : Nat → Nat) (d : Nat) (ops : List Op) : Prop :=
  ∀ k n i i', StepAt ops k 0 i → StepAt ops k n i' → clock i' ≤ clock i + d

/-! ### The store of `last_ns` -/

/-- The last store of a call is the one of the time. -/
theorem lastNs_index (owner : UInt32) (capacity seq : Nat) (c : Call) {n : Nat} {a : Assign Cell}
    (h : (recordStores owner capacity seq c)[n]? = some a) (hdst : a.dst = .header .lastNs) :
    n = 13 ∧ a = lastNsStore capacity seq := by
  rw [recordStores_eq, List.cons_append] at h
  cases n with
  | zero =>
      obtain rfl := Option.some.inj h
      cases hdst
  | succ n =>
      rw [List.getElem?_cons_succ] at h
      rcases getElem?_concat_cases h with hfield | ⟨hn, ha⟩
      · obtain ⟨f, -, rfl⟩ := List.mem_map.mp (List.mem_of_getElem? hfield)
        cases hdst
      · exact ⟨by rw [hn]; rfl, ha⟩

section
variable {m₀ : Ring} {owner : UInt32} {slots : Nat} {args : Nat → Call} {s : Shared Cell.width}
  {ops : List Op} {k n i : Nat} {a : Assign Cell}

/-- Store 13 of every call goes to `last_ns`. -/
theorem storesAt_lastNs (h₀ : m₀.Fresh slots) (h : StepAt ops k 13 i) :
    (recorderProtocol owner slots).StoresAt args m₀ ops (.header .lastNs) k 13 i
      (lastNsStore slots (Ring.seqAt k)) where
  stepAt := h
  store := by
    rw [stores_eq h₀]
    rfl
  dst := rfl

/-- Store 1 of every call goes to the time of its slot. -/
theorem storesAt_timestampNs (h₀ : m₀.Fresh slots) (h : StepAt ops k 1 i) :
    (recorderProtocol owner slots).StoresAt args m₀ ops
      (.event (Ring.place slots k) .timestampNs) k 1 i
      (fieldStore owner slots (Ring.seqAt k) (args k) .timestampNs) where
  stepAt := h
  store := by
    rw [stores_eq h₀]
    rfl
  dst := by rw [fieldStore, Ring.slotOf_seqAt]

/-- No other store does. -/
theorem eq_of_storesAt_lastNs (h₀ : m₀.Fresh slots)
    (h : (recorderProtocol owner slots).StoresAt args m₀ ops (.header .lastNs) k n i a) :
    n = 13 ∧ a = lastNsStore slots (Ring.seqAt k) := by
  have hstore := h.store
  rw [stores_eq h₀] at hstore
  exact lastNs_index _ _ _ _ hstore h.dst

/-- The second store of a call is the one of its timestamp. -/
theorem eq_of_storesAt_timestampNs (h₀ : m₀.Fresh slots) {slot : Nat}
    (h : (recorderProtocol owner slots).StoresAt args m₀ ops (.event slot .timestampNs) k n i a) :
    n = 1 ∧ a.src = .const (args k).timestampNs.toNat := by
  have hstore := h.store
  rw [stores_eq h₀] at hstore
  have hindex : (recordStores owner slots (Ring.seqAt k) (args k))[n]?.map Assign.dst
      = some (.event slot .timestampNs) := by rw [hstore, Option.map_some, h.dst]
  rcases index_of_dst _ _ _ _ _ hindex with hn | ⟨hf, -⟩
  · have hown := recordStores_getElem? owner slots (Ring.seqAt k) (args k) .timestampNs
    rw [← hn, hstore] at hown
    obtain rfl := Option.some.inj hown
    exact ⟨hn, rfl⟩
  · cases hf

/-! ### The value -/

/-- `last_ns` has its initial value as long as no call has finished. Afterwards it is the
time of a call `j`: the last one to have stored a time in the slot of the call `f`, which
was the last one to finish. -/
theorem lastNs_cases (h₀ : m₀.Fresh slots)
    (h : Run ((recorderProtocol owner slots).step args) (Protocol.start m₀) ops s) :
    (s.mem.read (.header .lastNs) = m₀.read (.header .lastNs) ∧ ∀ k i, ¬ StepAt ops k 13 i) ∨
      ∃ f i j i', StepAt ops f 13 i ∧ (∀ {k x}, StepAt ops k 13 x → x ≤ i) ∧
        StepAt ops j 1 i' ∧ (∀ {x}, StepAt ops f 1 x → x ≤ i') ∧
        s.mem.read (.header .lastNs) = (args j).timestampNs.toNat := by
  have hlastNs := Protocol.exists_last_store h
    (show Cell.header .lastNs ≠ .header .writeSeq by simp)
  rcases hlastNs with ⟨f, n, i, a, t, hlast⟩ | ⟨hsame, hnever⟩
  · right
    obtain ⟨rfl, rfl⟩ := eq_of_storesAt_lastNs h₀ hlast.storesAt
    have hf := hlast.storesAt.stepAt
    -- The time of the slot, when the last call to finish has read it.
    have hread : s.mem.read (.header .lastNs)
        = t.mem.read (.event (Ring.place slots f) .timestampNs) := by
      rw [hlast.value, lastNsStore, Ring.slotOf_seqAt]
      exact t.mem.read_mod (.event (Ring.place slots f) .timestampNs)
    have htime := Protocol.exists_last_store hlast.before
      (show Cell.event (Ring.place slots f) .timestampNs ≠ .header .writeSeq by simp)
    rcases htime with ⟨j, n, i', a', u, hlast'⟩ | ⟨-, hnever⟩
    · obtain ⟨rfl, hsrc⟩ := eq_of_storesAt_timestampNs h₀ hlast'.storesAt
      refine ⟨f, i, j, i', hf, fun hk => hlast.last (storesAt_lastNs h₀ hk),
        hlast'.storesAt.stepAt.of_take, fun hx => ?_, ?_⟩
      · have hxi := hx.lt_of_lt hf (by decide)
        exact hlast'.last (storesAt_timestampNs h₀ (hx.take hxi))
      · have hwidth : Cell.width (.event (Ring.place slots f) .timestampNs) = 8 := rfl
        rw [hread, hlast'.value, hsrc, hwidth]
        exact toNat_mod_8 _
    · -- The call itself has stored a time before.
      obtain ⟨x, hx⟩ : ∃ x, StepAt (ops.take i) f 1 x := exists_stepAt (by rw [hf.2]; decide)
      exact absurd (storesAt_timestampNs h₀ hx) (hnever _ _ _ _)
  · left
    exact ⟨hsame, fun k i hk => hnever _ _ _ _ (storesAt_lastNs h₀ hk)⟩

variable {clock : Nat → Nat} {d : Nat}

/-- The end of every call is at most two durations later than `last_ns`. -/
theorem finished_le_lastNs (h₀ : m₀.Fresh slots)
    (h : Run ((recorderProtocol owner slots).step args) (Protocol.start m₀) ops s)
    (hclock : Clocked clock ops args) (hquick : Quick clock d ops) (hk : StepAt ops k 13 i) :
    clock i ≤ s.mem.read (.header .lastNs) + 2 * d := by
  rcases lastNs_cases h₀ h with ⟨-, hnone⟩ | ⟨f, e, j, x, hf, hlatest, hj, hafter, hvalue⟩
  · exact absurd hk (hnone k i)
  · have earlier : ∀ {k n i : Nat}, StepAt ops k n i → ∀ n' < n, ∃ i', StepAt ops k n' i' := by
      intro k n i hstep n' hn
      obtain ⟨i', hi'⟩ : ∃ i', StepAt (ops.take i) k n' i' :=
        exists_stepAt (by rw [hstep.2]; exact hn)
      exact ⟨i', hi'.of_take⟩
    obtain ⟨f₀, hf₀⟩ := earlier hf 0 (by decide)
    obtain ⟨f₁, hf₁⟩ := earlier hf 1 (by decide)
    obtain ⟨j₀, hj₀⟩ := earlier hj 0 (by decide)
    have hend : clock i ≤ clock e := hclock.monotone (hlatest hk)
    have hlong : clock e ≤ clock f₀ + d := hquick f 13 f₀ e hf₀ hf
    have hread : clock f₀ ≤ clock f₁ :=
      hclock.monotone (Nat.le_of_lt (hf₀.lt_of_lt hf₁ (by decide)))
    have hlap : clock f₁ ≤ clock x := hclock.monotone (hafter hf₁)
    have hother : clock x ≤ clock j₀ + d := hquick j 1 j₀ x hj₀ hj
    have htime := hclock.after hj₀
    omega

/-- `last_ns` is never later than a time that a call has stored, or the start. -/
theorem lastNs_le (h₀ : m₀.Fresh slots)
    (h : Run ((recorderProtocol owner slots).step args) (Protocol.start m₀) ops s) {bound : Nat}
    (hstart : m₀.read (.header .lastNs) ≤ bound)
    (htimes : ∀ k i, StepAt ops k 1 i → (args k).timestampNs.toNat ≤ bound) :
    s.mem.read (.header .lastNs) ≤ bound := by
  rcases lastNs_cases h₀ h with ⟨hsame, -⟩ | ⟨-, -, j, x, -, -, hj, -, hvalue⟩
  · rw [hsame]
    exact hstart
  · rw [hvalue]
    exact htimes j x hj

end

end HangAnalyzer.Recorder
