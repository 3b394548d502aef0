import HangAnalyzer.Proofs.Mspti.Live

/-!
# `HangAnalyzer.Proofs.Mspti.Untorn`: what a live reader returns

`read_live`: as long as the calls of a run have different numbers, and no two of them
are in progress in one slot, the reader returns events of the calls only, each whole,
and it returns every event that was there before the reader saw the counter and was
not claimed over while the reader looked at its slot.

The counter has 64 bits. After `2 ^ 64` calls it is zero again, and the reader finds no
event (`read_wrapped_counter`).
-/

set_option autoImplicit false

namespace HangAnalyzer.Mspti

open HangAnalyzer.Lib
open Relation (ReflTransGen)

/-! ### The run -/

/-- One step of a call or of the reader. -/
abbrev liveStep (owner : UInt32) (slots : Nat) (args : Nat → Call) :
    Live (Shared Cell.width) (Except String (RingHeader × List Event)) → LiveOp Op →
      Option (Live (Shared Cell.width) (Except String (RingHeader × List Event))) :=
  Live.step ((msptiProtocol owner slots).step args) (view slots)

/-- No call has claimed a number, and the reader has read no word. -/
abbrev liveStart (m₀ : Ring) (slots : Nat) :
    Live (Shared Cell.width) (Except String (RingHeader × List Event)) :=
  ⟨Protocol.start m₀, readRing (128 + slots * 192)⟩

/-- No call after call `k` has claimed a number of its slot. -/
def NotClaimedAgain (slots k : Nat) (s : Shared Cell.width) : Prop :=
  ∀ (j : Nat) (fl : Flight Cell), k < j → s.calls[j]? = some fl →
    slotOf slots fl.seq ≠ slotOf slots (k + 1)

/-- What holds at every word that the reader reads if call `k` was published before the
reader read the counter, the word 4 of the file, and its slot is not claimed again before
the reader has passed it. -/
def Stays (slots k : Nat) (s : Shared Cell.width) (w : Nat) : Prop :=
  (w = 4 → Protocol.Finished s k) ∧
    (slotWord EVENT_SIZE slots (k + 1) ≤ w →
      w < slotWord EVENT_SIZE slots (k + 1) + EVENT_SIZE / 8 → NotClaimedAgain slots k s)

/-- `Q` holds at every word that the reader reads. -/
def AtWords (owner : UInt32) (slots : Nat) (args : Nat → Call) (m₀ : Ring)
    (ops : List (LiveOp Op)) (Q : Shared Cell.width → Nat → Prop) : Prop :=
  Run.Along (liveStep owner slots args) (fun x op _ =>
    op = .read → ∀ w next, x.reader = .read w next → Q x.shared w) (liveStart m₀ slots) ops

/-- At no time two calls in progress map to one slot. -/
def SlotsExclusive (owner : UInt32) (slots : Nat) (args : Nat → Call) (m₀ : Ring)
    (ops : List (LiveOp Op)) : Prop :=
  Run.Along (liveStep owner slots args)
    (fun x _ _ => Protocol.Exclusive (slotRegions slots) x.shared) (liveStart m₀ slots) ops

section
variable {m₀ : Ring} {owner : UInt32} {slots : Nat} {args : Nat → Call}
  {Q : Shared Cell.width → Nat → Prop} {s t u : Shared Cell.width} {ops : List (LiveOp Op)}
  {r : Except String (RingHeader × List Event)} {k : Nat}

/-- The run of the steps, seen from the reader. -/
theorem reads_of_live
    (hrun : Run (liveStep owner slots args) (liveStart m₀ slots) ops ⟨s, .done r⟩)
    (hexclusive : SlotsExclusive owner slots args m₀ ops)
    (hwords : AtWords owner slots args m₀ ops Q) :
    Reads (Moves owner slots args) (view slots) Q (Protocol.start m₀)
      (readRing (128 + slots * 192)) s r := by
  refine reads_of_run (fun pre op post x y heq hpre hop => ⟨fun a ha => ?_, ?_⟩) hrun
  · subst ha
    obtain ⟨shared, hshared, rfl⟩ := Option.map_eq_some_iff.mp hop
    exact ⟨hexclusive pre _ post x _ heq hpre hop, a, hshared⟩
  · exact hwords pre op post x y heq hpre hop

/-! ### A ring that has not wrapped -/

/-- No slot is claimed again. -/
theorem notClaimedAgain_of_few (hm : m₀.Fresh slots) (hslots : slots < 2 ^ 64)
    (htracked : (msptiProtocol owner slots).Tracked args m₀ s) (hfew : s.calls.length ≤ slots)
    (hk : k < slots) : NotClaimedAgain slots k s := by
  intro j fl hkj hj
  rw [slot_of_few hm hslots htracked hfew hj, slotOf_succ _ (by omega), Nat.mod_eq_of_lt hk]
  exact Nat.ne_of_gt hkj

/-- No two calls have one slot. -/
theorem slotsExclusive_of_few (hm : m₀.Fresh slots) (hslots : slots < 2 ^ 64)
    {x : Live (Shared Cell.width) (Except String (RingHeader × List Event))}
    (hrun : Run (liveStep owner slots args) (liveStart m₀ slots) ops x)
    (hfew : x.shared.calls.length ≤ slots) : SlotsExclusive owner slots args m₀ ops := by
  refine Run.along_of_run hrun fun pre y op z post hpre hop hpost => ?_
  obtain ⟨as, has⟩ := exists_run_shared hpre
  obtain ⟨bs, hbs⟩ := exists_run_shared ((Run.single hop).append hpost)
  have hle := Run.invariant (fun t => y.shared.calls.length ≤ t.calls.length)
    (fun t a t' ht hstep => Nat.le_trans ht (Protocol.length_le_of_step hstep)) hbs
    (Nat.le_refl _)
  exact exclusive_of_few hm hslots (Protocol.tracked_run has) (Nat.le_trans hle hfew)

/-! ### A published event -/

/-- The slot of a call that has finished and is not claimed over shows its number. -/
theorem number_of_finished (hm : m₀.Fresh slots)
    (hstart : ReflTransGen (Moves owner slots args) (Protocol.start m₀) s)
    (hfew : s.calls.length < 2 ^ 64) (hfinished : Protocol.Finished s k)
    (hlast : NotClaimedAgain slots k s) : s.mem.read (.event (k % slots) .seq) = k + 1 := by
  have hP := framed_record owner slots
  have horderly := Protocol.orderly_later hstart Protocol.orderly_start
  have hnumbered : Protocol.Numbered m₀ (msptiProtocol owner slots) s := ⟨hm.writeSeq, hfew⟩
  obtain ⟨seq, hcall⟩ := hfinished
  have hlt := (List.getElem?_eq_some_iff.mp hcall).1
  -- Fewer than 2^64 calls have started, so the number is not truncated.
  have hslot := slotOf_succ slots (k := k) (by omega)
  obtain rfl : seq = k + 1 := hnumbered.seq_eq horderly.tracked hcall
  have hholds := Protocol.holds_of_finished hP (Protocol.settled_later hP hstart
    Protocol.orderly_start (Protocol.settled_start (k % slots))) hcall rfl hslot
    fun j fj hkj hj => by
      rw [← hslot]
      exact hlast j fj hkj hj
  -- The last store of the call is that of the number, and no other call stores into the slot.
  obtain ⟨fl, hcall', -, ⟨-, hread⟩ | ⟨hbusy, -⟩⟩ := hholds.number hP
  · obtain rfl := Option.some.inj (hcall.symm.trans hcall')
    refine hread.trans (Nat.mod_eq_of_lt ?_)
    show k + 1 < 2 ^ 64
    omega
  · obtain rfl := Option.some.inj (hcall.symm.trans hcall')
    exact absurd rfl hbusy

/-- The first word that the reader reads of a number is the number word of its slot. -/
theorem reads_first {R : Shared Cell.width → Shared Cell.width → Prop}
    {look : Shared Cell.width → Nat → List UInt8} {version size capacity seq : Nat}
    {b : Option Event} (h : Reads R look Q s (readSlot version size capacity seq) u b) :
    ∃ t, ReflTransGen R s t ∧ ReflTransGen R t u ∧ Q t (slotWord size capacity seq) := by
  unfold readSlot at h
  cases h with
  | read hlater hq hrest => exact ⟨_, hlater, hrest.later, hq⟩

/-- A number below the window has a successor in the window that maps to the same slot. -/
theorem exists_successor {written : Nat} (hpos : 0 < slots) (h : k + slots < written) :
    ∃ j, k < j ∧ j % slots = k % slots ∧ j + 1 ∈ window slots written := by
  -- Going back from the last call in steps of `slots`, one comes to the slot of call `k`.
  refine ⟨written - 1 - (written - 1 - k) % slots, ?_, ?_, ?_⟩
  · have hmod := Nat.mod_lt (written - 1 - k) hpos
    omega
  · -- The successor is `k` plus a multiple of `slots`.
    have hdiv := Nat.div_add_mod (written - 1 - k) slots
    have hsum : written - 1 - (written - 1 - k) % slots
        = k + slots * ((written - 1 - k) / slots) := by omega
    rw [hsum, Nat.add_mul_mod_self_left]
  · have hmod := Nat.mod_lt (written - 1 - k) hpos
    rw [mem_window]
    omega

/-- **A call that stays is found.** -/
theorem found_of_stays (hm : m₀.Fresh slots)
    (hstart : ReflTransGen (Moves owner slots args) (Protocol.start m₀) t)
    (hfew : u.calls.length < 2 ^ 64) (hfinished : Protocol.Finished t k)
    {found : Nat → Option Event}
    (hfound : ∀ seq ∈ window slots t.calls.length, ∃ x y,
      ReflTransGen (Moves owner slots args) t x ∧ ReflTransGen (Moves owner slots args) y u ∧
      Reads (Moves owner slots args) (view slots) (Stays slots k) x
        (readSlot 2 EVENT_SIZE slots seq) y (found seq)) :
    k + 1 ∈ window slots t.calls.length ∧
      found (k + 1) = some ((args k).event owner (k + 1)) := by
  obtain ⟨seq, hcall⟩ := hfinished
  have hk := (List.getElem?_eq_some_iff.mp hcall).1
  have hpos := hm.pos
  have hinside : ∀ x, Stays slots k x (slotWord EVENT_SIZE slots (k + 1)) →
      NotClaimedAgain slots k x := by
    intro x hx
    exact hx.2 (Nat.le_refl _) (Nat.lt_add_of_pos_right (by rw [EVENT_SIZE_eq]; omega))
  have hwindow : k + 1 ∈ window slots t.calls.length := by
    by_contra hout
    -- The reader looks at the slot for a later number, which has claimed it.
    have hbehind : k + slots < t.calls.length := by
      rw [mem_window] at hout
      omega
    obtain ⟨j, hkj, hmod, hmem⟩ := exists_successor hpos hbehind
    obtain ⟨x, y, htx, hyu, hreads⟩ := hfound _ hmem
    obtain ⟨z, hxz, hzy, hstays⟩ := reads_first hreads
    have hjt : j < t.calls.length := by
      rw [mem_window] at hmem
      omega
    have hlen := Protocol.length_later (htx.trans hxz)
    have hlen' := Protocol.length_later (hzy.trans hyu)
    have hword : slotWord EVENT_SIZE slots (j + 1) = slotWord EVENT_SIZE slots (k + 1) := by
      rw [slotWord, slotWord, Nat.add_sub_cancel, Nat.add_sub_cancel, hmod]
    rw [hword] at hstays
    have hnumbered : Protocol.Numbered m₀ (msptiProtocol owner slots) z :=
      ⟨hm.writeSeq, (by omega : z.calls.length < 2 ^ 64)⟩
    have horderly := Protocol.orderly_later (hstart.trans (htx.trans hxz)) Protocol.orderly_start
    have hj : z.calls[j]? = some z.calls[j] := List.getElem?_eq_getElem (by omega)
    refine hinside z hstays j _ hkj hj ?_
    rw [hnumbered.seq_eq horderly.tracked hj, slotOf_succ slots (by omega),
      slotOf_succ slots (by omega), hmod]
  refine ⟨hwindow, ?_⟩
  obtain ⟨x, y, htx, hyu, hreads⟩ := hfound _ hwindow
  have hlen := Protocol.length_later hyu
  have hlater := hreads.later
  have hlen' := Protocol.length_later (htx.trans hlater)
  rcases reads_readSlot hm (hstart.trans htx) (by omega) (by omega) hreads with
    ⟨hsome, -⟩ | ⟨-, z, hxz, hzy, hstays, hnumber⟩
  · exact hsome
  · have hlen'' := Protocol.length_later (hzy.trans hyu)
    have hfinished : Protocol.Finished z k :=
      Protocol.Finished.later ⟨seq, hcall⟩ (htx.trans hxz)
    exact absurd (number_of_finished hm (hstart.trans (htx.trans hxz)) (by omega) hfinished
      (hinside z hstays)) hnumber

/-! ### The events -/

/-- The result has what the reader found for each number of the window. -/
theorem exists_found (hm : m₀.Fresh slots)
    (hread : Reads (Moves owner slots args) (view slots) Q (Protocol.start m₀)
      (readRing (128 + slots * 192)) s r) (hfew : s.calls.length < 2 ^ 64) :
    ∃ (t : Shared Cell.width) (found : Nat → Option Event),
      r = .ok (m₀.header slots t.calls.length, (window slots t.calls.length).flatMap
        fun seq => (found seq).toList) ∧
      ReflTransGen (Moves owner slots args) (Protocol.start m₀) t ∧
      ReflTransGen (Moves owner slots args) t s ∧ Q t 4 ∧
      ∀ seq ∈ window slots t.calls.length, ∃ x y,
        ReflTransGen (Moves owner slots args) t x ∧ ReflTransGen (Moves owner slots args) y s ∧
        Reads (Moves owner slots args) (view slots) Q x (readSlot 2 EVENT_SIZE slots seq) y
          (found seq) := by
  -- The header is read first, and then the slots of the window one by one.
  obtain ⟨t, t', hstart, hq, htt', hscan⟩ := reads_readRing hm .refl hread
  have hlen := Protocol.length_later (htt'.trans hscan.later)
  rw [Nat.mod_eq_of_lt (by omega)] at hscan
  obtain ⟨found, hr, hfound⟩ := reads_scan (nodup_window _ _) hscan
  refine ⟨t, found, hr, hstart, htt'.trans hscan.later, hq, fun seq hseq => ?_⟩
  obtain ⟨x, y, hx, hy, hreads⟩ := hfound seq hseq
  exact ⟨x, y, htt'.trans hx, hy, hreads⟩

/-- What the reader finds for a number is nothing, or the event of the call with the number,
which has then finished. -/
theorem found_cases (hm : m₀.Fresh slots)
    (hstart : ReflTransGen (Moves owner slots args) (Protocol.start m₀) t)
    (htu : ReflTransGen (Moves owner slots args) t u) (hfew : u.calls.length < 2 ^ 64)
    {found : Nat → Option Event}
    (hfound : ∀ seq ∈ window slots t.calls.length, ∃ x y,
      ReflTransGen (Moves owner slots args) t x ∧ ReflTransGen (Moves owner slots args) y u ∧
      Reads (Moves owner slots args) (view slots) Q x (readSlot 2 EVENT_SIZE slots seq) y
        (found seq)) (hk : k + 1 ∈ window slots t.calls.length) :
    found (k + 1) = none ∨
      found (k + 1) = some ((args k).event owner (k + 1)) ∧ Protocol.Finished u k := by
  obtain ⟨x, y, htx, hyu, hreads⟩ := hfound _ hk
  rw [mem_window] at hk
  have hlen := Protocol.length_later htu
  have hlen' := Protocol.length_later hyu
  rcases reads_readSlot hm (hstart.trans htx) (by omega) (by omega) hreads with
    ⟨hsome, hfinished⟩ | ⟨hnone, -⟩
  · exact .inr ⟨hsome, hfinished.later hyu⟩
  · exact .inl hnone

/-- A found event is that of the only call with its number. -/
theorem call_of_found (hm : m₀.Fresh slots)
    (hstart : ReflTransGen (Moves owner slots args) (Protocol.start m₀) t)
    (htu : ReflTransGen (Moves owner slots args) t u) (hfew : u.calls.length < 2 ^ 64)
    {found : Nat → Option Event}
    (hfound : ∀ seq ∈ window slots t.calls.length, ∃ x y,
      ReflTransGen (Moves owner slots args) t x ∧ ReflTransGen (Moves owner slots args) y u ∧
      Reads (Moves owner slots args) (view slots) Q x (readSlot 2 EVENT_SIZE slots seq) y
        (found seq)) {seq : Nat} (hseq : seq ∈ window slots t.calls.length) {e : Event}
    (he : found seq = some e) :
    ∃ k fl, u.calls[k]? = some fl ∧ fl.seq = e.seq ∧ e = (args k).event owner e.seq ∧
      ∀ (j : Nat) (fj : Flight Cell), u.calls[j]? = some fj → fj.seq = e.seq → j = k := by
  obtain ⟨k, rfl⟩ : ∃ k, seq = k + 1 := by
    rw [mem_window] at hseq
    exact ⟨seq - 1, by omega⟩
  rcases found_cases hm hstart htu hfew hfound hseq with hnone | ⟨hsome, hfinished⟩
  · rw [hnone] at he
    cases he
  · obtain rfl := Option.some.inj (he.symm.trans hsome)
    have hnumbered : Protocol.Numbered m₀ (msptiProtocol owner slots) u := ⟨hm.writeSeq, hfew⟩
    have htracked := (Protocol.orderly_later (hstart.trans htu) Protocol.orderly_start).tracked
    obtain ⟨seq, hcall⟩ := hfinished
    refine ⟨k, _, hcall, hnumbered.seq_eq htracked hcall, rfl, fun j fj hj hseq => ?_⟩
    exact Nat.succ.inj ((hnumbered.seq_eq htracked hj).symm.trans hseq)

end

/-! ### Calls that are over before the reader starts -/

section
variable {m₀ : Ring} {owner : UInt32} {slots : Nat} {args : Nat → Call}

/-- Calls that run one after the other, and then the reader. -/
theorem exists_read_after (owner : UInt32) (args : Nat → Call) (hm : m₀.Fresh slots)
    (calls : List Call) (hargs : ∀ k c, calls[k]? = some c → args k = c) :
    ∃ ops s, Run (liveStep owner slots args) (liveStart m₀ slots) ops
        ⟨s, .done ((readRing (128 + slots * 192)).eval (view slots s))⟩ ∧
      SlotsExclusive owner slots args m₀ ops ∧
      AtWords owner slots args m₀ ops (fun t _ => t = s) ∧
      s.mem = m₀.recordAll owner calls ∧ s.calls.length = calls.length ∧
      ∀ fl ∈ s.calls, fl.todo = [] := by
  obtain ⟨ops, s, hrun, halong, hmem, hlen, hdone⟩ :=
    exists_run_recordAll owner hm calls hargs
  obtain ⟨n, hread⟩ := exists_run_eval ((msptiProtocol owner slots).step args) (view slots) s
    (readRing (128 + slots * 192))
  refine ⟨ops.map .write ++ List.replicate n .read, s, (run_write hrun).append hread, ?_, ?_,
    hmem, hlen, hdone⟩
  · refine along_write_read hrun halong fun q y => ?_
    intro i j fi fj _ hi _ hbusy
    exact absurd (hdone fi (List.mem_of_getElem? hi)) hbusy
  · refine along_write_read hrun (Run.Along.mono halong fun x a y _ hop => ?_)
      fun q y _ _ _ _ => rfl
    cases hop

/-- The last of them stays. -/
theorem stays_last {s : Shared Cell.width} {k : Nat} (hlen : s.calls.length = k + 1)
    (hdone : ∀ fl ∈ s.calls, fl.todo = []) (w : Nat) : Stays slots k s w := by
  refine ⟨fun _ => ?_, fun _ _ j fl hkj hj => ?_⟩
  · have hk : s.calls[k]? = some s.calls[k] := List.getElem?_eq_getElem (by omega)
    have htodo := hdone _ (List.mem_of_getElem? hk)
    exact ⟨s.calls[k].seq, by rw [hk, ← htodo]⟩
  · have hlt := (List.getElem?_eq_some_iff.mp hj).1
    omega

/-- After `2 ^ 64` calls the counter is zero, and the window is empty. -/
theorem eval_wrapped (hm : m₀.Fresh slots) {ops : List (LiveOp Op)} {s : Shared Cell.width}
    {r : Except String (RingHeader × List Event)}
    (hrun : Run (liveStep owner slots args) (liveStart m₀ slots) ops ⟨s, .done r⟩)
    (hexclusive : SlotsExclusive owner slots args m₀ ops)
    (hwords : AtWords owner slots args m₀ ops (fun t _ => t = s))
    (hlen : s.calls.length = 2 ^ 64) : r = .ok (m₀.header slots 0, []) := by
  obtain ⟨t, t', -, rfl, -, hscan⟩ :=
    reads_readRing hm .refl (reads_of_live hrun hexclusive hwords)
  have hpos := hm.pos
  have hwindow : window slots 0 = [] := by
    rw [List.eq_nil_iff_forall_not_mem]
    intro seq hseq
    rw [mem_window] at hseq
    omega
  rw [hlen, Nat.mod_self, hwindow] at hscan
  cases hscan with
  | done _ => rfl

end

/-! ### The live reader -/

section
variable {capacity : UInt64} {getpid : UInt32} {wallNs monoNs : UInt64} {args : Nat → Call}
  {ops : List (LiveOp Op)} {s : Shared Cell.width}
  {r : Except String (RingHeader × List Event)}

/-- **The live reader is untorn.** The reader returns a header and a list of events.
Every event is that of the only call with its number. The event of every call that was
published before the reader read the counter, and whose slot is not claimed again before
the reader has passed it, is in the list. -/
theorem read_live (hcapacity : 0 < capacity)
    (hrun : Run (liveStep getpid capacity.toNat args)
      (liveStart (initRing capacity getpid wallNs monoNs) capacity.toNat) ops ⟨s, .done r⟩)
    (hexclusive : SlotsExclusive getpid capacity.toNat args
      (initRing capacity getpid wallNs monoNs) ops)
    (hfew : s.calls.length < 2 ^ 64) :
    ∃ h events, r = .ok (h, events) ∧
      (∀ e ∈ events, ∃ k fl, s.calls[k]? = some fl ∧ fl.seq = e.seq ∧
        e = (args k).event getpid e.seq ∧
        ∀ (j : Nat) (fj : Flight Cell), s.calls[j]? = some fj → fj.seq = e.seq → j = k) ∧
      ∀ k, AtWords getpid capacity.toNat args (initRing capacity getpid wallNs monoNs) ops
          (Stays capacity.toNat k) →
        (args k).event getpid (k + 1) ∈ events := by
  have hm := fresh_initRing capacity getpid wallNs monoNs hcapacity
  obtain ⟨t, found, rfl, hstart, hts, -, hfound⟩ :=
    exists_found (Q := fun _ _ => True) hm (reads_of_live hrun hexclusive (by
      intro _ _ _ _ _ _ _ _ _ _ _ _
      trivial)) hfew
  refine ⟨_, _, rfl, fun e he => ?_, fun k hstays => ?_⟩
  · obtain ⟨seq, hseq, he⟩ := List.mem_flatMap.mp he
    exact call_of_found hm hstart hts hfew hfound hseq (Option.mem_toList.mp he)
  · -- The same run, read with the property of call `k` at each word.
    obtain ⟨t', found', hr, hstart', hts', hfourth, hfound'⟩ :=
      exists_found hm (reads_of_live hrun hexclusive hstays) hfew
    obtain ⟨hmem, hsome⟩ := found_of_stays hm hstart' hfew (hfourth.1 rfl) hfound'
    obtain ⟨-, hevents⟩ := Prod.mk.inj (Except.ok.inj hr)
    rw [hevents]
    exact List.mem_flatMap.mpr ⟨k + 1, hmem, by rw [hsome]; simp⟩

end

/-- Two kernels. -/
def twoKernels : Nat → Call :=
  argsOf [⟨5, 0, 3, 9, 100, 120, 0, none, none, 130, 8⟩,
    ⟨5, 0, 3, 10, 120, 125, 0, none, none, 131, 9⟩]

/-- The calls that record them overlap, and the reader begins before both. It finds them. -/
theorem read_live_kernels :
    ∃ l m n s h events, Run (liveStep 7 64 twoKernels) (liveStart (initRing 64 7 1000 50) 64)
        (.read :: (([Op.claim, .advance 0, .claim, .advance 1] ++
          List.replicate l (Op.advance 0) ++ List.replicate m (Op.advance 1)).map .write ++
            List.replicate n .read))
        ⟨s, .done (.ok (h, events))⟩ ∧
      (twoKernels 0).event 7 1 ∈ events ∧ (twoKernels 1).event 7 2 ∈ events := by
  have hm : (initRing 64 7 1000 50).Fresh 64 := fresh_initRing 64 7 1000 50 (by decide)
  obtain ⟨t, hbegun, ⟨seq, todo, hfirst⟩, ⟨seq', todo', hsecond⟩, hlen⟩ : ∃ t,
      Run ((msptiProtocol 7 64).step twoKernels) (Protocol.start (initRing 64 7 1000 50))
        [.claim, .advance 0, .claim, .advance 1] t ∧
      (∃ seq todo, t.calls[0]? = some ⟨seq, todo⟩) ∧
      (∃ seq todo, t.calls[1]? = some ⟨seq, todo⟩) ∧ t.calls.length = 2 :=
    ⟨_, rfl, ⟨_, _, rfl⟩, ⟨_, _, rfl⟩, rfl⟩
  obtain ⟨u, hleft, -, -, hcalls⟩ :=
    Protocol.exists_run_todo (msptiProtocol 7 64) twoKernels todo hfirst
  have hwaiting : u.calls[1]? = some ⟨seq', todo'⟩ := by
    rw [hcalls, List.getElem?_set_ne (by decide), hsecond]
  obtain ⟨s, hright, -, -, hcalls'⟩ :=
    Protocol.exists_run_todo (msptiProtocol 7 64) twoKernels todo' hwaiting
  rw [hcalls] at hcalls'
  have hstored := (hbegun.append hleft).append hright
  have hfew : s.calls.length = 2 := by
    rw [hcalls', List.length_set, List.length_set, hlen]
  -- Both calls have ended, and nobody claims their slots again.
  have hstays : ∀ k < 2, ∀ w, Stays 64 k s w := by
    intro k hk w
    refine ⟨fun _ => ?_, fun _ _ => notClaimedAgain_of_few hm (by decide)
      (Protocol.tracked_run hstored) (by rw [hfew]; decide) (Nat.lt_of_lt_of_le hk (by decide))⟩
    rcases Nat.le_one_iff_eq_zero_or_eq_one.mp (Nat.le_of_lt_succ hk) with rfl | rfl
    · refine ⟨seq, ?_⟩
      rw [hcalls', List.getElem?_set_ne (by decide), List.getElem?_set_self (by rw [hlen]; decide)]
    · refine ⟨seq', ?_⟩
      rw [hcalls', List.getElem?_set_self (by rw [List.length_set, hlen]; decide)]
  -- The reader has read the first word when the calls begin.
  obtain ⟨p, hbegins⟩ : ∃ p, liveStep 7 64 twoKernels (liveStart (initRing 64 7 1000 50) 64) .read
      = some ⟨Protocol.start (initRing 64 7 1000 50), p⟩ := ⟨_, rfl⟩
  obtain ⟨n, hreads⟩ := exists_run_eval ((msptiProtocol 7 64).step twoKernels) (view 64) s p
  have hrun : Run (liveStep 7 64 twoKernels) (liveStart (initRing 64 7 1000 50) 64) _ _ :=
    Run.cons_iff.mpr ⟨_, hbegins, (run_write hstored).append hreads⟩
  have hwords : ∀ k < 2, AtWords 7 64 twoKernels (initRing 64 7 1000 50)
      (.read :: (([Op.claim, .advance 0, .claim, .advance 1] ++
        List.replicate todo.length (Op.advance 0) ++
          List.replicate todo'.length (Op.advance 1)).map .write ++ List.replicate n .read))
      (Stays 64 k) := by
    intro k hk
    refine Run.along_cons_iff.mpr fun x hx => ⟨fun _ w next hw => ?_, ?_⟩
    · obtain ⟨rfl, -⟩ := Reading.read.inj hw
      refine ⟨fun hcounter => absurd hcounter (by decide), fun hle => ?_⟩
      rw [slotWord] at hle
      omega
    · obtain rfl := Option.some.inj (hbegins.symm.trans hx)
      refine along_write_read hstored (Run.along_of_run hstored ?_) fun q y _ w _ _ => hstays k hk w
      intro _ _ _ _ _ _ _ _ hread
      cases hread
  have hfit : s.calls.length ≤ 64 := by omega
  obtain ⟨h, events, hr, -, hfound⟩ := @read_live 64 7 1000 50 twoKernels _ s _ (by decide) hrun
    (slotsExclusive_of_few hm (by decide) hrun hfit) (Nat.lt_of_le_of_lt hfit (by decide))
  rw [hr] at hrun
  exact ⟨_, _, n, s, h, events, hrun, hfound 0 (hwords 0 (by decide)),
    hfound 1 (hwords 1 (by decide))⟩

/-- After `2 ^ 64` calls a reader finds none of them, the last one included. -/
theorem read_wrapped_counter :
    ∃ (args : Nat → Call) (ops : List (LiveOp Op)) (s : Shared Cell.width) (h : RingHeader)
      (k : Nat),
      Run (liveStep 7 64 args) (liveStart (initRing 64 7 1000 50) 64) ops
        ⟨s, .done (.ok (h, []))⟩ ∧
      SlotsExclusive 7 64 args (initRing 64 7 1000 50) ops ∧ k < s.calls.length ∧
      AtWords 7 64 args (initRing 64 7 1000 50) ops (Stays 64 k) := by
  have hm := fresh_initRing 64 7 1000 50 (by decide)
  obtain ⟨ops, s, hrun, hexclusive, hwords, -, hlen, hdone⟩ :=
    exists_read_after 7 (fun _ => ⟨5, 0, 3, 9, 100, 120, 0, none, none, 130, 8⟩) hm
      (List.replicate (2 ^ 64) ⟨5, 0, 3, 9, 100, 120, 0, none, none, 130, 8⟩) (by
        intro k c hc
        exact (List.eq_of_mem_replicate (List.mem_of_getElem? hc)).symm)
  rw [List.length_replicate] at hlen
  rw [eval_wrapped hm hrun hexclusive hwords hlen] at hrun
  refine ⟨_, ops, s, _, 2 ^ 64 - 1, hrun, hexclusive, by omega, Run.Along.mono hwords ?_⟩
  intro x op y hread hop w next hnext
  rw [hread hop w next hnext]
  exact stays_last (by omega) hdone w

end HangAnalyzer.Mspti
