import HangAnalyzer.Lib.WordCopy
import HangAnalyzer.Proofs.Recorder.Interleaved

/-!
# `HangAnalyzer.Proofs.Recorder.LiveCopy`: decoding a copy of a live ring

`watchdog.snapshot` copies a `.flight` file while its process keeps recording.
The copy reads each 8-byte word of the file once, from the front, and the stores
of the calls fall between the reads.

`TornFree` says that every decoded event of the copy is the event of one call.
The reader sees the copied `seq` of a slot and nothing else of the slot's
history, so the other words may be older or newer than the number.
`tornFree_iff` is the exact condition on the interleaving, and `torn_timestamp`
a copy that decodes to an event nobody recorded: the copier is past the slot's
timestamp when the only call of the run stores it.
-/

set_option autoImplicit false

namespace HangAnalyzer.Recorder

open HangAnalyzer.Lib

variable {m₀ : Ring} {owner : UInt32} {slots : Nat} {args : Nat → Call}
  {s : Copying Cell.width} {ops : List CopyOp}

/-! ### The words of the file -/

/-- The number of 8-byte words of a file. -/
def fileWords (slots : Nat) : Nat := 16 + 8 * slots

/-- The header takes the first sixteen words. -/
theorem word_header_lt (f : HeaderField) : (Cell.header f).word < 16 := by
  cases f <;> decide

/-- The words of the events are within the file. -/
theorem word_event_lt {slot : Nat} (hslot : slot < slots) (f : EventField) :
    (Cell.event slot f).word < fileWords slots := by
  have hoffset : f.offset < 64 := by cases f <;> decide
  rw [Cell.word, Cell.offset, fileWords]
  omega

/-- A field and its partner are read together. -/
theorem word_partner (slot : Nat) (f : EventField) :
    (Cell.event slot f.partner).word = (Cell.event slot f).word := by
  have hoffset : f.partner.offset / 8 = f.offset / 8 := by cases f <;> decide
  rw [Cell.word, Cell.word, Cell.offset, Cell.offset]
  omega

/-! ### The copy -/

/-- A run of the calls and of the copier. -/
abbrev CopyRun (m₀ : Ring) (owner : UInt32) (slots : Nat) (args : Nat → Call)
    (ops : List CopyOp) (s : Copying Cell.width) : Prop :=
  Run (Copying.step (recorderProtocol owner slots) args Cell.word) (Copying.start m₀) ops s

/-- Every event the reader returns from the copy is, in all its fields, the
event of a call that got its number. -/
def TornFree (m₀ : Ring) (owner : UInt32) (slots : Nat) (args : Nat → Call)
    (s : Copying Cell.width) : Prop :=
  ∀ file, ∃ snap, readEvents file (Ring.fileBytes s.buf slots) = .ok snap ∧
    ∀ e ∈ snap.events, ∃ k < s.shared.calls.length,
      e = (args k).event (m₀.origin owner) (Ring.seqAt k)

/-- In each slot whose copied number the reader accepts, the copier read every
call-dependent word while the last store to it was one of the call with that
number. -/
def Coherent (slots : Nat) (s : Copying Cell.width) : Prop :=
  ∀ file, ∀ slot < slots,
    (Ring.header s.buf file).accepts slot (s.buf.read (.event slot .seq)) = true →
    ∃ k, s.buf.read (.event slot .seq) = Ring.seqAt k ∧
      ∀ f : EventField, f.ofCall → f ≠ .seq → s.bufTag (.event slot f) = some k

/-- A copied word comes from a state of the run. -/
theorem copied_word (h : CopyRun m₀ owner slots args ops s) (hdone : fileWords slots ≤ s.next)
    {w : Nat} (hw : w < fileWords slots) :
    ∃ t, Reached m₀ owner slots args t ∧ t.calls.length ≤ s.shared.calls.length ∧
      ∀ l : Cell, l.word = w → s.buf.read l = t.mem.read l ∧ s.bufTag l = t.tag l :=
  (Copying.sound_run h).copied w (Nat.lt_of_lt_of_le hw hdone)

/-- The copied header words other than the counter and `last_ns` are the first ones. -/
theorem read_header_copied (h : CopyRun m₀ owner slots args ops s)
    (hdone : fileWords slots ≤ s.next) {f : HeaderField} (hf : f ≠ .writeSeq) (hf' : f ≠ .lastNs) :
    s.buf.read (.header f) = m₀.read (.header f) := by
  have hlt := word_header_lt f
  obtain ⟨t, ht, -, hcopy⟩ := copied_word h hdone (w := (Cell.header f).word)
    (by unfold fileWords; omega)
  rw [(hcopy _ rfl).1]
  exact ht.readOnly (readOnly_header hf hf')

/-- A copy that is complete has a valid header. -/
theorem formatted_copy (h : CopyRun m₀ owner slots args ops s) (h₀ : m₀.Fresh slots)
    (hdone : fileWords slots ≤ s.next) : Ring.Formatted s.buf slots where
  magic := (read_header_copied h hdone (by decide) (by decide)).trans h₀.formatted.magic
  version := (read_header_copied h hdone (by decide) (by decide)).trans h₀.formatted.version
  eventSize := (read_header_copied h hdone (by decide) (by decide)).trans h₀.formatted.eventSize
  capacity := (read_header_copied h hdone (by decide) (by decide)).trans h₀.formatted.capacity
  two_le := h₀.formatted.two_le

/-- A copied field other than `seq` whose partner was read while call `k` was
the last to have stored to it holds what call `k` passes. -/
theorem read_copied (h : CopyRun m₀ owner slots args ops s) (h₀ : m₀.Fresh slots)
    (hdone : fileWords slots ≤ s.next) {slot k : Nat} (hslot : slot < slots) {f : EventField}
    (ht : s.bufTag (.event slot f.partner) = some k) (hf : f ≠ .seq) :
    k < s.shared.calls.length ∧ s.buf.read (.event slot f)
      = ((args k).source owner (Ring.seqAt k) f).eval m₀ % 256 ^ Cell.width (.event slot f) := by
  obtain ⟨t, hreached, hlen, hcopy⟩ := copied_word h hdone (word_event_lt hslot f)
  rw [(hcopy _ (word_partner slot f)).2] at ht
  rw [(hcopy _ rfl).1]
  exact ⟨Nat.lt_of_lt_of_le (hreached.read_tagged h₀ ht).1 hlen,
    hreached.read_of_partner h₀ ht hf⟩

/-- A coherent copy has no torn event. -/
theorem tornFree_of_coherent (h : CopyRun m₀ owner slots args ops s) (h₀ : m₀.Fresh slots)
    (hdone : fileWords slots ≤ s.next) (hcoherent : Coherent slots s) :
    TornFree m₀ owner slots args s := by
  intro file
  -- The formatted header is copied, so the reader gets to the events.
  have hformatted := formatted_copy h h₀ hdone
  refine ⟨_, Ring.readEvents_fileBytes hformatted file, fun e he => ?_⟩
  rw [Ring.mem_snapshot, hformatted.capacity] at he
  obtain ⟨slot, hslot, rfl, haccepts⟩ := he
  -- The slot has the number of one call, and all its fields were stored by that call.
  obtain ⟨k, hseq, htag⟩ := hcoherent file slot hslot haccepts
  have htime := read_copied h h₀ hdone hslot (f := .timestampNs)
    (htag .timestampNs rfl (by decide)) (by decide)
  refine ⟨k, htime.1, event_eq_of_fields (Nat.mod_lt _ (by decide)) fun f => ?_⟩
  by_cases hf : f = .seq
  · subst hf
    rw [hseq, Call.source, Source.eval, Cell.width, EventField.width]
    exact (Nat.mod_eq_of_lt (Nat.mod_lt _ (by decide))).symm
  · -- A pair of fields is copied as one word, so the partner has the same call.
    have hpartner : f.partner ≠ .seq := by
      cases f <;> simp_all [EventField.partner]
    exact (read_copied h h₀ hdone hslot (htag _ f.ofCall_partner hpartner) hf).2

/-- Under `marked p`, a copied call-dependent field other than `seq` holds one
exactly when it was read while a call that `p` selects had stored to it last. -/
theorem read_copied_marked {p : Nat → Bool} (h : CopyRun m₀ owner slots (marked p) ops s)
    (h₀ : m₀.Fresh slots) (hdone : fileWords slots ≤ s.next) {slot : Nat} (hslot : slot < slots)
    {f : EventField} (hf : f.ofCall) (hseq : f ≠ .seq) :
    s.buf.read (.event slot f) = if (s.bufTag (.event slot f)).any p then 1 else 0 := by
  obtain ⟨t, hreached, -, hcopy⟩ := copied_word h hdone (word_event_lt hslot f)
  rw [(hcopy _ rfl).1, (hcopy _ rfl).2]
  exact read_marked hreached h₀ hf hseq

/-- The reader accepts the same slots of two copies that differ in what the
calls pass. -/
theorem accepts_congr {m m' : Ring} (hagree : ∀ l : Cell, l.ofOrder → m.read l = m'.read l)
    (file : String) (slot : Nat) :
    (m.header file).accepts slot (m.read (.event slot .seq))
      = (m'.header file).accepts slot (m'.read (.event slot .seq)) := by
  rw [Bool.eq_iff_iff, Ring.accepts_iff, Ring.accepts_iff, hagree (.header .writeSeq) rfl,
    hagree (.header .capacity) rfl, hagree (.event slot .seq) rfl]

/-- A copy without torn events, whatever the calls pass, is coherent. -/
theorem coherent_of_tornFree (h : CopyRun m₀ owner slots args ops s) (h₀ : m₀.Fresh slots)
    (hdone : fileWords slots ≤ s.next)
    (hall : ∀ args' t, CopyRun m₀ owner slots args' ops t → TornFree m₀ owner slots args' t) :
    Coherent slots s := by
  intro file slot hslot haccepts
  -- The slot is accepted under other arguments, too, and then holds the event of a call.
  have hmarked : ∀ p : Nat → Bool, ∃ k, s.buf.read (.event slot .seq) = Ring.seqAt k ∧
      ∀ f : EventField, f.ofCall → f ≠ .seq →
        (s.bufTag (.event slot f)).any p = p k := by
    intro p
    obtain ⟨t, hrun, halike⟩ := Copying.bufTag_eq (uniform_ofOrder owner slots) h (marked p)
    have htdone : fileWords slots ≤ t.next := halike.next ▸ hdone
    have hformatted := formatted_copy hrun h₀ htdone
    obtain ⟨snap, hread, hevents⟩ := hall _ t hrun file
    rw [Ring.readEvents_fileBytes hformatted, Except.ok.injEq] at hread
    have hmem : Ring.event t.buf slot ∈ snap.events := by
      rw [← hread, Ring.mem_snapshot, hformatted.capacity]
      exact ⟨slot, hslot, rfl, (accepts_congr halike.agree file slot).symm.trans haccepts⟩
    obtain ⟨k, -, hevent⟩ := hevents _ hmem
    refine ⟨k, ?_, fun f hf hseq => ?_⟩
    · rw [halike.agree _ rfl]
      exact congrArg Event.seq hevent
    · have hone := read_of_event_marked hevent hf hseq
      rw [read_copied_marked hrun h₀ htdone hslot hf hseq, ← halike.bufTag] at hone
      cases hp : p k <;> simp_all
  -- Every word was stored to by some call, and all of them by the same one.
  obtain ⟨-, -, hsome⟩ := hmarked fun _ => true
  obtain ⟨j, hj, -⟩ := (Option.any_eq_true _ _).mp (hsome .timestampNs rfl (by decide))
  obtain ⟨k, hseq, hsame⟩ := hmarked (· == j)
  have hkj : (k == j) = true := by
    rw [← hsame .timestampNs rfl (by decide), hj]
    simp
  refine ⟨k, hseq, fun f hf hne => ?_⟩
  have hany := (hsame f hf hne).trans hkj
  rw [beq_iff_eq] at hkj
  simpa [Option.any_eq_true, hkj] using hany

/-- **When the copy has no torn event.** A copy of the whole file, read word by
word during any interleaving of any number of calls, decodes to events of the
calls, whatever they pass, if and only if it is coherent. -/
theorem tornFree_iff (h : CopyRun m₀ owner slots args ops s) (h₀ : m₀.Fresh slots)
    (hdone : fileWords slots ≤ s.next) :
    (∀ args' t, CopyRun m₀ owner slots args' ops t → TornFree m₀ owner slots args' t) ↔
      Coherent slots s := by
  refine ⟨coherent_of_tornFree h h₀ hdone, fun hcoherent args' t hrun => ?_⟩
  -- Whether a copy is coherent does not depend on what the calls pass.
  obtain ⟨t', hrun', halike⟩ := Copying.bufTag_eq (uniform_ofOrder owner slots) h args'
  have htt : t' = t := Run.deterministic hrun' hrun
  subst htt
  refine tornFree_of_coherent hrun h₀ (halike.next ▸ hdone) fun file slot hslot haccepts => ?_
  obtain ⟨k, hseq, htag⟩ := hcoherent file slot hslot
    ((accepts_congr halike.agree file slot).trans haccepts)
  rw [halike.agree _ rfl] at hseq
  exact ⟨k, hseq, fun f hf hne => halike.bufTag ▸ htag f hf hne⟩

/-- A file is made of the words of its slots. -/
theorem fileBytes_congr {m m' : Ring} (h : ∀ c : Cell, c.word < fileWords slots →
    m.read c = m'.read c) : Ring.fileBytes m slots = Ring.fileBytes m' slots := by
  -- Only the words of the file are looked at.
  have hchunk : ∀ c : Cell, c.word < fileWords slots → m.chunk c = m'.chunk c :=
    fun c hc => by rw [Ring.chunk, Ring.chunk, h c hc]
  have hheader : m.headerBytes = m'.headerBytes := by
    rw [Ring.headerBytes, Ring.headerBytes]
    refine congrArg (fun l => pack _ (l ++ _)) (List.map_congr_left fun f _ => hchunk _ ?_)
    have hlt := word_header_lt f
    unfold fileWords
    omega
  have hslots : (List.range slots).flatMap m.slotBytes =
      (List.range slots).flatMap m'.slotBytes := by
    refine List.flatMap_congr fun slot hslot => ?_
    rw [Ring.slotBytes, Ring.slotBytes]
    exact congrArg (pack _) (List.map_congr_left fun f _ =>
      hchunk _ (word_event_lt (List.mem_range.mp hslot) f))
  rw [Ring.fileBytes, Ring.fileBytes, hheader, hslots]

/-- Every state of the calls can be copied as it is. -/
theorem exists_copyRun {ops : List Op} {t : Shared Cell.width}
    (h : Run ((recorderProtocol owner slots).step args) (Protocol.start m₀) ops t) :
    ∃ ops' s, CopyRun m₀ owner slots args ops' s ∧ fileWords slots ≤ s.next ∧ s.shared = t ∧
      Ring.fileBytes s.buf slots = Ring.fileBytes t.mem slots := by
  -- The writers make all their steps first, and the reader copies the words then.
  have hwrites : CopyRun m₀ owner slots args (ops.map .write)
      { Copying.start m₀ with shared := t } := Copying.run_writes h
  obtain ⟨s, hcopies, hshared, hnext, hread⟩ := Copying.exists_run_copies
    (recorderProtocol owner slots) args Cell.word { Copying.start m₀ with shared := t }
    (fileWords slots)
  refine ⟨_, s, hwrites.append hcopies, ?_, hshared, fileBytes_congr fun c hc => ?_⟩
  · rw [hnext]
    exact Nat.le_add_left _ _
  · refine hread c (Nat.zero_le _) ?_
    show c.word < 0 + fileWords slots
    omega

/-- A copy of a ring of two slots during two calls: both claim their numbers and are half-way
when the copier reads the header. Each call ends before the copier comes to its slot. -/
def overlappingOps : List CopyOp :=
  [.write .claim, .write .claim] ++ List.replicate 7 (.write (.advance 0))
    ++ List.replicate 7 (.write (.advance 1)) ++ List.replicate 16 .copy
    ++ List.replicate 7 (.write (.advance 0)) ++ List.replicate 8 .copy
    ++ List.replicate 7 (.write (.advance 1)) ++ List.replicate 8 .copy

/-- The two calls. -/
def overlappingArgs (k : Nat) : Call :=
  if k = 0 then ⟨15, 1, 9, 4, 2, 0, 10, 101⟩ else ⟨16, 2, 9, 4, 2, 0, 12, 102⟩

/-- The copy has no torn event. -/
theorem tornFree_two_calls :
    ∃ s, CopyRun (initRing 0 0 2 ⟨none, none, none, 100, 5, 7⟩) 100 2 overlappingArgs
        overlappingOps s ∧
      TornFree (initRing 0 0 2 ⟨none, none, none, 100, 5, 7⟩) 100 2 overlappingArgs s := by
  have hcomputed : ((overlappingOps.foldlM
      (Copying.step (recorderProtocol 100 2) overlappingArgs Cell.word)
      (Copying.start (initRing 0 0 2 ⟨none, none, none, 100, 5, 7⟩))).map fun s =>
        (s.next, s.buf.read (.event 0 .seq), s.buf.read (.event 1 .seq),
          [0, 1].map fun slot => EventField.all.map fun f => s.bufTag (.event slot f)))
      = some (32, 1, 2, [List.replicate 12 (some 0), List.replicate 12 (some 1)]) := by
    decide +kernel
  obtain ⟨s, hrun, hs⟩ := Option.map_eq_some_iff.mp hcomputed
  simp only [Prod.mk.injEq, List.map_cons, List.map_nil, List.cons.injEq, and_true] at hs
  obtain ⟨hnext, hzero, hone, htags, htags'⟩ := hs
  refine ⟨s, hrun, (tornFree_iff hrun (fresh_initRing 0 0 _ (by decide))
    (Nat.le_of_eq hnext.symm)).mpr ?_ _ s hrun⟩
  -- In both slots all fields are those of the slot's call.
  intro file slot hslot haccepts
  have hall : ∀ f : EventField, f ∈ EventField.all := by
    intro f
    cases f <;> decide
  have htag : ∀ {slot k : Nat}, (EventField.all.map fun f => s.bufTag (.event slot f))
      = List.replicate 12 (some k) → ∀ f, s.bufTag (.event slot f) = some k := by
    intro slot k heq f
    exact List.eq_of_mem_replicate (heq ▸ List.mem_map.mpr ⟨f, hall f, rfl⟩)
  match slot with
  | 0 => exact ⟨0, hzero, fun f _ _ => htag htags f⟩
  | 1 => exact ⟨1, hone, fun f _ _ => htag htags' f⟩

/-- A copy of a ring of two slots during one call: the call claims its number,
the copier reads the header and the timestamp of the slot, the call executes its
stores, and the copier reads the rest. -/
def tornOps : List CopyOp :=
  .write .claim :: List.replicate 17 .copy ++ List.replicate 14 (.write (.advance 0))
    ++ List.replicate 15 .copy

/-- The copy decodes to an event with the call's number and a timestamp of zero,
which the call never had. -/
theorem torn_timestamp :
    ∃ s, CopyRun (initRing 0 0 2 ⟨none, none, none, 100, 5, 7⟩) 100 2
        (fun _ => ⟨15, 1, 9, 4, 2, 0, 10, 101⟩) tornOps s ∧ fileWords 2 ≤ s.next ∧
      ¬ TornFree (initRing 0 0 2 ⟨none, none, none, 100, 5, 7⟩) 100 2
        (fun _ => ⟨15, 1, 9, 4, 2, 0, 10, 101⟩) s := by
  have hcomputed : ((tornOps.foldlM
      (Copying.step (recorderProtocol 100 2) (fun _ => ⟨15, 1, 9, 4, 2, 0, 10, 101⟩) Cell.word)
      (Copying.start (initRing 0 0 2 ⟨none, none, none, 100, 5, 7⟩))).map fun s =>
        (s.next, s.buf.read (.header .writeSeq), s.buf.read (.event 0 .seq),
          s.buf.read (.event 0 .timestampNs))) = some (32, 1, 1, 0) := by
    decide +kernel
  obtain ⟨s, hrun, hs⟩ := Option.map_eq_some_iff.mp hcomputed
  simp only [Prod.mk.injEq] at hs
  obtain ⟨hnext, hwrite, hseq, htime⟩ := hs
  refine ⟨s, hrun, Nat.le_of_eq hnext.symm, fun htorn => ?_⟩
  have hformatted := formatted_copy hrun (fresh_initRing 0 0 _ (by decide))
    (Nat.le_of_eq hnext.symm)
  obtain ⟨snap, hread, hevents⟩ := htorn "r0.flight"
  rw [Ring.readEvents_fileBytes hformatted, Except.ok.injEq] at hread
  -- The slot has its number, and the fields of the call are not there yet.
  have hmem : Ring.event s.buf 0 ∈ snap.events := by
    rw [← hread, Ring.mem_snapshot, hformatted.capacity]
    refine ⟨0, by decide, rfl, ?_⟩
    have hnumber : (Ring.event s.buf 0).seq = 1 := hseq
    rw [Ring.accepts_iff, hwrite, hformatted.capacity, hnumber]
    decide
  obtain ⟨k, -, hevent⟩ := hevents _ hmem
  have hten : s.buf.read (.event 0 .timestampNs) = 10 := congrArg Event.timestampNs hevent
  omega

end HangAnalyzer.Recorder
