import HangAnalyzer.Proofs.Analyzer.Progress
import HangAnalyzer.Proofs.Checkpoint.Device

/-!
# `HangAnalyzer.Proofs.Watermark`: what the report says the device has completed

The watermark goes through three pieces. The pool records submissions and confirmations,
the ring keeps the last records, and `analyze` pairs what is left by key and takes every
checkpoint before a confirmed one for confirmed.

`Rig.Sound` is what the pool guarantees (`HangAnalyzer.Proofs.Checkpoint.Device`). An event
of the ring stands for an entry of the pool's trace (`entry_of_event`), and the order of two
events is that of the entries (`exists_positions`). `completed_of_confirmed` follows a
confirmed checkpoint, or one before it, back to a submission whose marker is complete.
`watermark_sound` says this of every checkpoint that a report calls confirmed.
-/

set_option autoImplicit false

namespace HangAnalyzer.Checkpoint

open HangAnalyzer.Lib
open HangAnalyzer.Recorder
open HangAnalyzer.Analyzer

/-! ### The events of the ring and the trace of the pool -/

/-- Different numbers are different types. -/
theorem ofKind_injective : Function.Injective EventType.ofKind := by
  intro a b h
  have ha := typeNumber_name a
  rw [h, typeNumber_name] at ha
  exact (Option.some.inj ha).symm

/-- What a partial function keeps at a position. -/
theorem getElem?_filterMap {α β : Type} {f : α → Option β} {l : List α} {i : Nat} {b : β}
    (h : (l.filterMap f)[i]? = some b) :
    ∃ x, (l.filter fun x => (f x).isSome)[i]? = some x ∧ f x = some b := by
  induction l generalizing i with
  | nil => cases h
  | cons x l ih =>
      cases hx : f x with
      | none =>
          rw [List.filterMap_cons_none hx] at h
          rw [List.filter_cons_of_neg (by rw [hx]; exact Bool.false_ne_true)]
          exact ih h
      | some c =>
          rw [List.filterMap_cons_some hx] at h
          rw [List.filter_cons_of_pos (by rw [hx]; rfl)]
          cases i with
          | zero =>
              obtain rfl := Option.some.inj h
              exact ⟨x, rfl, hx⟩
          | succ i => exact ih h

/-- Two elements of a list, one after the other. -/
theorem exists_positions {α : Type} {x y : α} {l : List α} (h : [x, y].Sublist l) :
    ∃ i j : Nat, i < j ∧ l[i]? = some x ∧ l[j]? = some y := by
  induction l with
  | nil => cases h
  | cons z l ih =>
      rcases List.sublist_cons_iff.mp h with h | ⟨r, hr, hsub⟩
      · obtain ⟨i, j, hij, hi, hj⟩ := ih h
        exact ⟨i + 1, j + 1, by omega, hi, hj⟩
      · obtain ⟨rfl, rfl⟩ := List.cons.inj hr
        obtain ⟨j, hj⟩ := List.mem_iff_getElem?.mp (List.singleton_sublist.mp hsub)
        exact ⟨0, j + 1, by omega, rfl, hj⟩

/-- Two positions of a list, in order. -/
theorem pair_sublist {α : Type} {x y : α} {l : List α} {i j : Nat} (hij : i < j)
    (hi : l[i]? = some x) (hj : l[j]? = some y) : [x, y].Sublist l := by
  induction l generalizing i j with
  | nil => cases hi
  | cons z l ih =>
      cases j with
      | zero => cases hij
      | succ j =>
          cases i with
          | zero =>
              obtain rfl := Option.some.inj hi
              have hmem : y ∈ l := List.mem_of_getElem? (show l[j]? = some y from hj)
              exact (List.singleton_sublist.mpr hmem).cons_cons z
          | succ i => exact (ih (Nat.lt_of_succ_lt_succ hij) hi hj).cons z

/-- The key of a stamp, as the analyzer reads it. -/
def Stamp.key (stamp : Stamp) : CheckpointKey where
  stream := stamp.stream.toNat
  checkpointId := stamp.checkpointId.toNat
  submittedSeq := stamp.submittedSeq.toNat
  generation := stamp.generation.toNat

/-- Different stamps have different keys. -/
theorem Stamp.key_injective : Function.Injective Stamp.key := by
  intro a b h
  obtain ⟨hstream, hcheckpoint, hseq, hgeneration⟩ := CheckpointKey.mk.inj h
  obtain ⟨_, _, _, _⟩ := a
  obtain ⟨_, _, _, _⟩ := b
  simp only [Stamp.mk.injEq]
  exact ⟨UInt32.toNat_inj.mp hstream, UInt64.toNat_inj.mp hcheckpoint, UInt64.toNat_inj.mp hseq,
    UInt64.toNat_inj.mp hgeneration⟩

/-- Somebody else writes no checkpoint records. -/
def PoolOnly (trace : List Entry) : Prop :=
  ∀ c, Entry.host c ∈ trace → c.type ≠ FL_CHECKPOINT ∧ c.type ≠ FL_DEVICE_CONFIRMED

section
variable {trace : List Entry} {calls : List Call} {o : Origin} {i : Nat} {e : Event}

/-- An event of the ring is the record of an entry, with the number of its position. -/
theorem entry_of_event (hcalls : calls.map Record.ofCall = trace.filterMap Entry.record?)
    (he : (Ring.events o calls)[i]? = some e) :
    ∃ c entry, (entry, i + 1) ∈ numbered trace ∧ entry.record? = some (Record.ofCall c) ∧
      e = c.event o (Ring.seqAt i) := by
  rw [Ring.events, List.getElem?_mapIdx] at he
  obtain ⟨c, hc, rfl⟩ := Option.map_eq_some_iff.mp he
  have hrecord : (trace.filterMap Entry.record?)[i]? = some (Record.ofCall c) := by
    rw [← hcalls, List.getElem?_map, hc]
    rfl
  obtain ⟨entry, hentry, hr⟩ := getElem?_filterMap hrecord
  refine ⟨c, entry, ?_, hr, rfl⟩
  rw [numbered, List.mk_mem_zipIdx_iff_le_and_getElem?_sub]
  exact ⟨by omega, by rwa [Nat.add_sub_cancel]⟩

/-- An event that submits a checkpoint is the record of a submission. -/
theorem submitted_of_event (hcalls : calls.map Record.ofCall = trace.filterMap Entry.record?)
    (honly : PoolOnly trace) (he : (Ring.events o calls)[i]? = some e) (hs : submits e = true) :
    ∃ p k stamp, (Entry.access p (.submitted k stamp), i + 1) ∈ numbered trace ∧
      Stamp.key stamp = checkpointKey e := by
  obtain ⟨c, entry, hentry, hr, rfl⟩ := entry_of_event hcalls he
  obtain ⟨htype, hflag⟩ := Bool.and_eq_true_iff.mp hs
  have hkind : c.type = FL_CHECKPOINT := by
    have hof : EventType.ofKind c.type.toNat = EventType.ofKind 23 := of_decide_eq_true htype
    exact UInt16.toNat_inj.mp (ofKind_injective hof)
  have hmem := (List.mem_filter.mp (List.fst_mem_of_mem_zipIdx hentry)).1
  have hflags : (Record.ofCall c).flags.toNat &&& 1 ≠ 0 := bne_iff_ne.mp hflag
  cases entry with
  | access p a =>
      cases a with
      | submitted k stamp =>
          obtain hr : stamp.record _ _ = _ := Option.some.inj hr
          refine ⟨p, k, stamp, hentry, ?_⟩
          obtain ⟨-, hstream, hcorr, harg0, harg1, -⟩ := Record.mk.inj hr
          rw [Stamp.key, hstream, hcorr, harg0, harg1]
          rfl
      | observed mark stamp =>
          -- The flag of a mark is not that of a submission.
          have hmark : mark.flag.toNat &&& 1 = 0 := by cases mark <;> decide
          obtain hr : stamp.record _ _ = _ := Option.some.inj hr
          rw [← hr] at hflags
          exact absurd hmark hflags
      | confirmed stamp =>
          obtain hr : stamp.record _ _ = _ := Option.some.inj hr
          have htype : FL_DEVICE_CONFIRMED = c.type := (Record.mk.inj hr).1
          rw [hkind] at htype
          cases htype
      | _ => cases hr
  | poolFull stamp =>
      obtain hr : stamp.record _ _ = _ := Option.some.inj hr
      rw [← hr] at hflags
      exact absurd (show FL_CHECKPOINT_POOL_FULL.toNat &&& 1 = 0 by decide) hflags
  | host c' =>
      have htype : c'.type = c.type := (Record.mk.inj (Option.some.inj hr)).1
      exact absurd (htype.trans hkind) (honly c' hmem).1
  | polled => cases hr

/-- An event that confirms a key is the record of a confirmation. -/
theorem confirmed_of_event (hcalls : calls.map Record.ofCall = trace.filterMap Entry.record?)
    (honly : PoolOnly trace) {key : CheckpointKey} (he : (Ring.events o calls)[i]? = some e)
    (hs : confirms key e = true) :
    ∃ p stamp, Entry.access p (.confirmed stamp) ∈ trace ∧ Stamp.key stamp = key := by
  obtain ⟨c, entry, hentry, hr, rfl⟩ := entry_of_event hcalls he
  obtain ⟨hleft, hkey⟩ := Bool.and_eq_true_iff.mp hs
  have htype := (Bool.and_eq_true_iff.mp hleft).1
  have hkind : c.type = FL_DEVICE_CONFIRMED := by
    have hof : EventType.ofKind c.type.toNat = EventType.ofKind 24 := of_decide_eq_true htype
    exact UInt16.toNat_inj.mp (ofKind_injective hof)
  have hmem := (List.mem_filter.mp (List.fst_mem_of_mem_zipIdx hentry)).1
  -- A record of another type is not that of a confirmation.
  have hother : ∀ {stamp : Stamp} {flags}, stamp.record FL_CHECKPOINT flags ≠ Record.ofCall c := by
    intro stamp flags hr
    have htype : FL_CHECKPOINT = c.type := (Record.mk.inj hr).1
    rw [hkind] at htype
    cases htype
  cases entry with
  | access p a =>
      cases a with
      | confirmed stamp =>
          obtain hr : stamp.record _ _ = _ := Option.some.inj hr
          refine ⟨p, stamp, hmem, ?_⟩
          obtain ⟨-, hstream, hcorr, harg0, harg1, -⟩ := Record.mk.inj hr
          rw [← of_decide_eq_true hkey, Stamp.key, hstream, hcorr, harg0, harg1]
          rfl
      | submitted | observed => exact absurd (Option.some.inj hr) hother
      | _ => cases hr
  | poolFull stamp => exact absurd (Option.some.inj hr) hother
  | host c' =>
      have htype : c'.type = c.type := (Record.mk.inj (Option.some.inj hr)).1
      exact absurd (htype.trans hkind) (honly c' hmem).2
  | polled => cases hr

end

/-! ### The submissions of a key -/

/-- The record of call `k`, at the stream with the position `i`, has the key. -/
def Rig.Submitted (r : Rig) (k i : Nat) (key : CheckpointKey) : Prop :=
  ∃ p stamp, p.stream = i ∧ .submitted k stamp ∈ r.pool.accesses p ∧ stamp.key = key

/-- A checkpoint with the key was submitted, and its marker is complete. -/
def Rig.Completed (r : Rig) (key : CheckpointKey) : Prop :=
  (∃ k i, r.Submitted k i key) ∧ ∀ k i, r.Submitted k i key → k ∈ r.complete i

/-- The sequence numbers of the caller tell the submissions apart. -/
theorem Told.submitted_unique {s : State} (h : Told s)
    (hseq : (s.submits.map SubmitCall.submittedSeq).Nodup) {p q : Place} {k j : Nat}
    {stamp stamp' : Stamp} (hk : .submitted k stamp ∈ s.accesses p)
    (hj : .submitted j stamp' ∈ s.accesses q) (heq : stamp.submittedSeq = stamp'.submittedSeq) :
    k = j ∧ p.stream = q.stream := by
  obtain ⟨call, gen, hcall, rfl, hp, -⟩ := h.submitted hk
  obtain ⟨call', gen', hcall', rfl, hq, -⟩ := h.submitted hj
  have hsame : (s.submits.map SubmitCall.submittedSeq)[k]?
      = (s.submits.map SubmitCall.submittedSeq)[j]? := by
    rw [List.getElem?_map, List.getElem?_map, hcall, hcall']
    exact congrArg some heq
  have hlt : k < (s.submits.map SubmitCall.submittedSeq).length := by
    rw [List.length_map]
    exact (List.getElem?_eq_some_iff.mp hcall).1
  obtain rfl : k = j := (List.getElem?_inj hlt hseq).mp hsame
  obtain rfl := Option.some.inj (hcall.symm.trans hcall')
  exact ⟨rfl, hp.trans hq.symm⟩

/-- Submissions whose stamps name one stream are at one stream. -/
theorem Rig.Sound.position {r : Rig} (h : r.Sound) {p q : Place} {k j : Nat} {stamp stamp' : Stamp}
    (hk : .submitted k stamp ∈ r.pool.accesses p) (hj : .submitted j stamp' ∈ r.pool.accesses q)
    (heq : stamp.stream = stamp'.stream) : p.stream = q.stream := by
  obtain ⟨call, gen, hcall, rfl, hp, -⟩ := h.ordered.told.submitted hk
  obtain ⟨call', gen', hcall', rfl, hq, -⟩ := h.ordered.told.submitted hj
  have hid := h.inv.stream k call hcall
  have hid' := h.inv.stream j call' hcall'
  have hstream : call.streamId = call'.streamId := heq
  rw [hstream] at hid
  rw [hp, hq]
  exact h.distinct.position hid hid'

/-- **A checkpoint that is confirmed, or recorded before one that is, is complete.** -/
theorem completed_of_confirmed {r : Rig} (h : r.Sound)
    (hseq : (r.pool.submits.map SubmitCall.submittedSeq).Nodup) (honly : PoolOnly r.pool.trace)
    {calls : List Call} {o : Origin} {events : List Event}
    (hcalls : calls.map Record.ofCall = r.pool.trace.filterMap Entry.record?)
    (hevents : events.Sublist (Ring.events o calls)) {c c' : Event} (hc : submits c = true)
    (hc' : submits c' = true) (hstream : c.stream = c'.stream) (hconfirmed : Confirmed events c')
    (horder : c = c' ∧ c ∈ events ∨ [c, c'].Sublist events) : r.Completed (checkpointKey c) := by
  obtain ⟨a, b, hab, ha, hb⟩ : ∃ a b : Nat, a ≤ b ∧ (Ring.events o calls)[a]? = some c ∧
      (Ring.events o calls)[b]? = some c' := by
    rcases horder with ⟨rfl, hmem⟩ | hsub
    · obtain ⟨a, ha⟩ := List.mem_iff_getElem?.mp (hevents.subset hmem)
      exact ⟨a, a, Nat.le_refl a, ha, ha⟩
    · obtain ⟨a, b, hab, ha, hb⟩ := exists_positions (hsub.trans hevents)
      exact ⟨a, b, Nat.le_of_lt hab, ha, hb⟩
  obtain ⟨p, k, stamp, hnumber, hkey⟩ := submitted_of_event hcalls honly ha hc
  obtain ⟨p', k', stamp', hnumber', hkey'⟩ := submitted_of_event hcalls honly hb hc'
  have hsubmitted : .submitted k stamp ∈ r.pool.accesses p :=
    mem_accesses.mpr (List.mem_filter.mp (List.fst_mem_of_mem_zipIdx hnumber)).1
  have hsubmitted' : .submitted k' stamp' ∈ r.pool.accesses p' :=
    mem_accesses.mpr (List.mem_filter.mp (List.fst_mem_of_mem_zipIdx hnumber')).1
  -- The confirmation is that of the later submission, so its marker is complete.
  have hlater : k' ∈ r.complete p'.stream := by
    obtain ⟨e, he, hconfirms⟩ := hconfirmed
    obtain ⟨i, hi⟩ := List.mem_iff_getElem?.mp (hevents.subset he)
    obtain ⟨q, stamp₁, hentry, hkey₁⟩ := confirmed_of_event hcalls honly hi hconfirms
    obtain rfl : stamp₁ = stamp' := Stamp.key_injective (hkey₁.trans hkey'.symm)
    obtain ⟨j, hj, hcomplete⟩ := h.confirmed q stamp₁ (mem_accesses.mpr hentry)
    obtain ⟨rfl, hq⟩ := h.ordered.told.submitted_unique hseq hj hsubmitted' rfl
    exact hq ▸ hcomplete
  have hid : stamp.stream = stamp'.stream := by
    refine UInt32.toNat_inj.mp ?_
    show stamp.key.stream = stamp'.key.stream
    rw [hkey, hkey']
    exact hstream
  have hposition : p.stream = p'.stream := h.position hsubmitted hsubmitted' hid
  have hcomplete : k ∈ r.complete p.stream := by
    refine h.earlier (hposition ▸ hlater) ⟨p, stamp, rfl, hnumber⟩
      ⟨p', stamp', hposition.symm, hnumber'⟩ ?_
    omega
  refine ⟨⟨k, _, p, stamp, rfl, hsubmitted, hkey⟩, ?_⟩
  rintro j i ⟨q, stamp₁, rfl, hj, hkey₁⟩
  obtain rfl : stamp₁ = stamp := Stamp.key_injective (hkey₁.trans hkey.symm)
  obtain ⟨rfl, hq⟩ := h.ordered.told.submitted_unique hseq hj hsubmitted rfl
  exact hq ▸ hcomplete

/-! ### The report -/

/-- **The watermark is sound.** Take a run of the pool with its device in which submit calls
of one stream do not overlap, the numbers that the callers give are distinct, and nobody else
writes checkpoint records. Take the ring with the records of the run so far, and any report
that was made from a copy of it. Then every checkpoint that the report does not call
unconfirmed is complete on the device, and so is the one that `confirmed_through` and
`completed_seq` name. -/
theorem watermark_sound {m : Manager} (hm : m.Made) {as : List RigAction} {r : Rig}
    (h : Run Rig.step (Rig.start m) as r)
    (halong : Run.Along Rig.step (fun t a _ => t.NotOverlapping a) (Rig.start m) as)
    (hseq : (r.pool.submits.map SubmitCall.submittedSeq).Nodup) (honly : PoolOnly r.pool.trace)
    {current : Option RecorderState} {path : Option String} {rank device : UInt16}
    {capacity : UInt64} {env : InitEnv} {recorder recorder' : RecorderState} {calls : List Call}
    (hinit : flightInit current path rank device capacity env = .ok recorder)
    (hcalls : calls.map Record.ofCall = r.pool.trace.filterMap Entry.record?)
    (hrecord : recordCalls (some recorder) env.getpid calls = some recorder')
    {file : String} {data : Snapshot} (hread : readEvents file recorder'.file = .ok data)
    {files : List File} (hselect : (selectRanks files).1.get? rank.toNat = some data)
    {order : SetOrder String} {expectedRanks : Option (Finset Int)} {communicatorId : Option Int}
    {report : RankReport}
    (hreport : (rank.toNat, report) ∈ (analyze order files expectedRanks communicatorId).ranks)
    {stream : Nat} {p : Analyzer.Progress} (hp : (stream, p) ∈ report.deviceCheckpointProgress) :
    (∀ mapping ∈ p.checkpointMappings, mapping.status ≠ .unconfirmed →
      r.Completed ⟨stream, mapping.checkpointId, mapping.submittedSeq, mapping.generation⟩) ∧
    (∀ c, p.confirmedThrough = some c → p.completedSeq = c.arg0 ∧ r.Completed (checkpointKey c)) ∧
    (p.confirmedThrough = none → p.completedSeq = 0) := by
  have hsound := sound_run hm h halong
  -- The events of the report are the last records of the pool.
  obtain ⟨recorder₁, data₁, hrecord₁, -, hread₁, -, hdrop⟩ :=
    readEvents_recordCalls hinit calls file
  obtain rfl := Option.some.inj (hrecord.symm.trans hrecord₁)
  obtain rfl := Except.ok.inj (hread.symm.trans hread₁)
  have hevents := hdrop ▸ List.drop_sublist _ _
  obtain ⟨data₁, before, hdata, rfl⟩ := mem_reports hreport
  obtain rfl := Option.some.inj (hselect.symm.trans hdata)
  obtain ⟨-, last, hdescribes⟩ := describes_checkpointProgress before rank.toNat data hp
  -- The checkpoint at `i` is complete if the one at `j`, the same or a later one, is confirmed.
  have hcomplete : ∀ {i j : Nat} {c c' : Event}, i ≤ j →
      (submittedOn stream data.events)[i]? = some c →
      (submittedOn stream data.events)[j]? = some c' → Confirmed data.events c' →
      r.Completed (checkpointKey c) ∧ c.stream = stream := by
    intro i j c c' hij hi hj hconfirmed
    have hmem : ∀ {x}, x ∈ submittedOn stream data.events →
        x ∈ data.events ∧ submits x = true ∧ x.stream = stream := by
      intro x hx
      obtain ⟨hx, hstream⟩ := List.mem_filter.mp hx
      obtain ⟨hx, hsubmits⟩ := List.mem_filter.mp hx
      exact ⟨hx, hsubmits, of_decide_eq_true hstream⟩
    obtain ⟨hc, hsubmits, hstream⟩ := hmem (List.mem_of_getElem? hi)
    obtain ⟨-, hsubmits', hstream'⟩ := hmem (List.mem_of_getElem? hj)
    refine ⟨completed_of_confirmed hsound hseq honly hcalls hevents hsubmits hsubmits'
      (hstream.trans hstream'.symm) hconfirmed ?_, hstream⟩
    rcases Nat.lt_or_eq_of_le hij with hlt | rfl
    · right
      have hfilter : (submittedOn stream data.events).Sublist data.events :=
        List.filter_sublist.trans List.filter_sublist
      exact (pair_sublist hlt hi hj).trans hfilter
    · left
      exact ⟨Option.some.inj (hi.symm.trans hj), hc⟩
  refine ⟨?_, ?_, ?_⟩
  · intro mapping hmapping hstatus
    obtain ⟨i, hi⟩ := List.mem_iff_getElem?.mp hmapping
    have hlt : i < (submittedOn stream data.events).length :=
      hdescribes.mappings ▸ (List.getElem?_eq_some_iff.mp hi).1
    obtain ⟨c, hc⟩ : ∃ c, (submittedOn stream data.events)[i]? = some c :=
      ⟨_, List.getElem?_eq_getElem hlt⟩
    obtain ⟨hseq', hid, hgen, -, -, hunconfirmed⟩ := hdescribes.mapping i c mapping hc hi
    have hle : (i : Int) ≤ last := by
      by_contra hgt
      exact hstatus (hunconfirmed.mpr (by omega))
    rcases hdescribes.greatest.1 with hnone | ⟨j, c', hj, hc', hconfirmed⟩
    · omega
    · obtain ⟨hcompleted, hstream⟩ := hcomplete (show i ≤ j by omega) hc hc' hconfirmed
      rw [hseq', hid, hgen, ← hstream]
      exact hcompleted
  · intro c hthrough
    rcases hdescribes.greatest.1 with hnone | ⟨j, c', hj, hc', hconfirmed⟩
    · rw [(hdescribes.nothing hnone).2] at hthrough
      cases hthrough
    · obtain ⟨hcompletedSeq, hthrough'⟩ := hdescribes.completed j c' hj hc'
      obtain rfl := Option.some.inj (hthrough.symm.trans hthrough')
      exact ⟨hcompletedSeq, (hcomplete (Nat.le_refl j) hc' hc' hconfirmed).1⟩
  · intro hthrough
    rcases hdescribes.greatest.1 with hnone | ⟨j, c', hj, hc', hconfirmed⟩
    · exact (hdescribes.nothing hnone).1
    · rw [(hdescribes.completed j c' hj hc').2] at hthrough
      cases hthrough

/-- A poll finds the first submission not ready and goes on to the second one, which is made
meanwhile. The device completes both markers before the poll asks for the second. -/
def laterConfirmed : List RigAction :=
  .pool (.submit 7 100 1) :: List.replicate 6 (.pool (.advance 0 0)) ++ [.pool (.poll 2)] ++
    List.replicate 3 (.pool (.advancePoll 0)) ++ [.pool (.submit 7 101 2)] ++
    List.replicate 3 (.pool (.advance 1 0)) ++ List.replicate 2 (.pool (.advancePoll 0)) ++
    List.replicate 3 (.pool (.advance 1 0)) ++ [.complete 0, .complete 0] ++
    List.replicate 6 (.pool (.advancePoll 1))

/-- The records of the run. The first submission is never confirmed itself. -/
def laterCalls : List Call :=
  [⟨23, 7, 1, 100, 1, 1, 10, 101⟩, ⟨23, 7, 1, 100, 1, 8, 11, 102⟩, ⟨23, 7, 2, 101, 1, 1, 12, 101⟩,
    ⟨24, 7, 2, 101, 1, 0, 13, 102⟩]

/-- The report about the run names the second checkpoint and takes the first one for confirmed
by it. Both markers are complete. -/
theorem watermark_sound_later :
    ∃ r files report p c mapping, Run Rig.step (Rig.start twoSlots) laterConfirmed r ∧
      (0, report) ∈ (analyze (.insertion String) files none none).ranks ∧
      (7, p) ∈ report.deviceCheckpointProgress ∧ p.confirmedThrough = some c ∧
      p.completedSeq = 101 ∧ r.Completed (checkpointKey c) ∧
      mapping ∈ p.checkpointMappings ∧ mapping.status = .confirmedByLaterCheckpoint ∧
      r.Completed ⟨7, 1, 100, 1⟩ := by
  have hcomputed : (laterConfirmed.foldlM Rig.step (Rig.start twoSlots)).map
        (fun r => (r.pool.submits.map SubmitCall.submittedSeq, r.pool.trace))
      = some ([100, 101], [.access ⟨0, 0⟩ (.reserve 0), .access ⟨0, 0⟩ (.number 0),
          .access ⟨0, 0⟩ (.fill 0 100 1), .access ⟨0, 0⟩ (.enqueue 0 0),
          .access ⟨0, 0⟩ (.submitted 0 ⟨7, 1, 100, 1⟩), .access ⟨0, 0⟩ (.publish 0),
          .access ⟨0, 0⟩ .acquire, .access ⟨0, 0⟩ .load, .access ⟨0, 0⟩ (.query 0),
          .access ⟨0, 1⟩ (.reserve 1), .access ⟨0, 1⟩ (.number 1),
          .access ⟨0, 1⟩ (.fill 1 101 2),
          .access ⟨0, 0⟩ (.observed .notReady ⟨7, 1, 100, 1⟩), .access ⟨0, 0⟩ .withdraw,
          .access ⟨0, 1⟩ (.enqueue 1 0), .access ⟨0, 1⟩ (.submitted 1 ⟨7, 2, 101, 1⟩),
          .access ⟨0, 1⟩ (.publish 1), .access ⟨0, 1⟩ .acquire, .access ⟨0, 1⟩ .load,
          .access ⟨0, 1⟩ (.query 1), .access ⟨0, 1⟩ (.confirmed ⟨7, 2, 101, 1⟩),
          .access ⟨0, 1⟩ .release, .polled 1]) := by
    decide
  obtain ⟨r, hrun, hr⟩ := Option.map_eq_some_iff.mp hcomputed
  obtain ⟨hsubmits, htrace⟩ := Prod.mk.inj hr
  have hmade : twoSlots.Made := .register 7 70 _
    (.create (show flightCheckpointCreate 2 = some _ from rfl))
  have halong : Run.Along Rig.step (fun t a _ => t.NotOverlapping a) (Rig.start twoSlots)
      laterConfirmed := by
    decide
  have honly : PoolOnly r.pool.trace := by
    intro c hc
    rw [htrace] at hc
    simp at hc
  have hcalls : laterCalls.map Record.ofCall = r.pool.trace.filterMap Entry.record? := by
    rw [htrace]
    decide
  have hinit : flightInit none (some "r0.flight") 0 0 16 ⟨none, none, none, 100, 5, 7⟩
      = .ok ⟨initRing 0 0 16 ⟨none, none, none, 100, 5, 7⟩, 16, 100⟩ := rfl
  obtain ⟨recorder, data, hrecord, -, hread, hheader, hevents⟩ :=
    readEvents_recordCalls hinit laterCalls "r0.flight"
  have hselect : (selectRanks [("r0.flight", .ok recorder.file)]).1.get? 0 = some data := by
    have hnone : ∀ j, (selectRanks []).1.get? j = none := fun _ => rfl
    have hfile : readFile ("r0.flight", .ok recorder.file) = .ok data :=
      (readFile_ok "r0.flight" recorder.file).trans hread
    rw [← List.nil_append [_], selectRanks_new hfile (hnone _), hheader, Dict.get?_set, hnone]
    rfl
  obtain ⟨before, hreport⟩ := exists_report hselect
  let first : Event := ⟨10, 1, 100, 101, 0, 0, 7, .checkpoint, 1, 1, 100, 1⟩
  let second : Event := ⟨12, 3, 100, 101, 0, 0, 7, .checkpoint, 1, 2, 101, 1⟩
  let confirmation : Event := ⟨13, 4, 100, 102, 0, 0, 7, .deviceConfirmed, 0, 2, 101, 1⟩
  have hlist : data.events
      = [first, ⟨11, 2, 100, 102, 0, 0, 7, .checkpoint, 8, 1, 100, 1⟩, second, confirmation] := by
    rw [hevents]
    decide
  have hcheckpoints : submittedOn 7 data.events = [first, second] := by
    rw [hlist]
    decide
  obtain ⟨p, hp⟩ : ∃ p, (7, p) ∈ checkpointProgress (scanRank before 0 data.events) := by
    refine ⟨_, (mem_checkpointProgress before 0 data.events).mpr ⟨?_, rfl⟩⟩
    rw [hcheckpoints]
    exact List.cons_ne_nil _ _
  obtain ⟨hmappings, hthrough, -⟩ := watermark_sound hmade hrun halong
    (by rw [hsubmits]; decide) honly hinit hcalls hrecord hread hselect hreport hp
  -- The second checkpoint of the report is confirmed, and the first one is not.
  obtain ⟨-, last, hdescribes⟩ := describes_checkpointProgress before 0 data hp
  rw [hcheckpoints] at hdescribes
  have hsecond : Confirmed data.events second := by
    refine ⟨confirmation, ?_, by decide⟩
    rw [hlist]
    simp
  have hfirst : ¬ Confirmed data.events first := by
    rw [Confirmed, hlist]
    decide
  have hlast : last = (1 : Nat) := by
    have hle : (1 : Nat) ≤ last := hdescribes.greatest.2 (Or.inr ⟨1, _, rfl, rfl, hsecond⟩)
    rcases hdescribes.greatest.1 with hnone | ⟨k, c, hk, hc, -⟩
    · omega
    · have hlt := (List.getElem?_eq_some_iff.mp hc).1
      rw [List.length_cons, List.length_singleton] at hlt
      omega
  obtain ⟨hseq, hnamed⟩ := hdescribes.completed 1 _ hlast rfl
  have hlen : 0 < p.checkpointMappings.length := by
    rw [hdescribes.mappings]
    decide
  have hmapping : p.checkpointMappings[0]? = some p.checkpointMappings[0] :=
    List.getElem?_eq_getElem hlen
  obtain ⟨hseq', hid, hgeneration, -, hlater, -⟩ := hdescribes.mapping 0 first _ rfl hmapping
  have hstatus := hlater.mpr ⟨hfirst, by omega⟩
  have hcompleted := hmappings _ (List.getElem_mem hlen) (by rw [hstatus]; decide)
  rw [hseq', hid, hgeneration] at hcompleted
  exact ⟨r, _, _, _, _, _, hrun, hreport, hp, hnamed, hseq, (hthrough _ hnamed).2,
    List.getElem_mem hlen, hstatus, hcompleted⟩

end HangAnalyzer.Checkpoint
