import Mathlib.Data.List.Induction
import HangAnalyzer.Mspti.Worker

/-!
# `HangAnalyzer.Proofs.Mspti.Governed`: the control file governs the worker

When all calls of the library return zero, a tick that can read the control file
leaves the worker in step with the library (`Synced`): it collects exactly if the
file says so, and every call was made in a state that allows it. A tick that cannot
read the file ends the thread with an exception, and `hang_mspti_stop` is never
called. So the control file governs the worker exactly as long as every reading
succeeds (`governed_iff`).
-/

set_option autoImplicit false

namespace HangAnalyzer.Mspti

open HangAnalyzer.Lib

/-! ### What the file says -/

/-- The content of the file, stripped of white space, is `1`. -/
def SaysOne (codec : Codec) (file : FileState) : Prop :=
  ∃ bytes text, file = .content bytes ∧ codec bytes = .ok text ∧
    strip (universalNewlines text) = ['1']

/-- The file is missing, or it can be read and decoded. -/
def Readable (codec : Codec) (file : FileState) : Prop :=
  file = .missing ∨ ∃ bytes text, file = .content bytes ∧ codec bytes = .ok text

/-- A tick in which all calls return zero. -/
def quietTick (file : FileState) : Tick := ⟨some file, 0, 0, 0⟩

/-! ### What the calls must respect -/

/-- The library can take a call after the calls `before`. -/
def LibraryCall.Allowed (before : List LibraryCall) : LibraryCall → Prop
  | start ..     => ∀ path capacity result, start path capacity result ∉ before
  | setEnabled .. => ∃ path capacity, start path capacity 0 ∈ before
  | flush _      => collects before = true
  | stop         => True

/-- Every call is one that the library can take. -/
def Disciplined (calls : List LibraryCall) : Prop :=
  ∀ before call after, calls = before ++ call :: after → call.Allowed before

/-- `hang_mspti_start` has returned zero. -/
def Started (calls : List LibraryCall) : Prop :=
  ∃ path capacity, .start path capacity 0 ∈ calls

/-- What the control file promises of the worker, when its ticks find the given files
and all calls return zero. -/
structure Governed (codec : Codec) (settings : Settings) (w : Worker) (files : List FileState) :
    Prop where
  ticking : ∀ pre, pre <+: files → (w.run codec settings (pre.map quietTick)).status = .running
  collecting : ∀ pre file, pre ++ [file] <+: files →
    (collects (w.run codec settings ((pre ++ [file]).map quietTick)).calls = true ↔
      SaysOne codec file)
  disciplined : Disciplined (w.run codec settings (files.map quietTick)).finish.calls
  stopped : .stop ∈ (w.run codec settings (files.map quietTick)).finish.calls ↔
    Started (w.run codec settings (files.map quietTick)).finish.calls

section
variable {codec : Codec} {settings : Settings} {file : FileState} {calls : List LibraryCall}

/-- A file that can be read says whether it contains a one. -/
theorem enabled_of_readable (h : Readable codec file) :
    ∃ b, enabled codec file = .ok b ∧ (b = true ↔ SaysOne codec file) := by
  rcases h with rfl | ⟨bytes, text, rfl, htext⟩
  · -- A missing file reads as off.
    refine ⟨false, rfl, ?_⟩
    simp [SaysOne]
  · -- The content decides, whatever white space is around it.
    refine ⟨strip (universalNewlines text) = ['1'], ?_, ?_⟩
    · simp only [enabled, readText, htext]
    · rw [decide_eq_true_iff]
      constructor
      · intro h
        exact ⟨bytes, text, rfl, htext, h⟩
      · rintro ⟨bytes', text', hbytes, htext', h⟩
        obtain rfl := FileState.content.inj hbytes
        obtain rfl := Except.ok.inj (htext.symm.trans htext')
        exact h

/-- A file that cannot be read raises an exception. -/
theorem enabled_of_not_readable (h : ¬ Readable codec file) :
    ∃ error, enabled codec file = .error error := by
  cases file with
  | missing => exact absurd (Or.inl rfl) h
  | unreadable error => exact ⟨error, rfl⟩
  | content bytes =>
      cases htext : codec bytes with
      | ok text => exact absurd (Or.inr ⟨bytes, text, rfl, htext⟩) h
      | error error =>
          refine ⟨error, ?_⟩
          simp only [enabled, readText, htext]

/-! ### One more call -/

/-- The last call decides together with the ones before. -/
theorem collects_concat (c : LibraryCall) :
    collects (calls ++ [c]) = c.effect (collects calls) := by
  simp [collects]

/-- Nothing has been called that the library cannot take. -/
theorem disciplined_nil : Disciplined [] := by
  intro before call after h
  simp at h

/-- A call that the library can take keeps the discipline. -/
theorem Disciplined.concat (h : Disciplined calls) {c : LibraryCall} (hc : c.Allowed calls) :
    Disciplined (calls ++ [c]) := by
  intro before call after heq
  rcases List.eq_nil_or_concat after with rfl | ⟨after, c', rfl⟩
  · obtain ⟨rfl, hcall⟩ := List.append_inj' heq rfl
    obtain rfl := List.singleton_inj.mp hcall
    exact hc
  · rw [List.concat_eq_append, ← List.cons_append, ← List.append_assoc] at heq
    obtain ⟨hcalls, -⟩ := List.append_inj' heq rfl
    exact h before call after hcalls

/-! ### One tick -/

/-- The worker runs, and knows what the library does. Nothing was called before
`hang_mspti_start`. -/
structure Synced (w : Worker) : Prop where
  running : w.status = .running
  collecting : w.collecting = collects w.calls
  active : w.collecting = true → w.active = true
  started : w.active = true → Started w.calls
  fresh : w.active = false → w.calls = []
  disciplined : Disciplined w.calls
  unstopped : .stop ∉ w.calls

variable {w : Worker}

/-- Whether the library collects after a call of the worker. -/
theorem collects_call (c : LibraryCall) :
    collects (w.call c).calls = c.effect (collects w.calls) :=
  collects_concat c

/-- The flush of a tick keeps the worker synced. -/
theorem Synced.flush (h : Synced w) (result : Int) : Synced (w.flush result) := by
  unfold Worker.flush
  split
  · -- The library collects, so it has been started.
    rename_i hcollecting
    have hactive := h.active hcollecting
    exact
      { running := h.running
        collecting := h.collecting.trans (collects_call (.flush result)).symm
        active := h.active
        started := fun hactive => by
          obtain ⟨path, capacity, hmem⟩ := h.started hactive
          exact ⟨path, capacity, List.mem_append_left _ hmem⟩
        fresh := fun hinactive => absurd (hactive.symm.trans hinactive) (by decide)
        disciplined := h.disciplined.concat (h.collecting.symm.trans hcollecting)
        unstopped := by simp [Worker.call, h.unstopped] }
  · exact h

/-- A flush leaves `collecting`. -/
theorem collecting_flush (result : Int) : (w.flush result).collecting = w.collecting := by
  unfold Worker.flush
  split <;> rfl

/-- The library is started. -/
theorem Synced.start (h : Synced w) (hinactive : w.active = false) (path : String)
    (capacity : Nat) :
    Synced { w.call (.start path capacity 0) with active := true, collecting := true } where
  running := h.running
  collecting := by
    show true = collects (w.call _).calls
    rw [collects_call]
    rfl
  active _ := rfl
  started _ := ⟨path, capacity, List.mem_append_right _ List.mem_cons_self⟩
  fresh hinactive := by cases hinactive
  disciplined := by
    refine h.disciplined.concat fun path capacity result hmem => ?_
    rw [h.fresh hinactive] at hmem
    cases hmem
  unstopped := by simp [Worker.call, h.unstopped]

/-- The library is switched on or off. -/
theorem Synced.setEnabled (h : Synced w) (hactive : w.active = true) (b : Bool) :
    Synced { w.call (.setEnabled b 0) with collecting := b } where
  running := h.running
  collecting := by
    show b = collects (w.call _).calls
    rw [collects_call]
    rfl
  active _ := hactive
  started _ := by
    obtain ⟨path, capacity, hmem⟩ := h.started hactive
    exact ⟨path, capacity, List.mem_append_left _ hmem⟩
  fresh hinactive := absurd (hactive.symm.trans hinactive) (by decide)
  disciplined := h.disciplined.concat (h.started hactive)
  unstopped := by simp [Worker.call, h.unstopped]

/-- A tick that can read the file does what it says. -/
theorem Synced.tick (h : Synced w) {b : Bool} (hfile : enabled codec file = .ok b) :
    Synced (w.tick codec settings (quietTick file)) ∧
      (w.tick codec settings (quietTick file)).collecting = b := by
  unfold Worker.tick
  simp only [quietTick, wanted, hfile]
  split
  · rename_i hstart
    obtain ⟨rfl, hinactive⟩ : b = true ∧ w.active = false := by simpa using hstart
    simp only [ne_eq, not_true_eq_false, if_false]
    have hnext := h.start hinactive settings.path settings.capacity
    exact ⟨hnext.flush 0, collecting_flush 0⟩
  · rename_i hnostart
    split
    · rename_i hswitch
      obtain ⟨hactive, -⟩ : w.active = true ∧ b ≠ w.collecting := by simpa using hswitch
      simp only [ne_eq, not_true_eq_false, if_false]
      have hnext := h.setEnabled hactive b
      exact ⟨hnext.flush 0, collecting_flush 0⟩
    · rename_i hnoswitch
      refine ⟨h.flush 0, (collecting_flush 0).trans ?_⟩
      -- Nothing to do: the library does what the file says already.
      cases hactive : w.active with
      | false =>
          have hoff : w.collecting = false := by
            rw [h.collecting, h.fresh hactive]
            rfl
          have hb : b = false := by simpa [hactive] using hnostart
          rw [hoff, hb]
      | true =>
          have hb : b = w.collecting := by simpa [hactive] using hnoswitch
          exact hb.symm

/-- `start` leads to a worker that is in step with the library. -/
theorem synced_start {w : Worker} (h : start codec settings (some file) 0 = .ok w) :
    Synced w := by
  simp only [start, wanted] at h
  split at h
  · cases h
  · obtain rfl := Except.ok.inj h
    exact ⟨rfl, rfl, by simp, by simp, by simp, disciplined_nil, by simp⟩
  · rw [if_neg (by simp)] at h
    obtain rfl := Except.ok.inj h
    refine ⟨rfl, rfl, by simp, fun _ => ⟨_, _, List.mem_cons_self⟩, by simp, ?_, by simp⟩
    exact disciplined_nil.concat (by simp [LibraryCall.Allowed])

/-! ### All ticks -/

/-- Without ticks the worker stays as it is. -/
@[simp] theorem run_nil : w.run codec settings [] = w := rfl

/-- The last tick counts only while the worker runs. -/
theorem run_concat (ticks : List Tick) (t : Tick) :
    w.run codec settings (ticks ++ [t]) =
      if (w.run codec settings ticks).status = .running then
        (w.run codec settings ticks).tick codec settings t
      else w.run codec settings ticks := by
  rw [Worker.run, List.foldl_append]
  rfl

/-- Readable files and calls that return zero keep the worker synced. -/
theorem synced_run (h : Synced w) {files : List FileState}
    (hfiles : ∀ file ∈ files, Readable codec file) :
    Synced (w.run codec settings (files.map quietTick)) := by
  induction files using List.reverseRecOn with
  | nil => exact h
  | append_singleton files file ih =>
      have hw := ih fun f hf => hfiles f (List.mem_append_left _ hf)
      obtain ⟨b, hb, -⟩ := enabled_of_readable (hfiles file (by simp))
      rw [List.map_append, List.map_singleton, run_concat, if_pos hw.running]
      exact (hw.tick hb).1

/-- After a tick that can read the file, the library does what the file says. -/
theorem collects_run (h : Synced w) {files : List FileState}
    (hfiles : ∀ f ∈ files ++ [file], Readable codec f) :
    collects (w.run codec settings ((files ++ [file]).map quietTick)).calls = true ↔
      SaysOne codec file := by
  have hw : Synced (w.run codec settings ((files ++ [file]).map quietTick)) := synced_run h hfiles
  rw [← hw.collecting]
  have hw' : Synced (w.run codec settings (files.map quietTick)) :=
    synced_run h fun f hf => hfiles f (List.mem_append_left _ hf)
  obtain ⟨b, hb, hsays⟩ := enabled_of_readable (hfiles file (by simp))
  rw [List.map_append, List.map_singleton, run_concat, if_pos hw'.running, (hw'.tick hb).2, hsays]

/-- A tick that cannot read the file ends the thread. -/
theorem tick_of_not_readable (h : ¬ Readable codec file) :
    (w.tick codec settings (quietTick file)).status ≠ .running := by
  obtain ⟨error, herror⟩ := enabled_of_not_readable h
  unfold Worker.tick
  simp only [quietTick, wanted, herror]
  intro hrunning
  cases hrunning

/-! ### The end of the thread -/

/-- The final stop is called when the library has been started. -/
theorem finish_of_running (h : w.status = .running) :
    w.finish.calls = if w.active = true then w.calls ++ [.stop] else w.calls := by
  unfold Worker.finish
  rw [if_pos h]
  split <;> rfl

/-- The calls of a worker that has ended are disciplined, and `stop` is among them exactly
when the library was started. -/
theorem Synced.finish (h : Synced w) :
    Disciplined w.finish.calls ∧ (.stop ∈ w.finish.calls ↔ Started w.finish.calls) := by
  rw [finish_of_running h.running]
  split
  · -- It was started, so the stop comes last.
    rename_i hactive
    obtain ⟨path, capacity, hmem⟩ := h.started hactive
    refine ⟨h.disciplined.concat trivial, ?_⟩
    exact iff_of_true (by simp) ⟨path, capacity, List.mem_append_left _ hmem⟩
  · -- It was never started, so there is nothing to stop.
    rename_i hinactive
    refine ⟨h.disciplined, iff_of_false h.unstopped ?_⟩
    rintro ⟨path, capacity, hmem⟩
    rw [h.fresh (eq_false_of_ne_true hinactive)] at hmem
    cases hmem

/-- **The control file governs the worker** if and only if every reading of it
succeeds. -/
theorem governed_iff (codec : Codec) (settings : Settings) (first : FileState)
    (files : List FileState) :
    (∃ w, start codec settings (some first) 0 = .ok w ∧ Governed codec settings w files) ↔
      ∀ file ∈ first :: files, Readable codec file := by
  constructor
  · intro ⟨w, hstart, h⟩ file hfile
    by_contra hnot
    rcases List.mem_cons.mp hfile with rfl | hmem
    · obtain ⟨error, herror⟩ := enabled_of_not_readable hnot
      simp only [start, wanted, herror] at hstart
      cases hstart
    · -- The thread runs before the tick that cannot read the file, and not after it.
      obtain ⟨pre, post, rfl⟩ := List.append_of_mem hmem
      have hbefore := h.ticking pre (List.prefix_append _ _)
      have hafter := h.ticking (pre ++ [file]) ⟨post, by simp⟩
      rw [List.map_append, List.map_singleton, run_concat, if_pos hbefore] at hafter
      exact tick_of_not_readable hnot hafter
  · -- Every reading succeeds, so the thread ticks to the end.
    intro hall
    obtain ⟨b, hb, -⟩ := enabled_of_readable (hall first List.mem_cons_self)
    obtain ⟨w, hstart⟩ : ∃ w, start codec settings (some first) 0 = .ok w := by
      simp only [start, wanted, hb]
      cases b <;> exact ⟨_, rfl⟩
    have hw := synced_start hstart
    have hfiles : ∀ file ∈ files, Readable codec file := fun file hfile =>
      hall file (List.mem_cons_of_mem _ hfile)
    have hend : Synced (w.run codec settings (files.map quietTick)) := synced_run hw hfiles
    refine ⟨w, hstart, fun pre hpre => ?_, fun pre file hpre => ?_, hend.finish.1, hend.finish.2⟩
    · exact (synced_run hw fun file hfile => hfiles file (hpre.subset hfile)).running
    · exact collects_run hw fun f hf => hfiles f (hpre.subset hf)

end

/-- While the library collects, the control file cannot be read for a moment. The
thread ends, and the library goes on collecting. -/
theorem unreadable_tick :
    let settings : Settings := ⟨"/data/hang/mspti", 100, 262144⟩
    ∃ w, start (fun _ => .ok ['1']) settings (some (.content [0x31])) 0 = .ok w ∧
      (w.run (fun _ => .ok ['1']) settings
        [quietTick (.unreadable "PermissionError: [Errno 13]")]).finish.calls
          = [.start "/data/hang/mspti/mspti-100.msflight" 262144 0] ∧
      ¬ Governed (fun _ => .ok ['1']) settings w [.unreadable "PermissionError: [Errno 13]"] := by
  refine ⟨_, rfl, by decide, fun h => ?_⟩
  have hrunning := h.ticking _ List.prefix_rfl
  revert hrunning
  decide

end HangAnalyzer.Mspti
