import HangAnalyzer.Recorder.Family
import HangAnalyzer.Proofs.Recorder.RoundTrip

/-!
# `HangAnalyzer.Proofs.Recorder.Family`: one file, one process

A child that is forked has the header, the descriptor and the mapping of its parent, and
only the comparison of `getpid()` with `owner` keeps its calls out of the parent's file.
`Represents` says that this is enough: the globals of a process point to the file that it
has opened itself exactly if the two are equal.

`files_of_family` is the result for all histories of processes that open, record, close, fork and
exit. Every file decodes to the calls of the process that has opened it, and to no
others. A `flight_init` that fails leaves no file and no descriptor behind. The
hypothesis `NoReuse` is about the system: a child does not get the process id of an
ancestor that is gone, and whose mapping it still has.
-/

set_option autoImplicit false

namespace HangAnalyzer.Recorder.Family

open HangAnalyzer.Lib

/-- A fork does not reuse the process id that the parent's mapping belongs to. -/
def NoReuse (s : State) (a : Action) (_ : State) : Prop :=
  match a with
  | .fork p pid => ∀ proc ∈ s.processes[p]?, proc.header.isSome → proc.owner ≠ pid
  | _           => True

instance (s : State) : (a : Action) → (s' : State) → Decidable (NoReuse s a s')
  | .fork p pid, _ => inferInstanceAs
      (Decidable (∀ proc ∈ s.processes[p]?, proc.header.isSome → proc.owner ≠ pid))
  | .init _ _, _ | .record _ _, _ | .close _, _ | .exit _, _ => inferInstanceAs (Decidable True)

/-- The file that a process has opened itself, as its globals say it. -/
def Process.own (proc : Process) : Option Nat :=
  if proc.pid = proc.owner then proc.header else none

/-- What a state has to do with a book. -/
structure Represents (s : State) (b : Book) : Prop where
  files : s.files = b.entries.map Entry.file
  directory : s.directory = b.entries.mapIdx fun k e => (e.path, k)
  mine : s.processes.map Process.own = b.mine
  fd : ∀ proc ∈ s.processes, proc.fd = proc.header
  owner : ∀ proc ∈ s.processes, ∀ k, proc.header = some k →
    ∃ e, b.entries[k]? = some e ∧ e.env.getpid = proc.owner
  capacity : ∀ e ∈ b.entries, 2 ≤ e.capacity.toNat

namespace Represents

variable {s s' : State} {b : Book} {p : Nat} {proc proc' : Process} {i : Init} {c : Call}

/-- One process without a file is represented by the empty book. -/
theorem start (pid : UInt32) : Represents (State.start pid) Book.start where
  files := rfl
  directory := rfl
  mine := by
    show [Process.own _] = [none]
    simp [Process.own]
  fd proc hproc := by
    obtain rfl := List.mem_singleton.mp hproc
    rfl
  owner proc hproc k hk := by
    obtain rfl := List.mem_singleton.mp hproc
    cases hk
  capacity e he := by cases he

/-- The file of a process is that of the book. -/
theorem mine_eq (h : Represents s b) (hp : s.processes[p]? = some proc) :
    b.mine[p]? = some proc.own := by
  rw [← h.mine, List.getElem?_map, hp]
  rfl

/-- A process gives up its file, or has none. -/
theorem put (h : Represents s b) (hheader : proc'.header = none) (hfd : proc'.fd = none) :
    Represents (s.put p proc') { b with mine := b.mine.set p none } where
  files := h.files
  directory := h.directory
  -- A process with no header owns no ring.
  mine := by
    show (s.processes.set p proc').map Process.own = b.mine.set p none
    rw [List.map_set, h.mine, Process.own, hheader, ite_self]
  fd q hq := by
    rcases List.mem_or_eq_of_mem_set hq with hold | rfl
    · exact h.fd q hold
    · rw [hfd, hheader]
  owner q hq k hk := by
    rcases List.mem_or_eq_of_mem_set hq with hold | rfl
    · exact h.owner q hold k hk
    · rw [hheader] at hk
      cases hk
  capacity := h.capacity

/-- A `flight_init` that fails changes nothing. -/
theorem fail (h : Represents s b) (hp : s.processes[p]? = some proc)
    (hheader : proc.header = none) :
    Represents (s.put p { proc with fd := none }) b := by
  have hput : Represents (s.put p { proc with fd := none }) _ := h.put hheader rfl
  have hnone : b.mine[p]? = some none := by
    rw [h.mine_eq hp, Process.own, hheader, ite_self]
  have hlt := (List.getElem?_eq_some_iff.mp hnone).1
  have hsame : b.mine.set p none = b.mine := by
    rw [← (List.getElem?_eq_some_iff.mp hnone).2, List.set_getElem_self]
  rw [hsame] at hput
  exact hput

/-- A `flight_init` opens a new file, or fails and changes nothing. -/
theorem init (h : Represents s b) (hp : s.processes[p]? = some proc)
    (hpid : i.env.getpid = proc.pid) :
    ∃ b', b.Step (.init p i) b' ∧ Represents (s.init p proc i) b' := by
  unfold State.init
  split
  · -- No path was given.
    exact ⟨b, .refused, h⟩
  · rename_i path hpath
    split
    · -- An argument is invalid, or the process is open already.
      exact ⟨b, .refused, h⟩
    · rename_i hargs
      -- A process that is open is refused above.
      have hheader : proc.header = none := by
        rw [← Option.not_isSome_iff_eq_none]
        exact fun hsome => hargs (.inr (.inr hsome))
      split
      · exact ⟨b, .refused, h⟩
      · split
        · exact ⟨b, .refused, h.fail hp hheader⟩
        · rename_i hnew
          split
          · exact ⟨b, .refused, h.fail hp hheader⟩
          · have hlen : s.files.length = b.entries.length := by rw [h.files, List.length_map]
            have hnone : b.mine[p]? = some none := by
              rw [h.mine_eq hp, Process.own, hheader, ite_self]
            -- `O_EXCL` has refused every path that exists.
            have hfresh : ∀ e ∈ b.entries, e.path ≠ path := by
              intro e he heq
              refine hnew (.inl ?_)
              rw [h.directory]
              obtain ⟨k, hk, rfl⟩ := List.getElem_of_mem he
              exact List.mem_map.mpr ⟨(path, k), List.mem_mapIdx.mpr ⟨k, hk, by rw [heq]⟩, rfl⟩
            refine ⟨_, .opens hpath hnone hfresh, ?_⟩
            constructor
            case files =>
                show s.files ++ [_] = (b.entries ++ [_]).map Entry.file
                rw [List.map_append, h.files]
                rfl
            case directory =>
                show s.directory ++ [_] = _
                rw [h.directory, hlen, List.mapIdx_append]
                simp
            case mine =>
                show (s.processes.set p _).map Process.own = b.mine.set p _
                rw [List.map_set, h.mine, Process.own, if_pos rfl, hlen]
            case fd =>
                intro q hq
                rcases List.mem_or_eq_of_mem_set hq with hold | rfl
                · exact h.fd q hold
                · rfl
            case owner =>
                intro q hq k hk
                rcases List.mem_or_eq_of_mem_set hq with hold | rfl
                · obtain ⟨e, he, howner⟩ := h.owner q hold k hk
                  refine ⟨e, ?_, howner⟩
                  rw [List.getElem?_append_left (List.getElem?_eq_some_iff.mp he).1]
                  exact he
                · obtain rfl := Option.some.inj hk
                  refine ⟨⟨path, i.rank, i.device, i.capacity, i.env, []⟩, ?_, hpid⟩
                  rw [hlen, List.getElem?_concat_length]
            case capacity =>
                intro e he
                rcases List.mem_append.mp he with hold | hlast
                · exact h.capacity e hold
                · obtain rfl := List.mem_singleton.mp hlast
                  show 2 ≤ i.capacity.toNat
                  omega

/-- A call is recorded in the file that the process has opened itself, or nowhere. -/
theorem record (h : Represents s b) (hp : s.processes[p]? = some proc) :
    ∃ b', b.Step (.record p c) b' ∧ Represents (s.record proc c) b' := by
  have hmine := h.mine_eq hp
  unfold State.record
  split
  · -- The process is not open.
    rename_i hheader
    rw [Process.own, hheader, ite_self] at hmine
    exact ⟨b, .ignored hmine, h⟩
  · rename_i file hheader
    split
    · -- A child that did not open the ring itself does not record.
      rename_i hchild
      rw [Process.own, if_neg hchild] at hmine
      exact ⟨b, .ignored hmine, h⟩
    · -- The entry of its file gets the call.
      rename_i howner
      rw [Process.own, if_pos (not_not.mp howner), hheader] at hmine
      obtain ⟨e, he, hpid⟩ := h.owner proc (List.mem_of_getElem? hp) file hheader
      refine ⟨_, .records hmine, ?_⟩
      constructor
      case files =>
          show s.files.modify file _ = (b.entries.modify file _).map Entry.file
          rw [h.files]
          refine List.ext_getElem? fun k => ?_
          rw [List.getElem?_modify, List.getElem?_map, List.getElem?_map, List.getElem?_modify]
          by_cases hk : file = k
          · subst hk
            rw [he]
            simp [Entry.file, hpid]
          · simp [hk]
      case directory =>
          show s.directory = _
          rw [h.directory]
          refine List.ext_getElem? fun k => ?_
          rw [List.getElem?_mapIdx, List.getElem?_mapIdx, List.getElem?_modify]
          by_cases hk : file = k
          · subst hk
            rw [he]
            simp
          · simp [hk]
      case mine => exact h.mine
      case fd => exact h.fd
      case owner =>
          intro q hq k hk
          obtain ⟨e', he', howner'⟩ := h.owner q hq k hk
          -- The owner of an entry does not change.
          by_cases hfile : file = k
          · subst hfile
            refine ⟨{ e' with calls := e'.calls ++ [c] }, ?_, howner'⟩
            rw [List.getElem?_modify, he']
            simp
          · refine ⟨e', ?_, howner'⟩
            rw [List.getElem?_modify, he']
            simp [hfile]
      case capacity =>
          intro e' he'
          obtain ⟨k, hk⟩ := List.getElem?_of_mem he'
          rw [List.getElem?_modify] at hk
          obtain ⟨e₀, he₀, rfl⟩ := Option.map_eq_some_iff.mp hk
          have hcap := h.capacity e₀ (List.mem_of_getElem? he₀)
          by_cases hfile : file = k
          · simpa [hfile] using hcap
          · simpa [hfile] using hcap

/-- A child has no file of its own. -/
theorem fork (h : Represents s b) (hp : s.processes[p]? = some proc) {pid : UInt32}
    (hreuse : proc.header.isSome → proc.owner ≠ pid) :
    Represents { s with processes := s.processes ++ [{ proc with pid }] }
      { b with mine := b.mine ++ [none] } where
  files := h.files
  directory := h.directory
  mine := by
    show (s.processes ++ [_]).map Process.own = b.mine ++ [none]
    rw [List.map_append, h.mine, List.map_singleton, Process.own]
    -- The child has another pid, so the ring of the parent is not its own.
    congr 2
    cases hheader : proc.header with
    | none => exact ite_self _
    | some file =>
        exact if_neg fun heq => hreuse (by rw [hheader]; rfl) heq.symm
  fd q hq := by
    rcases List.mem_append.mp hq with hold | hlast
    · exact h.fd q hold
    · obtain rfl := List.mem_singleton.mp hlast
      exact h.fd proc (List.mem_of_getElem? hp)
  owner q hq k hk := by
    rcases List.mem_append.mp hq with hold | hlast
    · exact h.owner q hold k hk
    · obtain rfl := List.mem_singleton.mp hlast
      exact h.owner proc (List.mem_of_getElem? hp) k hk
  capacity := h.capacity

/-- Every step of a process is one of the book. -/
theorem step {a : Action} (h : Represents s b) (hstep : s.step a = some s')
    (hreuse : NoReuse s a s') : ∃ b', b.Step a b' ∧ Represents s' b' := by
  -- The pid of the environment is that of the process, which `step` requires.
  cases a with
  | init p i =>
      obtain ⟨proc, hp, hs⟩ := Option.bind_eq_some_iff.mp hstep
      split at hs
      · rename_i hguard
        obtain rfl := Option.some.inj hs
        exact h.init hp (by simpa using (Bool.and_eq_true_iff.mp hguard).2)
      · cases hs
  | record p c =>
      obtain ⟨proc, hp, hs⟩ := Option.bind_eq_some_iff.mp hstep
      split at hs
      · obtain rfl := Option.some.inj hs
        exact h.record hp
      · cases hs
  | close p =>
      obtain ⟨proc, hp, hs⟩ := Option.bind_eq_some_iff.mp hstep
      split at hs
      · obtain rfl := Option.some.inj hs
        exact ⟨_, .closes, h.put rfl rfl⟩
      · cases hs
  | fork p pid =>
      obtain ⟨proc, hp, hs⟩ := Option.bind_eq_some_iff.mp hstep
      split at hs
      · obtain rfl := Option.some.inj hs
        exact ⟨_, .forks, h.fork hp (hreuse proc hp)⟩
      · cases hs
  | exit p =>
      obtain ⟨proc, hp, hs⟩ := Option.bind_eq_some_iff.mp hstep
      split at hs
      · obtain rfl := Option.some.inj hs
        exact ⟨_, .exits, h.put rfl rfl⟩
      · cases hs

end Represents

/-! ### Histories -/

/-- Below `2 ^ 64` calls the numbers are the positions. -/
theorem events_eq_mapIdx {o : Origin} {calls : List Call} (h : calls.length < 2 ^ 64) :
    Ring.events o calls = calls.mapIdx fun k c => c.event o (k + 1) := by
  refine List.mapIdx_eq_mapIdx_iff.mpr fun k hk => ?_
  rw [Ring.seqAt_of_lt hk h]

/-- The reader finds the last calls of an entry in its file. -/
theorem readEvents_entry {e : Entry} (hcapacity : 2 ≤ e.capacity.toNat)
    (hfew : e.calls.length < 2 ^ 64) :
    ∃ snap, readEvents e.path e.file.bytes = .ok snap ∧
      snap.header = ⟨e.path, e.capacity.toNat, e.env.getpid.toNat, e.rank.toNat, e.device.toNat,
        e.calls.length, lastTime e.env.monoNs.toNat e.calls, e.env.wallNs.toNat,
        e.env.monoNs.toNat⟩ ∧
      snap.events = (e.calls.mapIdx fun k c =>
          c.event ⟨e.env.getpid.toNat, e.rank.toNat, e.device.toNat⟩ (k + 1)).drop
        (e.calls.length - min e.capacity.toNat e.calls.length) := by
  -- The file is the ring of `initRing` after all the calls.
  have hfresh := fresh_initRing e.rank e.device e.env hcapacity
  have hformatted := Ring.formatted_recordAll e.env.getpid hfresh e.calls
  have horigin : (initRing e.rank e.device e.capacity e.env).origin e.env.getpid
      = ⟨e.env.getpid.toNat, e.rank.toNat, e.device.toNat⟩ := by
    simp only [Ring.origin, read_initRing]
  have hmod : e.calls.length % 2 ^ 64 = e.calls.length := Nat.mod_eq_of_lt hfew
  have hheader : ((initRing e.rank e.device e.capacity e.env).recordAll e.env.getpid
      e.calls).header e.path = _ := header_recordAll hcapacity e.calls e.path
  have hevents : (((initRing e.rank e.device e.capacity e.env).recordAll e.env.getpid
      e.calls).snapshot e.path).events = _ := Ring.events_recordAll hfresh e.calls e.path
  rw [hmod] at hheader
  rw [horigin, Ring.retained, hmod, events_eq_mapIdx hfew] at hevents
  exact ⟨_, Ring.readEvents_fileBytes hformatted e.path, hheader, hevents⟩

variable {as : List Action} {s : State} {pid : UInt32}

/-- **One file, one process**: whatever the processes of a family do, their files are those
of a book, in which every process records in the file that it has opened itself. Each file
decodes to the calls of its entry, no path is left by a `flight_init` that failed, and a
process has a descriptor open exactly as long as it has a mapping. -/
theorem files_of_family (h : Run State.step (State.start pid) as s)
    (hreuse : Run.Along State.step NoReuse (State.start pid) as) :
    ∃ b, Book.start.Steps as b ∧
      s.directory = (b.entries.mapIdx fun k e => (e.path, k)) ∧
      (∀ proc ∈ s.processes, proc.fd = proc.header) ∧
      s.files = b.entries.map Entry.file ∧
      ∀ e ∈ b.entries, e.calls.length < 2 ^ 64 →
        ∃ snap, readEvents e.path e.file.bytes = .ok snap ∧
          snap.header = ⟨e.path, e.capacity.toNat, e.env.getpid.toNat, e.rank.toNat,
            e.device.toNat, e.calls.length, lastTime e.env.monoNs.toNat e.calls,
            e.env.wallNs.toNat, e.env.monoNs.toNat⟩ ∧
          snap.events = (e.calls.mapIdx fun k c =>
              c.event ⟨e.env.getpid.toNat, e.rank.toNat, e.device.toNat⟩ (k + 1)).drop
            (e.calls.length - min e.capacity.toNat e.calls.length) := by
  -- The actions that are done tell what the book has.
  obtain ⟨b, hsteps, hrepresents⟩ : ∃ b, Book.start.Steps as b ∧ Represents s b := by
    refine Run.history_along (fun as s => ∃ b, Book.start.Steps as b ∧ Represents s b)
      ⟨Book.start, .nil, .start pid⟩ ?_ hreuse h
    rintro as t a t' ⟨b, hsteps, hrepresents⟩ hstep hok
    obtain ⟨b', hb', hrepresents'⟩ := hrepresents.step hstep hok
    exact ⟨b', hsteps.concat hb', hrepresents'⟩
  exact ⟨b, hsteps, hrepresents.directory, hrepresents.fd, hrepresents.files,
    fun e he hfew => readEvents_entry (hrepresents.capacity e he) hfew⟩

/-- A process that opens a file and forks. The child's first call goes nowhere. It opens a
file of its own and records there, while the parent goes on and exits. The thread id is
kept from the parent, since the child inherits the thread's cached one. -/
def parentAndChild : List Action :=
  [.init 0 ⟨some "rank0-pid100.flight", 0, 0, 16, ⟨none, none, none, 100, 5, 7⟩⟩,
    .record 0 ⟨15, 1, 9, 4, 2, 0, 10, 100⟩, .fork 0 101,
    .record 1 ⟨16, 1, 9, 4, 2, 0, 11, 100⟩,
    .init 1 ⟨some "rank0-pid101.flight", 0, 0, 16, ⟨none, none, none, 101, 6, 12⟩⟩, .close 1,
    .init 1 ⟨some "rank0-pid101.flight", 0, 0, 16, ⟨none, none, none, 101, 6, 13⟩⟩,
    .record 0 ⟨15, 1, 10, 4, 2, 0, 14, 100⟩, .record 1 ⟨16, 1, 10, 4, 2, 0, 15, 100⟩, .exit 0]

/-- Parent and child have each a file of its own, with the calls of its entry. -/
theorem files_of_parent_and_child :
    ∃ s b, Run State.step (State.start 100) parentAndChild s ∧
      Book.start.Steps parentAndChild b ∧
      s.directory = [("rank0-pid100.flight", 0), ("rank0-pid101.flight", 1)] ∧
      s.files = b.entries.map Entry.file := by
  have hrun : Run State.step (State.start 100) parentAndChild _ := rfl
  obtain ⟨b, hsteps, -, -, hfiles, -⟩ := files_of_family hrun (by decide)
  exact ⟨_, b, hrun, hsteps, rfl, hfiles⟩

end HangAnalyzer.Recorder.Family
