import HangAnalyzer.Recorder.Ring
import HangAnalyzer.Lib.Runs

/-!
# `HangAnalyzer.Recorder.Family`: the processes that share a recorder library

`flight_init`, `flight_record` and `flight_close` of `src/flight_recorder.cpp`, called by
processes that fork. A child starts with copies of the globals of its parent, and the
mappings behind them are shared. Each call is one step of its process.

`State` has the files behind the mappings, the directory, and the globals of every process.
`Book` is what a user expects of all this, without rings, globals or process ids: every
process writes the calls it makes into the file that it has opened itself.
-/

set_option autoImplicit false

namespace HangAnalyzer.Recorder.Family

open HangAnalyzer.Lib

def EEXIST : Nat := 17

/-! ### The processes -/

/-- The globals `header`, `owner` and `fd`. A header and a descriptor are the number of a
file. -/
structure Process where
  pid : UInt32
  header : Option Nat
  owner : UInt32
  fd : Option Nat
  alive : Bool
  deriving Repr, DecidableEq

/-- The file behind a mapping. -/
structure File where
  mem : Ring
  slots : Nat

/-- The bytes of a file. -/
def File.bytes (f : File) : List UInt8 := f.mem.fileBytes f.slots

/-- The files, the paths that lead to them, and the processes. -/
structure State where
  files : List File
  directory : List (String × Nat)
  processes : List Process

/-- One process without a recorder. -/
def State.start (pid : UInt32) : State := ⟨[], [], [⟨pid, none, 0, none, true⟩]⟩

/-- The arguments of a `flight_init` call, and what the system answers in it. -/
structure Init where
  path : Option String
  rank : UInt16
  device : UInt16
  capacity : UInt64
  env : InitEnv

/-- What a process does. -/
inductive Action where
  | init (p : Nat) (i : Init)
  | record (p : Nat) (c : Call)
  | close (p : Nat)
  | fork (p : Nat) (pid : UInt32)
  | exit (p : Nat)

namespace State

/-- Process `p` gets new globals. -/
def put (s : State) (p : Nat) (proc : Process) : State :=
  { s with processes := s.processes.set p proc }

/-- `flight_init` in process `p`. -/
def init (s : State) (p : Nat) (proc : Process) (i : Init) : State :=
  match i.path with
  | none => s
  | some path =>
      if i.capacity.toNat < 2 ∨ 2 ^ 26 < i.capacity.toNat ∨ proc.header.isSome then s
      else if (2 ^ 64 - 1 - 128) / 64 < i.capacity.toNat then s
      -- `open` with `O_CREAT | O_EXCL`
      else if path ∈ s.directory.map Prod.fst ∨ i.env.openErrno.isSome then
        s.put p { proc with fd := none }
      -- `close(fd); fd=-1; unlink(path);`
      else if i.env.ftruncateErrno.isSome ∨ i.env.mmapErrno.isSome then
        s.put p { proc with fd := none }
      else
        let file := s.files.length
        { files := s.files ++ [⟨initRing i.rank i.device i.capacity i.env, i.capacity.toNat⟩]
          directory := s.directory ++ [(path, file)]
          processes := s.processes.set p
            { proc with header := some file, owner := proc.pid, fd := some file } }

/-- `flight_record` in process `p`. -/
def record (s : State) (proc : Process) (c : Call) : State :=
  match proc.header with
  | none => s
  | some file =>
      -- A forked child does not write into the ring of its parent.
      if proc.pid ≠ proc.owner then s
      else
        { s with
          files := s.files.modify file fun f => { f with mem := f.mem.record proc.owner c } }

/-- One step of a process. The system gives a child a process id that no process has. -/
def step (s : State) (a : Action) : Option State :=
  match a with
  | .init p i => do
      let proc ← s.processes[p]?
      if proc.alive && i.env.getpid = proc.pid then some (s.init p proc i) else none
  | .record p c => do
      let proc ← s.processes[p]?
      if proc.alive then some (s.record proc c) else none
  | .close p => do
      let proc ← s.processes[p]?
      -- `owner` stays.
      if proc.alive then some (s.put p { proc with header := none, fd := none }) else none
  | .fork p pid => do
      let proc ← s.processes[p]?
      if proc.alive && s.processes.all fun q => !q.alive || q.pid ≠ pid then
        some { s with processes := s.processes ++ [{ proc with pid }] }
      else none
  | .exit p => do
      let proc ← s.processes[p]?
      if proc.alive then
        some (s.put p { proc with header := none, fd := none, alive := false })
      else none

end State

/-! ### What is expected -/

/-- A file, as its process has opened it, and the calls that belong there. -/
structure Entry where
  path : String
  rank : UInt16
  device : UInt16
  capacity : UInt64
  env : InitEnv
  calls : List Call

/-- The files, and the one that each process has opened and not closed. -/
structure Book where
  entries : List Entry
  mine : List (Option Nat)

def Book.start : Book := ⟨[], [none]⟩

/-- The processes go on. An `init` opens a new file, or fails and changes nothing. -/
inductive Book.Step : Book → Action → Book → Prop
  | opens {b : Book} {p : Nat} {i : Init} {path : String} (hpath : i.path = some path)
      (hnone : b.mine[p]? = some none) (hnew : ∀ e ∈ b.entries, e.path ≠ path) :
      Step b (.init p i)
        { entries := b.entries ++ [⟨path, i.rank, i.device, i.capacity, i.env, []⟩]
          mine := b.mine.set p (some b.entries.length) }
  | refused {b : Book} {p : Nat} {i : Init} : Step b (.init p i) b
  | records {b : Book} {p file : Nat} {c : Call} (hmine : b.mine[p]? = some (some file)) :
      Step b (.record p c)
        { b with entries := b.entries.modify file fun e => { e with calls := e.calls ++ [c] } }
  | ignored {b : Book} {p : Nat} {c : Call} (hmine : b.mine[p]? = some none) :
      Step b (.record p c) b
  | closes {b : Book} {p : Nat} : Step b (.close p) { b with mine := b.mine.set p none }
  | forks {b : Book} {p : Nat} {pid : UInt32} :
      Step b (.fork p pid) { b with mine := b.mine ++ [none] }
  | exits {b : Book} {p : Nat} : Step b (.exit p) { b with mine := b.mine.set p none }

/-- The steps of a history, one after the other. -/
inductive Book.Steps (b : Book) : List Action → Book → Prop
  | nil : Steps b [] b
  | concat {as : List Action} {a : Action} {c d : Book} (h : Steps b as c) (hstep : c.Step a d) :
      Steps b (as ++ [a]) d

/-- The calls of an entry in their order, with their numbers. -/
def Entry.file (e : Entry) : File :=
  ⟨e.calls.foldl (fun m c => m.record e.env.getpid c)
    (initRing e.rank e.device e.capacity e.env), e.capacity.toNat⟩

end HangAnalyzer.Recorder.Family
