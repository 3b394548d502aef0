import HangAnalyzer.Proofs.Analyzer.Scan
import HangAnalyzer.Proofs.Recorder.Interleaved

/-!
# `HangAnalyzer.Proofs.Analyzer.Collectives`: when a rank is reported missing

A rank is missing from a collective when its snapshot shows no begin of it
(`mem_missingExpected`). A snapshot may have lost events, and `analyze` warns
about that with a comparison of two counts. `missingExpected_evidence` says that
the comparison is enough: a missing rank without the warning never made a
call that begins the collective.

The counter of the ring has 64 bits. A ring that has been called more than
`2 ^ 64` times can show all the events its counter promises and still have lost
the first ones (`missing_after_wrap`).
-/

set_option autoImplicit false

namespace HangAnalyzer.Analyzer

open HangAnalyzer.Lib
open HangAnalyzer.Recorder

/-! ### Missing ranks -/

/-- The warning stays off only if there are as many events as the counter says. -/
theorem ringWrapOrLoss_eq_false {data : Snapshot} {scan : Scan} :
    (rankReport data scan).ringWrapOrLoss = false ↔
      data.header.writeSeq ≤ data.events.length := by
  rw [← Nat.not_lt]
  exact decide_eq_false_iff_not

section
variable {ranks : Dict Nat Snapshot} {expected : Finset Int} {communicatorId : Option Int}
  {c : Collective}

/-- An expected rank is missing exactly when it has not entered. -/
theorem mem_missing_collective {key : Nat × Nat} {members : Dict Nat Event} {rank : Nat} :
    (rank : Int) ∈ (collective ranks (some expected) (key, members)).missingExpected ↔
      (rank : Int) ∈ expected ∧ rank ∉ members.keys := by
  simp [collective]

/-- **A missing rank.** An expected rank with a snapshot is missing exactly when
no event of the snapshot begins the collective. -/
theorem mem_missingExpected
    (hc : c ∈ collectives ranks (scanRanks ranks).1.groups (some expected) communicatorId)
    {rank : Nat} {data : Snapshot} (hdata : ranks.get? rank = some data)
    (hrank : (rank : Int) ∈ expected) :
    (rank : Int) ∈ c.missingExpected ↔ ∀ e ∈ data.events,
      ¬ (e.type = .hcclBegin ∧ e.arg0 = c.communicatorId ∧ e.correlationId = c.operationId) := by
  obtain ⟨⟨comm, op⟩, members, hget, rfl⟩ := mem_collectives hc
  -- The members of the group are the ranks that entered.
  have hmembers : rank ∈ members.keys ↔
      rank ∈ entered (scanRanks ranks).1.groups (comm, op) := by
    rw [entered, hget, Option.getD_some]
  rw [mem_missing_collective, hmembers, mem_entered]
  show _ ↔ ∀ e ∈ data.events, ¬ (e.type = .hcclBegin ∧ e.arg0 = comm ∧ e.correlationId = op)
  constructor
  · rintro ⟨-, hnone⟩ e he ⟨htype, hcomm, hop⟩
    exact hnone ⟨data, hdata, e, he, htype, by rw [hcomm, hop]⟩
  · intro hnone
    refine ⟨hrank, ?_⟩
    rintro ⟨data', hdata', e, he, htype, hkey⟩
    obtain rfl := Option.some.inj (hdata.symm.trans hdata')
    exact hnone e he ⟨htype, (Prod.mk.inj hkey).1, (Prod.mk.inj hkey).2⟩

end

/-! ### The calls of the ranks -/

/-- A rank's recorder in the middle of any calls, some claimed and not finished,
and the copy of its file. -/
structure RankRun where
  path : String
  rank : UInt16
  device : UInt16
  capacity : UInt64
  env : InitEnv
  args : Nat → Call
  state : Shared Cell.width
  two_le : 2 ≤ capacity.toNat
  reached : Reached (initRing rank device capacity env) env.getpid capacity.toNat args state

namespace RankRun

variable (run : RankRun)

/-- The copied file. -/
def file : File := (run.path, .ok (Ring.fileBytes run.state.mem run.capacity.toNat))

/-- The snapshot in the copied file. -/
def snapshot : Snapshot := Ring.snapshot run.state.mem run.path

/-- The call at position `k` begins a collective. -/
def Begins (comm op k : Nat) : Prop :=
  (run.args k).type.toNat = EventType.hcclBegin.kind ∧ (run.args k).arg0.toNat = comm ∧
    (run.args k).correlation.toNat = op

/-- The ring is empty when the process starts. -/
theorem fresh : (initRing run.rank run.device run.capacity run.env).Fresh run.capacity.toNat :=
  fresh_initRing run.rank run.device run.env run.two_le

/-- The file of a run is read as its snapshot. -/
theorem readFile_file : readFile run.file = .ok run.snapshot := by
  rw [file, readFile_ok]
  exact Ring.readEvents_fileBytes (run.reached.formatted run.fresh) run.path

/-- The snapshot has the rank of the run. -/
theorem rank_snapshot : run.snapshot.header.rank = run.rank.toNat := by
  show run.state.mem.read (.header .rank) = _
  rw [run.reached.readOnly (readOnly_header (by decide) (by decide)), read_initRing]

/-- The snapshot has the number of calls, up to the width of the counter. -/
theorem writeSeq_snapshot :
    run.snapshot.header.writeSeq = run.state.calls.length % 2 ^ 64 :=
  run.reached.writeSeq run.fresh

/-- A call that begins a collective leaves such an event in a ring without loss. -/
theorem exists_begin (hn : run.state.calls.length < 2 ^ 64)
    (hall : run.snapshot.header.writeSeq ≤ run.snapshot.events.length) {comm op k : Nat}
    (hk : k < run.snapshot.header.writeSeq) (hbegin : run.Begins comm op k) :
    ∃ e ∈ run.snapshot.events, e.type = .hcclBegin ∧ e.arg0 = comm ∧ e.correlationId = op := by
  rw [writeSeq_snapshot, Nat.mod_eq_of_lt hn] at hall hk
  obtain ⟨htype, hcomm, hop⟩ := hbegin
  refine ⟨_, run.reached.mem_of_no_loss run.fresh hn hall hk, ?_, hcomm, hop⟩
  show EventType.ofKind (run.args k).type.toNat = .hcclBegin
  rw [htype]
  rfl

end RankRun

/-- A selected rank is that of one of the copied files. -/
theorem exists_run {runs : List RankRun} {rank : Nat} {data : Snapshot}
    (h : (selectRanks (runs.map RankRun.file)).1.get? rank = some data) :
    ∃ run ∈ runs, run.rank.toNat = rank ∧ data = run.snapshot := by
  obtain ⟨file, hfile, hread, hrank⟩ := exists_of_selectRanks h
  obtain ⟨run, hrun, rfl⟩ := List.mem_map.mp hfile
  rw [run.readFile_file] at hread
  obtain rfl := Except.ok.inj hread
  exact ⟨run, hrun, run.rank_snapshot.symm.trans hrank, rfl⟩

/-- **Missing ranks.** For ranks whose recorders have been called fewer than
`2 ^ 64` times: an expected rank of the report is missing from a collective
exactly when its snapshot shows no begin of it. If it is missing and the warning
is off, none of its first `write_seq` calls begins the collective. And if the
warning is off, every number up to the counter is among the events. -/
theorem missingExpected_evidence (order : SetOrder String) (runs : List RankRun)
    (hruns : ∀ run ∈ runs, run.state.calls.length < 2 ^ 64) (expected : Finset Int)
    (communicatorId : Option Int) (c : Collective)
    (hc : c ∈ (analyze order (runs.map RankRun.file) (some expected) communicatorId).collectives)
    (rank : Nat) (report : RankReport)
    (hreport : (rank, report) ∈
      (analyze order (runs.map RankRun.file) (some expected) communicatorId).ranks)
    (hrank : (rank : Int) ∈ expected) :
    ∃ run ∈ runs, run.rank.toNat = rank ∧
      (selectRanks (runs.map RankRun.file)).1.get? rank = some run.snapshot ∧
      ((rank : Int) ∈ c.missingExpected ↔ ∀ e ∈ run.snapshot.events,
        ¬ (e.type = .hcclBegin ∧ e.arg0 = c.communicatorId ∧ e.correlationId = c.operationId)) ∧
      ((rank : Int) ∈ c.missingExpected → report.ringWrapOrLoss = false →
        ∀ k < run.snapshot.header.writeSeq, ¬ run.Begins c.communicatorId c.operationId k) ∧
      (report.ringWrapOrLoss = false →
        ∀ q, 1 ≤ q → q ≤ run.snapshot.header.writeSeq → ∃ e ∈ run.snapshot.events, e.seq = q) := by
  rw [(analyze_fields order (runs.map RankRun.file) (some expected) communicatorId).1] at hc
  obtain ⟨data, scan, hdata, rfl⟩ := mem_reports hreport
  obtain ⟨run, hrun, hrunRank, rfl⟩ := exists_run hdata
  have hmissing := mem_missingExpected hc hdata hrank
  refine ⟨run, hrun, hrunRank, hdata, hmissing, ?_, ?_⟩
  · intro hmem hloss k hk hbegin
    have hall := ringWrapOrLoss_eq_false.mp hloss
    obtain ⟨e, he, hevent⟩ := run.exists_begin (hruns run hrun) hall hk hbegin
    exact hmissing.mp hmem e he hevent
  · intro hloss q hone hq
    have hread := run.readFile_file
    rw [RankRun.file, readFile_ok] at hread
    exact seq_present hread (ringWrapOrLoss_eq_false.mp hloss) hone hq

/-! ### Calls that do not overlap -/

/-- A recorder after calls that do not overlap, as a copied file. -/
theorem exists_rankRun (path : String) (rank device : UInt16) (capacity : UInt64)
    (env : InitEnv) (hcap : 2 ≤ capacity.toNat) (calls : List Call) :
    ∃ run : RankRun, run.rank = rank ∧ run.state.calls.length = calls.length ∧
      (∀ k c, calls[k]? = some c → run.args k = c) ∧
      run.snapshot.events = (Ring.events ⟨env.getpid.toNat, rank.toNat, device.toNat⟩ calls).drop
        (calls.length - Ring.retained capacity.toNat calls.length) := by
  have hfresh := fresh_initRing rank device env hcap
  let args : Nat → Call := fun k => (calls[k]?).getD ⟨0, 0, 0, 0, 0, 0, 0, 0⟩
  have hargs : ∀ k c, calls[k]? = some c → args k = c := fun k c hk => by simp [args, hk]
  obtain ⟨ops, s, hrun, hmem, hlen⟩ := exists_run_recordAll _ env.getpid hfresh calls hargs
  refine ⟨⟨path, rank, device, capacity, env, args, s, hcap, Protocol.tracked_run hrun⟩, rfl,
    hlen, hargs, ?_⟩
  -- The header of a new ring has the pid, the rank and the device it was made with.
  have horigin : (initRing rank device capacity env).origin env.getpid
      = ⟨env.getpid.toNat, rank.toNat, device.toNat⟩ := by
    simp only [Ring.origin, read_initRing]
  show (Ring.snapshot s.mem path).events = _
  rw [hmem, ← horigin]
  exact Ring.events_recordAll hfresh calls path

/-- The snapshots that are selected from the files of the ranks 0 and 1. -/
theorem get?_selectRanks_pair {run₀ run₁ : RankRun} (h₀ : run₀.rank = 0) (h₁ : run₁.rank = 1) :
    (selectRanks ([run₀, run₁].map RankRun.file)).1.get? 0 = some run₀.snapshot ∧
      (selectRanks ([run₀, run₁].map RankRun.file)).1.get? 1 = some run₁.snapshot := by
  have hrank₀ : run₀.snapshot.header.rank = 0 := by rw [run₀.rank_snapshot, h₀]; rfl
  have hrank₁ : run₁.snapshot.header.rank = 1 := by rw [run₁.rank_snapshot, h₁]; rfl
  have hnone : ∀ j, (selectRanks []).1.get? j = none := fun _ => rfl
  -- The two files are of different ranks, so the second does not replace the first.
  have hfirst : (selectRanks [run₀.file]).1 = (selectRanks []).1.set 0 run₀.snapshot := by
    rw [← List.nil_append [_], selectRanks_new run₀.readFile_file (hnone _), hrank₀]
  have hboth : (selectRanks ([run₀, run₁].map RankRun.file)).1
      = ((selectRanks []).1.set 0 run₀.snapshot).set 1 run₁.snapshot := by
    show (selectRanks ([run₀.file] ++ [run₁.file])).1 = _
    rw [selectRanks_new run₁.readFile_file, hfirst, hrank₁]
    rw [hfirst, hrank₁, Dict.get?_set, if_neg (by decide)]
    exact hnone 1
  rw [hboth]
  simp only [Dict.get?_set]
  exact ⟨rfl, rfl⟩

/-- The snapshot that is selected from the file of rank 0. -/
theorem get?_selectRanks_single {run : RankRun} (hrank : run.rank = 0) (k : Nat) :
    (selectRanks [run.file]).1.get? k = if k = 0 then some run.snapshot else none := by
  have hsnapshot : run.snapshot.header.rank = 0 := by rw [run.rank_snapshot, hrank]; rfl
  have hnone : ∀ j, (selectRanks []).1.get? j = none := fun _ => rfl
  rw [← List.nil_append [_], selectRanks_new run.readFile_file (hnone _), hsnapshot,
    Dict.get?_set, hnone]

/-- The report about a recorder of rank 0 after calls that do not overlap. -/
theorem exists_log (calls : List Call) :
    ∃ files data report, (selectRanks files).1.get? 0 = some data ∧
      data.events = (Ring.events ⟨100, 0, 0⟩ calls).drop
        (calls.length - Ring.retained 16 calls.length) ∧
      (0, report) ∈ (analyze (.insertion String) files none none).ranks := by
  obtain ⟨run, hrank, -, -, hevents⟩ := exists_rankRun "r0.flight" 0 0 16
    ⟨none, none, none, 100, 5, 7⟩ (by decide) calls
  have hget := get?_selectRanks_single hrank 0
  rw [if_pos rfl] at hget
  have hcap : UInt64.toNat 16 = 16 := rfl
  rw [hcap] at hevents
  obtain ⟨before, hreport⟩ := exists_report hget
  exact ⟨[run.file], run.snapshot, _, hget, hevents, hreport⟩

/-- The begin of operation 9 on communicator 4. -/
def beginCall : Call := ⟨15, 1, 9, 4, 2, 0, 10, 101⟩

/-- A call that begins no collective. -/
def otherCall : Call := ⟨5, 1, 9, 4, 2, 0, 11, 101⟩

/-- A rank that made only other calls is missing from a collective that another
rank has begun. It has lost nothing, so it did not begin it. -/
theorem missingExpected_evidence_two :
    ∃ (runs : List RankRun) (c : Collective) (report : RankReport),
      c ∈ (analyze (.insertion String) (runs.map RankRun.file) (some {0, 1}) none).collectives ∧
      (0, report) ∈ (analyze (.insertion String) (runs.map RankRun.file) (some {0, 1}) none).ranks ∧
      (0 : Int) ∈ c.missingExpected ∧ report.ringWrapOrLoss = false ∧
      ∃ run ∈ runs, ∀ k < run.snapshot.header.writeSeq,
        ¬ run.Begins c.communicatorId c.operationId k := by
  obtain ⟨run₀, hrank₀, hlen₀, -, hevents₀⟩ := exists_rankRun "r0.flight" 0 0 16
    ⟨none, none, none, 100, 5, 7⟩ (by decide) [otherCall]
  obtain ⟨run₁, hrank₁, hlen₁, -, hevents₁⟩ := exists_rankRun "r1.flight" 1 1 16
    ⟨none, none, none, 200, 5, 7⟩ (by decide) [beginCall]
  have hlist₀ : run₀.snapshot.events = [otherCall.event ⟨100, 0, 0⟩ 1] := by
    rw [hevents₀]
    decide
  have hlist₁ : run₁.snapshot.events = [beginCall.event ⟨200, 1, 1⟩ 1] := by
    rw [hevents₁]
    decide
  obtain ⟨hget₀, hget₁⟩ := get?_selectRanks_pair hrank₀ hrank₁
  obtain ⟨scan, hreport⟩ := exists_report hget₀
  -- Rank 1 has entered the operation, so there is a collective of it.
  have hentered : 1 ∈ entered
      (scanRanks (selectRanks ([run₀, run₁].map RankRun.file)).1).1.groups (4, 9) :=
    mem_entered.mpr ⟨_, hget₁, _, hlist₁ ▸ List.mem_cons_self, by decide⟩
  obtain ⟨c, hc, hcomm, hop⟩ := exists_collective (some {0, 1}) hentered
  rw [← (analyze_fields (.insertion String) _ _ _).1] at hc
  obtain ⟨run, hrun, -, hget, hmissing, hnone, -⟩ :=
    missingExpected_evidence (.insertion String) [run₀, run₁] (by simp [hlen₀, hlen₁]) {0, 1}
      none c hc 0 _ hreport (by simp)
  -- The one event of rank 0 is no beginning of a collective.
  have hmem : ((0 : Nat) : Int) ∈ c.missingExpected := by
    rw [hmissing, Option.some.inj (hget.symm.trans hget₀), hlist₀]
    intro e he
    rw [List.mem_singleton.mp he]
    exact fun hevent => absurd hevent.1 (by decide)
  -- Its number and its events agree, so nothing was lost.
  have hloss : (rankReport run₀.snapshot scan).ringWrapOrLoss = false := by
    rw [ringWrapOrLoss_eq_false, run₀.writeSeq_snapshot, hlen₀, hlist₀]
    rfl
  exact ⟨_, c, _, hc, hreport, hmem, hloss, run, hrun, hnone hmem hloss⟩

/-- A recorder after a begin and `2 ^ 64` other calls shows one event, the last
call's. -/
theorem exists_wrapped_run {tail : List Call} (hlen : tail.length = 2 ^ 64)
    (hother : ∀ c ∈ tail, c = otherCall) :
    ∃ run : RankRun, run.rank = 0 ∧ run.args 0 = beginCall ∧ run.snapshot.header.writeSeq = 1 ∧
      run.snapshot.events.length = 1 ∧ ∀ e ∈ run.snapshot.events, e.type = .modelBegin := by
  obtain ⟨run, hrank, hcalls, hargs, hevents⟩ := exists_rankRun "r0.flight" 0 0 16
    ⟨none, none, none, 100, 5, 7⟩ (by decide) (beginCall :: tail)
  -- The counter is back at 1.
  have hmod : (beginCall :: tail).length % 2 ^ 64 = 1 := by
    rw [List.length_cons, hlen, Nat.add_mod_left]
    rfl
  have hretained : Ring.retained (UInt64.toNat 16) (beginCall :: tail).length = 1 := by
    rw [Ring.retained, hmod]
    rfl
  refine ⟨run, hrank, hargs 0 _ rfl, ?_, ?_, ?_⟩
  · rw [run.writeSeq_snapshot, hcalls, hmod]
  · rw [hevents, hretained, Ring.events, List.length_drop, List.length_mapIdx, List.length_cons]
    omega
  · -- The one event that is left is the last call.
    intro e he
    rw [hevents, hretained, List.length_cons, Nat.add_sub_cancel, Ring.mem_events] at he
    obtain ⟨k, c, hle, hk, rfl⟩ := he
    have hpos : k ≠ 0 := by omega
    obtain ⟨j, rfl⟩ := Nat.exists_eq_succ_of_ne_zero hpos
    rw [List.getElem?_cons_succ] at hk
    rw [hother c (List.mem_of_getElem? hk)]
    rfl

/-- After `2 ^ 64 + 1` calls the counter of rank 0 is at one again. The rank is
missing from the collective that its first call has begun, and the warning is
off. -/
theorem missing_after_wrap :
    ∃ (run₀ run₁ : RankRun) (c : Collective) (report : RankReport),
      c ∈ (analyze (.insertion String) ([run₀, run₁].map RankRun.file) (some {0, 1})
        none).collectives ∧
      (0, report) ∈ (analyze (.insertion String) ([run₀, run₁].map RankRun.file) (some {0, 1})
        none).ranks ∧
      (0 : Int) ∈ c.missingExpected ∧ report.ringWrapOrLoss = false ∧
      ∃ k < run₀.snapshot.header.writeSeq, run₀.Begins c.communicatorId c.operationId k := by
  obtain ⟨run₀, hrank₀, hargs, hseq, hlen, hother⟩ := exists_wrapped_run
    (List.length_replicate (n := 2 ^ 64) (a := otherCall)) fun c hc => List.eq_of_mem_replicate hc
  obtain ⟨run₁, hrank₁, -, -, hevents₁⟩ := exists_rankRun "r1.flight" 1 1 16
    ⟨none, none, none, 200, 5, 7⟩ (by decide) [beginCall]
  have hlist₁ : run₁.snapshot.events = [beginCall.event ⟨200, 1, 1⟩ 1] := by
    rw [hevents₁]
    decide
  obtain ⟨hget₀, hget₁⟩ := get?_selectRanks_pair hrank₀ hrank₁
  obtain ⟨scan, hreport⟩ := exists_report hget₀
  have hentered : 1 ∈ entered
      (scanRanks (selectRanks ([run₀, run₁].map RankRun.file)).1).1.groups (4, 9) :=
    mem_entered.mpr ⟨_, hget₁, _, hlist₁ ▸ List.mem_cons_self, by decide⟩
  obtain ⟨c, hc, hcomm, hop⟩ := exists_collective (some {0, 1}) hentered
  -- The begin of rank 0 was overwritten long ago.
  have hmem : ((0 : Nat) : Int) ∈ c.missingExpected := by
    rw [mem_missingExpected hc hget₀ (by simp)]
    intro e he hbegin
    exact absurd ((hother e he).symm.trans hbegin.1) (by decide)
  rw [← (analyze_fields (.insertion String) _ _ _).1] at hc
  refine ⟨run₀, run₁, c, _, hc, hreport, hmem, ?_, 0, by rw [hseq]; decide, ?_⟩
  · rw [ringWrapOrLoss_eq_false, hseq, hlen]
  · rw [RankRun.Begins, hargs, hcomm, hop]
    decide

end HangAnalyzer.Analyzer
