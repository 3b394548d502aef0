import HangAnalyzer.Analyzer.Outputs
import HangAnalyzer.Proofs.Analyzer.FileOrder
import HangAnalyzer.Proofs.Recorder.LiveCopy

/-!
# `HangAnalyzer.Proofs.Analyzer.Merge`: the union of the snapshots

`write_outputs` merges the events of a rank file by file, with a dictionary that is
keyed by `seq`. If no two different events of the files have one number, the
merge is the union (`get?_fullEvents`).

Untorn copies of one ring satisfy this as long as its counter has not wrapped: a
number then belongs to one call, whatever the copies were taken between
(`Process.event_eq`). `merged_union` is the result for the files of a report. After
`2 ^ 64` calls a number comes again, and the merge loses an event
(`wrapped_merge_loses`).
-/

set_option autoImplicit false

namespace HangAnalyzer.Analyzer

open HangAnalyzer.Lib
open HangAnalyzer.Recorder

/-! ### One file more -/

/-- No two different events have one number. -/
def Consistent (events : List Event) : Prop :=
  ∀ a ∈ events, ∀ b ∈ events, a.seq = b.seq → a = b

/-- A merge keeps the last event of each sequence number, in the order of the numbers. -/
theorem mergeEvents_eq (merged events : List Event) :
    mergeEvents merged events = sortBySeq (updateBySeq .empty (merged ++ events)).values := by
  rw [mergeEvents, updateBySeq, updateBySeq, updateBySeq, List.foldl_append]

/-- Of the events with one number the last one is kept. -/
theorem get?_updateBySeq (l : List Event) (k : Nat) :
    (updateBySeq .empty l).get? k = l.reverse.find? fun e => e.seq = k :=
  Dict.get?_foldl_set Event.seq l k

/-- Every value stands under its own number. -/
theorem map_seq_values (l : List Event) :
    (updateBySeq .empty l).values.map Event.seq = (updateBySeq .empty l).keys := by
  rw [Dict.values, Dict.keys, List.map_map]
  refine List.map_congr_left fun item hitem => ?_
  obtain ⟨k, e⟩ := item
  have hfind := Dict.mem_items.mp hitem
  rw [get?_updateBySeq] at hfind
  have hseq := List.find?_some hfind
  exact of_decide_eq_true hseq

/-- A merge is in the order of the numbers. -/
theorem mergeEvents_sorted (merged events : List Event) :
    (mergeEvents merged events).Pairwise (·.seq < ·.seq) := by
  rw [mergeEvents_eq]
  refine sortBySeq_sorted ?_
  rw [map_seq_values]
  exact (updateBySeq .empty _).nodup

/-- The merge keeps the later of two events with one number, so a consistent merge
keeps all. -/
theorem mem_mergeEvents {merged events : List Event} (h : Consistent (merged ++ events))
    {e : Event} : e ∈ mergeEvents merged events ↔ e ∈ merged ∨ e ∈ events := by
  rw [mergeEvents_eq, mem_sortBySeq, Dict.mem_values, ← List.mem_append]
  simp only [get?_updateBySeq]
  -- Events with the same number are equal, so no entry hides another event.
  constructor
  · rintro ⟨k, hfind⟩
    exact List.mem_reverse.mp (List.mem_of_find?_eq_some hfind)
  · intro he
    refine ⟨e.seq, ?_⟩
    cases hfind : (merged ++ events).reverse.find? fun x => x.seq = e.seq with
    | none =>
        have hnone := List.find?_eq_none.mp hfind e (List.mem_reverse.mpr he)
        exact absurd (decide_eq_true rfl) hnone
    | some x =>
        have hx := List.mem_reverse.mp (List.mem_of_find?_eq_some hfind)
        have hseq := List.find?_some hfind
        rw [h x hx e he (of_decide_eq_true hseq)]

/-- The last event of the files is kept before all others with its number. -/
theorem eq_of_mem_mergeEvents {merged : List Event} {last e : Event}
    (h : e ∈ mergeEvents merged [last]) (hseq : e.seq = last.seq) : e = last := by
  rw [mergeEvents_eq, mem_sortBySeq, Dict.mem_values] at h
  obtain ⟨k, hfind⟩ := h
  rw [get?_updateBySeq, List.reverse_concat, List.find?_cons] at hfind
  -- The entry of the last event replaces the others of its number.
  have hk : last.seq = k := by
    split at hfind
    · rename_i hlast
      exact of_decide_eq_true hlast
    · have hseq' := List.find?_some hfind
      rw [← hseq]
      exact of_decide_eq_true hseq'
  rw [hk, decide_eq_true rfl] at hfind
  exact (Option.some.inj hfind).symm

/-! ### The loop over the files -/

section
variable {report : Report} {rank : Nat}

/-- The loop reads the file for the rank. -/
def Counted (report : Report) (rank : Nat) (file : File) (data : Snapshot) : Prop :=
  readFile file = .ok data ∧ data.header.rank = rank ∧
    ∃ d, report.rank? rank = some d ∧ data.header.pid = d.pid

/-- An event of a file that the loop reads for the rank. -/
def InFiles (report : Report) (rank : Nat) (files : List File) (e : Event) : Prop :=
  ∃ file ∈ files, ∃ data, Counted report rank file data ∧ e ∈ data.events

/-- A file that is read for the rank adds its events. -/
theorem get?_mergeFile_of_counted {file : File} {data : Snapshot}
    (h : Counted report rank file data) (full : Dict Nat (List Event)) :
    (mergeFile report full file).get? rank
      = some (mergeEvents ((full.get? rank).getD []) data.events) := by
  obtain ⟨hread, rfl, d, hd, hpid⟩ := h
  simp only [mergeFile, hread, hd, if_pos hpid]
  exact Dict.get?_set_self _ _ _

/-- Every other file changes nothing for the rank. -/
theorem get?_mergeFile_of_not {file : File} (h : ¬ ∃ data, Counted report rank file data)
    (full : Dict Nat (List Event)) : (mergeFile report full file).get? rank = full.get? rank := by
  rw [mergeFile]
  split
  · rfl
  · rename_i data hread
    -- The file counts only for the rank and the process of the report.
    split
    · rfl
    · rename_i d hd
      split
      · rename_i hpid
        refine Dict.get?_set_of_ne _ _ fun hrank => h ⟨data, hread, hrank.symm, d, ?_, hpid⟩
        rw [hrank, hd]
      · rfl

/-- One more file is merged into the events found before. -/
theorem fullEvents_concat (report : Report) (files : List File) (file : File) :
    fullEvents report (files ++ [file]) = mergeFile report (fullEvents report files) file := by
  rw [fullEvents, List.foldl_concat, fullEvents]

/-- The events of one file more. -/
theorem inFiles_concat {files : List File} {file : File} {e : Event} :
    InFiles report rank (files ++ [file]) e ↔
      InFiles report rank files e ∨ ∃ data, Counted report rank file data ∧ e ∈ data.events := by
  constructor
  · -- The event is in an earlier file, or in this one.
    rintro ⟨f, hf, data, hdata, he⟩
    rcases List.mem_append.mp hf with hmem | hmem
    · exact Or.inl ⟨f, hmem, data, hdata, he⟩
    · obtain rfl := List.mem_singleton.mp hmem
      exact Or.inr ⟨data, hdata, he⟩
  · rintro (⟨f, hf, hrest⟩ | ⟨data, hdata, he⟩)
    · exact ⟨f, List.mem_append_left _ hf, hrest⟩
    · exact ⟨file, List.mem_append_right _ (List.mem_singleton_self _), data, hdata, he⟩

/-- The entry of the rank after the files: their events in the order of their numbers, or
none if no file was read for the rank. -/
def MergedEntry (report : Report) (rank : Nat) (files : List File) : Option (List Event) → Prop
  | some merged => merged.Pairwise (·.seq < ·.seq) ∧ ∀ e, e ∈ merged ↔ InFiles report rank files e
  | none        => ∀ file ∈ files, ¬ ∃ data, Counted report rank file data

/-- The events of the entry. -/
theorem MergedEntry.mem_getD {files : List File} {entry : Option (List Event)}
    (h : MergedEntry report rank files entry) (e : Event) :
    e ∈ entry.getD [] ↔ InFiles report rank files e := by
  cases entry with
  | some merged => exact h.2 e
  -- A rank with no file has no events.
  | none =>
      constructor
      · intro hmem
        cases hmem
      · rintro ⟨file, hfile, data, hdata, -⟩
        exact absurd ⟨data, hdata⟩ (h file hfile)

/-- **The merge of a rank.** If no two different events of its files have one number,
the merged events are those of its files, in the order of their numbers. Without
such a file there is no entry. -/
theorem get?_fullEvents {files : List File}
    (h : ∀ a b, InFiles report rank files a → InFiles report rank files b → a.seq = b.seq → a = b) :
    MergedEntry report rank files ((fullEvents report files).get? rank) := by
  induction files using List.reverseRecOn with
  | nil =>
      intro file hfile
      cases hfile
  | append_singleton files file ih =>
      have hbefore := ih fun a b ha hb =>
        h a b (inFiles_concat.mpr (Or.inl ha)) (inFiles_concat.mpr (Or.inl hb))
      rw [fullEvents_concat]
      by_cases hcounted : ∃ data, Counted report rank file data
      · obtain ⟨data, hdata⟩ := hcounted
        rw [get?_mergeFile_of_counted hdata]
        -- What the merge puts together is in the files.
        have hin : ∀ e, e ∈ ((fullEvents report files).get? rank).getD [] ++ data.events ↔
            InFiles report rank (files ++ [file]) e := by
          intro e
          rw [List.mem_append, hbefore.mem_getD, inFiles_concat]
          refine or_congr_right ⟨fun he => ⟨data, hdata, he⟩, ?_⟩
          rintro ⟨data', hdata', he⟩
          obtain rfl := Except.ok.inj (hdata'.1.symm.trans hdata.1)
          exact he
        refine ⟨mergeEvents_sorted _ _, fun e => ?_⟩
        rw [mem_mergeEvents fun a ha b hb => h a b ((hin a).mp ha) ((hin b).mp hb),
          ← List.mem_append, hin]
      · rw [get?_mergeFile_of_not hcounted]
        cases hget : (fullEvents report files).get? rank with
        | some merged =>
            rw [hget] at hbefore
            refine ⟨hbefore.1, fun e => (hbefore.2 e).trans ?_⟩
            rw [inFiles_concat]
            refine (or_iff_left ?_).symm
            rintro ⟨data, hdata, -⟩
            exact hcounted ⟨data, hdata⟩
        | none =>
            rw [hget] at hbefore
            intro f hf
            rcases List.mem_append.mp hf with hf' | hf'
            · exact hbefore f hf'
            · obtain rfl := List.mem_singleton.mp hf'
              exact hcounted

end

/-! ### What is written for a rank -/

/-- The entries of `trace.json` for a reported rank. -/
theorem filter_traceEvents {report : Report} (hnodup : (report.ranks.map Prod.fst).Nodup)
    {rank : Nat} {d : RankReport} (h : (rank, d) ∈ report.ranks) (files : List File) :
    (traceEvents report files).filter (fun t => t.pid = rank)
      = (eventsOf (fullEvents report files) (rank, d)).map (traceEvent rank) := by
  refine Dict.filter_flatMap_items (fun item t ht => ?_) hnodup h
  obtain ⟨e, -, rfl⟩ := List.mem_map.mp ht
  rfl

/-- The section of `events.txt` for a reported rank. -/
theorem filter_eventSections {report : Report} (hnodup : (report.ranks.map Prod.fst).Nodup)
    {rank : Nat} {d : RankReport} (h : (rank, d) ∈ report.ranks) (files : List File) :
    (eventSections report files).filter (fun s => s.rank = rank)
      = [eventSection (fullEvents report files) (rank, d)] := by
  have hperm := List.mergeSort_perm report.ranks fun a b => a.1 ≤ b.1
  have hnodup' := (hperm.map Prod.fst).nodup_iff.mpr hnodup
  rw [eventSections, List.map_eq_flatMap]
  refine Dict.filter_flatMap_items (fun item s hs => ?_) hnodup' (hperm.mem_iff.mpr h)
  obtain rfl := List.mem_singleton.mp hs
  rfl

/-! ### Copies of one ring -/

/-- A recorder process: the arguments of its ring, and what its calls pass. -/
structure Process where
  rank : UInt16
  device : UInt16
  capacity : UInt64
  env : InitEnv
  args : Nat → Call
  two_le : 2 ≤ capacity.toNat

namespace Process

/-- The ring before the first call. -/
def start (p : Process) : Ring := initRing p.rank p.device p.capacity p.env

/-- The ring is empty when the process starts. -/
theorem fresh (p : Process) : p.start.Fresh p.capacity.toNat :=
  fresh_initRing p.rank p.device p.env p.two_le

/-- An untorn copy of the ring, read word by word during any interleaving of the
calls. Calls that have claimed a number need not have published it. -/
structure Copy (p : Process) where
  path : String
  ops : List CopyOp
  state : Copying Cell.width
  run : CopyRun p.start p.env.getpid p.capacity.toNat p.args ops state
  complete : fileWords p.capacity.toNat ≤ state.next
  untorn : TornFree p.start p.env.getpid p.capacity.toNat p.args state

namespace Copy

variable {p : Process} (c : p.Copy)

/-- The copied file. -/
def file : File := (c.path, .ok (Ring.fileBytes c.state.buf p.capacity.toNat))

/-- The snapshot in the copied file. -/
def snapshot : Snapshot := Ring.snapshot c.state.buf c.path

/-- The calls that have claimed a number when the copy is complete. -/
def claimed : Nat := c.state.shared.calls.length

/-- The file of a copy is read as its snapshot. -/
theorem readFile_file : readFile c.file = .ok c.snapshot := by
  rw [file, readFile_ok]
  exact Ring.readEvents_fileBytes (formatted_copy c.run p.fresh c.complete) c.path

/-- The snapshot has the rank of the process. -/
theorem rank_snapshot : c.snapshot.header.rank = p.rank.toNat := by
  show c.state.buf.read (.header .rank) = _
  rw [read_header_copied c.run c.complete (by decide) (by decide), start, read_initRing]

/-- The snapshot has the id of the process. -/
theorem pid_snapshot : c.snapshot.header.pid = p.env.getpid.toNat := by
  show c.state.buf.read (.header .pid) = _
  rw [read_header_copied c.run c.complete (by decide) (by decide), start, read_initRing]

/-- An event of the copy is that of the call with its number. -/
theorem exists_call {e : Event} (he : e ∈ c.snapshot.events) (hn : c.claimed < 2 ^ 64) :
    ∃ k, e = (p.args k).event (p.start.origin p.env.getpid) (k + 1) ∧ e.seq = k + 1 := by
  obtain ⟨snap, hread, hevents⟩ := c.untorn c.path
  have hfile := c.readFile_file
  rw [file, readFile_ok, hread] at hfile
  obtain rfl := Except.ok.inj hfile
  -- The copy is whole, so each of its events is that of one call.
  obtain ⟨k, hk, hevent⟩ := hevents e he
  rw [claimed] at hn
  have hseq : Ring.seqAt k = k + 1 := Ring.seqAt_of_lt hk hn
  rw [hseq] at hevent
  exact ⟨k, hevent, by rw [hevent, Call.event]⟩

end Copy

/-- **One number, one event.** Two copies of a ring that has been called fewer than
`2 ^ 64` times agree on the event of a number. -/
theorem event_eq {p : Process} {c c' : p.Copy} (hn : c.claimed < 2 ^ 64) (hn' : c'.claimed < 2 ^ 64)
    {e e' : Event} (he : e ∈ c.snapshot.events) (he' : e' ∈ c'.snapshot.events)
    (h : e.seq = e'.seq) : e = e' := by
  obtain ⟨k, hevent, hseq⟩ := c.exists_call he hn
  obtain ⟨k', hevent', hseq'⟩ := c'.exists_call he' hn'
  obtain rfl : k = k' := by omega
  rw [hevent, hevent']

end Process

/-- A reported rank is found. -/
theorem rank?_of_mem {report : Report} (hnodup : (report.ranks.map Prod.fst).Nodup) {rank : Nat}
    {d : RankReport} (h : (rank, d) ∈ report.ranks) : report.rank? rank = some d :=
  Dict.mem_items.mp (show (rank, d) ∈ (⟨report.ranks, hnodup⟩ : Dict Nat RankReport).items from h)

/-- The readable files of the rank are copies of the ring, and its counter has not wrapped. -/
def Process.AllCopies (p : Process) (files : List File) : Prop :=
  ∀ file ∈ files, ∀ data, readFile file = .ok data → data.header.rank = p.rank.toNat →
    ∃ c : p.Copy, c.file = file ∧ c.claimed < 2 ^ 64

/-- An event of a readable file of the rank. -/
def OfRank (rank : Nat) (files : List File) (e : Event) : Prop :=
  ∃ file ∈ files, ∃ data, readFile file = .ok data ∧ data.header.rank = rank ∧ e ∈ data.events

section
variable {p : Process} {order : SetOrder String} {analysed files files' : List File}
  {expectedRanks : Option (Finset Int)} {communicatorId : Option Int} {d : RankReport}

/-- All files of the rank are from one process. -/
theorem Process.AllCopies.pid (hcopies : p.AllCopies files) {file : File} (hfile : file ∈ files)
    {data : Snapshot} (hread : readFile file = .ok data)
    (hrank : data.header.rank = p.rank.toNat) : data.header.pid = p.env.getpid.toNat := by
  obtain ⟨c, rfl, -⟩ := hcopies file hfile data hread hrank
  obtain rfl := Except.ok.inj (c.readFile_file.symm.trans hread)
  exact c.pid_snapshot

/-- Two files of the rank agree on the event of a number. -/
theorem Process.AllCopies.event_eq (hcopies : p.AllCopies files) {a b : Event}
    (ha : OfRank p.rank.toNat files a) (hb : OfRank p.rank.toNat files b) (hseq : a.seq = b.seq) :
    a = b := by
  obtain ⟨file, hfile, data, hread, hrank, ha⟩ := ha
  obtain ⟨file', hfile', data', hread', hrank', hb⟩ := hb
  obtain ⟨c, rfl, hn⟩ := hcopies file hfile data hread hrank
  obtain ⟨c', rfl, hn'⟩ := hcopies file' hfile' data' hread' hrank'
  obtain rfl := Except.ok.inj (c.readFile_file.symm.trans hread)
  obtain rfl := Except.ok.inj (c'.readFile_file.symm.trans hread')
  exact Process.event_eq hn hn' ha hb hseq

variable (hcopies : p.AllCopies files) (hsame : ∀ file, file ∈ analysed ↔ file ∈ files)
  (hreport : (p.rank.toNat, d) ∈ (analyze order analysed expectedRanks communicatorId).ranks)
include hcopies hsame hreport

/-- The report is about a copy of the ring, so the loop passes over no readable file. -/
theorem counted_iff {file : File} (hfile : file ∈ files) {data : Snapshot} :
    Counted (analyze order analysed expectedRanks communicatorId) p.rank.toNat file data ↔
      readFile file = .ok data ∧ data.header.rank = p.rank.toNat := by
  constructor
  · rintro ⟨hread, hrank, -⟩
    exact ⟨hread, hrank⟩
  · -- All copies are of one process, so the pid is that of the report.
    rintro ⟨hread, hrank⟩
    refine ⟨hread, hrank, d, rank?_of_mem nodup_reports hreport, ?_⟩
    obtain ⟨selected, before, hselected, rfl⟩ := mem_reports hreport
    obtain ⟨file₀, hfile₀, hread₀, hrank₀⟩ := exists_of_selectRanks hselected
    rw [hcopies.pid hfile hread hrank]
    exact (hcopies.pid ((hsame file₀).mp hfile₀) hread₀ hrank₀).symm

/-- So it reads the events of all of them, in whatever order they are named. -/
theorem inFiles_iff (hfiles' : ∀ file, file ∈ files' ↔ file ∈ files) {e : Event} :
    InFiles (analyze order analysed expectedRanks communicatorId) p.rank.toNat files' e ↔
      OfRank p.rank.toNat files e := by
  constructor
  · rintro ⟨file, hfile, data, ⟨hread, hrank, -⟩, he⟩
    exact ⟨file, (hfiles' file).mp hfile, data, hread, hrank, he⟩
  · rintro ⟨file, hfile, data, hread, hrank, he⟩
    have hcounted := (counted_iff hcopies hsame hreport hfile).mpr ⟨hread, hrank⟩
    exact ⟨file, (hfiles' file).mpr hfile, data, hcounted, he⟩

/-- Every list with these files has an entry for the rank. -/
theorem exists_merged (hfiles' : ∀ file, file ∈ files' ↔ file ∈ files) :
    ∃ merged, (fullEvents (analyze order analysed expectedRanks communicatorId) files').get?
        p.rank.toNat = some merged ∧ merged.Pairwise (·.seq < ·.seq) ∧
      ∀ e, e ∈ merged ↔ OfRank p.rank.toNat files e := by
  have hin : ∀ e, InFiles (analyze order analysed expectedRanks communicatorId) p.rank.toNat
      files' e ↔ OfRank p.rank.toNat files e :=
    fun e => inFiles_iff hcopies hsame hreport hfiles'
  have hentry := get?_fullEvents fun a b ha hb hseq =>
    hcopies.event_eq ((hin a).mp ha) ((hin b).mp hb) hseq
  cases hget : (fullEvents (analyze order analysed expectedRanks communicatorId) files').get?
      p.rank.toNat with
  | some merged =>
      rw [hget] at hentry
      exact ⟨merged, rfl, hentry.1, fun e => (hentry.2 e).trans (hin e)⟩
  | none =>
      -- The file that the report is about would have been read.
      rw [hget] at hentry
      obtain ⟨selected, before, hselected, -⟩ := mem_reports hreport
      obtain ⟨file₀, hfile₀, hread₀, hrank₀⟩ := exists_of_selectRanks hselected
      have hfile := (hsame file₀).mp hfile₀
      exact absurd ⟨selected, (counted_iff hcopies hsame hreport hfile).mpr ⟨hread₀, hrank₀⟩⟩
        (hentry file₀ ((hfiles' file₀).mpr hfile))

end

/-- **The merged events.** Let the readable files of a rank be untorn copies of one
ring that has been called fewer than `2 ^ 64` times. Then one list holds exactly
the events of these files, each once, in the order of their numbers, and it is what
`trace.json` and `events.txt` show for the rank, for every order of the files and any
repetitions. -/
theorem merged_union (p : Process) (order : SetOrder String) (analysed files : List File)
    (expectedRanks : Option (Finset Int)) (communicatorId : Option Int)
    (hsame : ∀ file, file ∈ analysed ↔ file ∈ files)
    (hcopies : ∀ file ∈ files, ∀ data, readFile file = .ok data →
      data.header.rank = p.rank.toNat → ∃ c : p.Copy, c.file = file ∧ c.claimed < 2 ^ 64)
    (d : RankReport)
    (hreport : (p.rank.toNat, d) ∈ (analyze order analysed expectedRanks communicatorId).ranks) :
    ∃ merged : List Event, merged.Pairwise (·.seq < ·.seq) ∧
      (∀ e, e ∈ merged ↔ ∃ file ∈ files, ∃ data, readFile file = .ok data ∧
        data.header.rank = p.rank.toNat ∧ e ∈ data.events) ∧
      ∀ files', (∀ file, file ∈ files' ↔ file ∈ files) →
        (traceEvents (analyze order analysed expectedRanks communicatorId) files').filter
            (fun t => t.pid = p.rank.toNat) = merged.map (traceEvent p.rank.toNat) ∧
        ∃ s, (eventSections (analyze order analysed expectedRanks communicatorId) files').filter
            (fun s => s.rank = p.rank.toNat) = [s] ∧
          s.rows = merged.map (eventRow ((merged.head?.map Event.timestampNs).getD 0)) := by
  obtain ⟨merged, -, hsorted, hmem⟩ := exists_merged hcopies hsame hreport fun file => Iff.rfl
  refine ⟨merged, hsorted, hmem, fun files' hfiles' => ?_⟩
  -- Another order of the files gives the same events, and both lists are sorted.
  obtain ⟨merged', hget, hsorted', hmem'⟩ := exists_merged hcopies hsame hreport hfiles'
  obtain rfl : merged' = merged :=
    eq_of_sorted hsorted' hsorted fun e => (hmem' e).trans (hmem e).symm
  have hevents : eventsOf (fullEvents (analyze order analysed expectedRanks communicatorId)
      files') (p.rank.toNat, d) = merged' := by rw [eventsOf, hget, Option.getD_some]
  refine ⟨?_, _, filter_eventSections nodup_reports hreport files', ?_⟩
  · rw [filter_traceEvents nodup_reports hreport, hevents]
  · simp only [eventSection, hevents]

/-! ### Calls that do not overlap -/

/-- A ring can be copied after any calls that do not overlap. -/
theorem exists_copy (p : Process) (path : String) (calls : List Call)
    (hargs : ∀ k c, calls[k]? = some c → p.args k = c) :
    ∃ c : p.Copy, c.claimed = calls.length ∧
      c.snapshot.events = (Ring.events (p.start.origin p.env.getpid) calls).drop
        (calls.length - Ring.retained p.capacity.toNat calls.length) := by
  obtain ⟨ops, s, hrun, hmem, hlen⟩ := exists_run_recordAll p.start p.env.getpid p.fresh calls hargs
  obtain ⟨ops', t, hcopy, hdone, hshared, hbytes⟩ := exists_copyRun hrun
  have hread : ∀ path, readEvents path (Ring.fileBytes t.buf p.capacity.toNat)
      = .ok (Ring.snapshot s.mem path) := by
    intro path
    have hformatted : Ring.Formatted s.mem p.capacity.toNat := by
      rw [hmem]
      exact Ring.formatted_recordAll _ p.fresh calls
    rw [hbytes]
    exact Ring.readEvents_fileBytes hformatted path
  have hevents : ∀ path, (Ring.snapshot s.mem path).events
      = (Ring.events (p.start.origin p.env.getpid) calls).drop
        (calls.length - Ring.retained p.capacity.toNat calls.length) := by
    intro path
    rw [hmem]
    exact Ring.events_recordAll p.fresh calls path
  -- No call was under way, so no slot of the copy is torn.
  have huntorn : TornFree p.start p.env.getpid p.capacity.toNat p.args t := by
    intro path
    refine ⟨_, hread path, fun e he => ?_⟩
    rw [hevents, Ring.mem_events] at he
    obtain ⟨k, c, -, hc, rfl⟩ := he
    refine ⟨k, ?_, by rw [hargs k c hc]⟩
    rw [hshared, hlen]
    exact (List.getElem?_eq_some_iff.mp hc).1
  have hclaimed : t.shared.calls.length = calls.length := by rw [hshared, hlen]
  refine ⟨⟨path, ops', t, hcopy, hdone, huntorn⟩, hclaimed, ?_⟩
  have hformatted := formatted_copy hcopy p.fresh hdone
  have hsnapshot := Except.ok.inj
    ((Ring.readEvents_fileBytes hformatted path).symm.trans (hread path))
  rw [Process.Copy.snapshot, hsnapshot, hevents]

/-- A process of rank 0 whose ring has 16 slots. -/
def rankZero (args : Nat → Call) : Process where
  rank := 0
  device := 0
  capacity := 16
  env := ⟨none, none, none, 100, 5, 7⟩
  args := args
  two_le := by decide

/-- A copy that is made after calls that do not overlap. -/
theorem exists_copy_rankZero (args : Nat → Call) (path : String) (calls : List Call)
    (hargs : ∀ k c, calls[k]? = some c → args k = c) :
    ∃ c : (rankZero args).Copy, c.claimed = calls.length ∧
      c.snapshot.events = (Ring.events ⟨100, 0, 0⟩ calls).drop
        (calls.length - Ring.retained 16 calls.length) := by
  obtain ⟨c, hclaimed, hevents⟩ := exists_copy (rankZero args) path calls hargs
  have horigin : (rankZero args).start.origin (rankZero args).env.getpid = ⟨100, 0, 0⟩ := by
    simp only [Ring.origin, Process.start, read_initRing]
    rfl
  have hcap : (rankZero args).capacity.toNat = 16 := rfl
  rw [horigin, hcap] at hevents
  exact ⟨c, hclaimed, hevents⟩

/-- A rank with a copy among the files is reported. -/
theorem exists_report_of_copy {p : Process} (c : p.Copy) {files : List File}
    (h : c.file ∈ files) :
    ∃ d, (p.rank.toNat, d) ∈ (analyze (.insertion String) files none none).ranks := by
  obtain ⟨best, hbest, -⟩ := (selectRanks_greatest files p.rank.toNat).1 c.snapshot
    ⟨⟨c.file, h, c.readFile_file⟩, c.rank_snapshot⟩
  obtain ⟨before, hreport⟩ := exists_report hbest
  exact ⟨_, hreport⟩

/-- Two copies of one ring, the second after one more call, merge into the union. -/
theorem merged_union_two :
    ∃ (p : Process) (c₀ c₁ : p.Copy) (merged : List Event),
      c₀.snapshot.events.length = 1 ∧ c₁.snapshot.events.length = 2 ∧
      (∀ e, e ∈ merged ↔ e ∈ c₀.snapshot.events ∨ e ∈ c₁.snapshot.events) ∧
      (traceEvents (analyze (.insertion String) [c₀.file, c₁.file] none none)
          [c₁.file, c₀.file, c₁.file]).filter (fun t => t.pid = p.rank.toNat)
        = merged.map (traceEvent p.rank.toNat) := by
  let args : Nat → Call := fun k => ([otherCall, beginCall][k]?).getD otherCall
  obtain ⟨c₀, hclaimed₀, hevents₀⟩ := exists_copy_rankZero args "stalled/r0.flight" [otherCall]
    fun k c hk => by
      cases k with
      | zero => exact Option.some.inj hk
      | succ k => cases hk
  obtain ⟨c₁, hclaimed₁, hevents₁⟩ := exists_copy_rankZero args "exit/r0.flight"
    [otherCall, beginCall] fun k c hk => by simp [args, hk]
  have hmember : ∀ file, file ∈ [c₁.file, c₀.file, c₁.file] ↔ file = c₀.file ∨ file = c₁.file := by
    intro file
    simp only [List.mem_cons, List.not_mem_nil, or_false]
    constructor
    · rintro (h | h | h)
      · exact Or.inr h
      · exact Or.inl h
      · exact Or.inr h
    · rintro (h | h)
      · exact Or.inr (Or.inl h)
      · exact Or.inl h
  have hsame : ∀ file, file ∈ [c₀.file, c₁.file] ↔ file ∈ [c₁.file, c₀.file, c₁.file] :=
    fun file => List.mem_pair.trans (hmember file).symm
  have hcopies : ∀ file ∈ [c₁.file, c₀.file, c₁.file], ∀ data, readFile file = .ok data →
      data.header.rank = (rankZero args).rank.toNat →
      ∃ c : (rankZero args).Copy, c.file = file ∧ c.claimed < 2 ^ 64 := by
    intro file hfile _ _ _
    rcases (hmember file).mp hfile with rfl | rfl
    · exact ⟨c₀, rfl, by rw [hclaimed₀]; decide⟩
    · exact ⟨c₁, rfl, by rw [hclaimed₁]; decide⟩
  have hfirst : c₀.file ∈ [c₀.file, c₁.file] := List.mem_cons_self
  obtain ⟨d, hreport⟩ := exists_report_of_copy c₀ hfirst
  obtain ⟨merged, -, hmem, hwritten⟩ := merged_union (rankZero args) (.insertion String)
    [c₀.file, c₁.file] [c₁.file, c₀.file, c₁.file] none none hsame hcopies d hreport
  refine ⟨rankZero args, c₀, c₁, merged, ?_, ?_, fun e => ?_, (hwritten _ fun file => Iff.rfl).1⟩
  · rw [hevents₀]
    decide
  · rw [hevents₁]
    decide
  · rw [hmem]
    constructor
    · rintro ⟨file, hfile, data, hread, -, he⟩
      rcases (hmember file).mp hfile with rfl | rfl
      · obtain rfl := Except.ok.inj (c₀.readFile_file.symm.trans hread)
        exact Or.inl he
      · obtain rfl := Except.ok.inj (c₁.readFile_file.symm.trans hread)
        exact Or.inr he
    · rintro (he | he)
      · exact ⟨c₀.file, (hmember _).mpr (Or.inl rfl), c₀.snapshot, c₀.readFile_file,
        c₀.rank_snapshot, he⟩
      · exact ⟨c₁.file, (hmember _).mpr (Or.inr rfl), c₁.snapshot, c₁.readFile_file,
        c₁.rank_snapshot, he⟩

/-- Two copies of a ring whose counter has wrapped between them: the first shows a
begin with number one, the second another event with this number. -/
theorem exists_wrapped_copies {tail : List Call} (hlen : tail.length = 2 ^ 64)
    (hother : ∀ c ∈ tail, c = otherCall) :
    ∃ (p : Process) (c₀ c₁ : p.Copy), p.rank = 0 ∧
      c₀.snapshot.events = [beginCall.event ⟨100, 0, 0⟩ 1] ∧
      ∃ last, c₁.snapshot.events = [last] ∧ last.seq = 1 ∧ last.type = .modelBegin := by
  let args : Nat → Call := fun k => ((beginCall :: tail)[k]?).getD otherCall
  have hargs : ∀ k c, (beginCall :: tail)[k]? = some c → args k = c :=
    fun k c hk => by simp only [args, hk, Option.getD_some]
  obtain ⟨c₀, -, hevents₀⟩ := exists_copy_rankZero args "stalled/r0.flight" [beginCall]
    fun k c hk => by
      cases k with
      | zero => exact Option.some.inj hk
      | succ k => cases hk
  obtain ⟨c₁, -, hevents₁⟩ := exists_copy_rankZero args "exit/r0.flight" (beginCall :: tail) hargs
  have hmod : (beginCall :: tail).length % 2 ^ 64 = 1 := by
    rw [List.length_cons, hlen, Nat.add_mod_left]
    rfl
  have hretained : Ring.retained 16 (beginCall :: tail).length = 1 := by
    rw [Ring.retained, hmod]
    rfl
  rw [hretained] at hevents₁
  have hone : c₁.snapshot.events.length = 1 := by
    rw [hevents₁, Ring.events, List.length_drop, List.length_mapIdx, List.length_cons]
    omega
  obtain ⟨last, hlast⟩ := List.length_eq_one_iff.mp hone
  refine ⟨rankZero args, c₀, c₁, rfl, by rw [hevents₀]; decide, last, hlast, ?_⟩
  have hmem : last ∈ c₁.snapshot.events := hlast ▸ List.mem_singleton_self last
  rw [hevents₁, Ring.mem_events] at hmem
  obtain ⟨k, c, hle, hk, rfl⟩ := hmem
  -- The only call left is the last one.
  have hkey : k = 2 ^ 64 := by
    have hlt := (List.getElem?_eq_some_iff.mp hk).1
    rw [List.length_cons, hlen] at hlt hle
    omega
  have htail : c ∈ tail := by
    rw [hkey, show (2 : Nat) ^ 64 = (2 ^ 64 - 1) + 1 from rfl, List.getElem?_cons_succ] at hk
    exact List.mem_of_getElem? hk
  rw [hother c htail, hkey]
  exact ⟨rfl, rfl⟩

/-- After `2 ^ 64` more calls the number one comes again: of two copies merged, the
event of the first is not written. -/
theorem wrapped_merge_loses :
    ∃ (p : Process) (c₀ c₁ : p.Copy) (d : RankReport) (e : Event),
      (p.rank.toNat, d) ∈
        (analyze (.insertion String) [c₀.file, c₁.file] none none).ranks ∧
      e ∈ c₀.snapshot.events ∧
      traceEvent p.rank.toNat e ∉ traceEvents
        (analyze (.insertion String) [c₀.file, c₁.file] none none) [c₀.file, c₁.file] := by
  obtain ⟨p, c₀, c₁, hrank, hevents₀, last, hevents₁, hseq, htype⟩ := exists_wrapped_copies
    (List.length_replicate (n := 2 ^ 64) (a := otherCall)) fun c hc => List.eq_of_mem_replicate hc
  have hfirst : c₀.file ∈ [c₀.file, c₁.file] := List.mem_cons_self
  obtain ⟨d, hreport⟩ := exists_report_of_copy c₀ hfirst
  refine ⟨p, c₀, c₁, d, beginCall.event ⟨100, 0, 0⟩ 1, hreport, ?_, fun hwritten => ?_⟩
  · rw [hevents₀]
    exact List.mem_singleton_self _
  have hcounted : Counted (analyze (.insertion String) [c₀.file, c₁.file] none none)
      p.rank.toNat c₁.file c₁.snapshot := by
    refine ⟨c₁.readFile_file, c₁.rank_snapshot, d, rank?_of_mem nodup_reports hreport, ?_⟩
    obtain ⟨selected, before, hselected, rfl⟩ := mem_reports hreport
    obtain ⟨file, hfile, hread, -⟩ := exists_of_selectRanks hselected
    rw [c₁.pid_snapshot]
    show _ = selected.header.pid
    rcases List.mem_pair.mp hfile with rfl | rfl
    · rw [← Except.ok.inj (c₀.readFile_file.symm.trans hread), c₀.pid_snapshot]
    · rw [← Except.ok.inj (c₁.readFile_file.symm.trans hread), c₁.pid_snapshot]
  have hfull := get?_mergeFile_of_counted hcounted
    (fullEvents (analyze (.insertion String) [c₀.file, c₁.file] none none) [c₀.file])
  rw [← fullEvents_concat, List.singleton_append, hevents₁] at hfull
  have hfilter : traceEvent p.rank.toNat (beginCall.event ⟨100, 0, 0⟩ 1) ∈ (traceEvents
      (analyze (.insertion String) [c₀.file, c₁.file] none none) [c₀.file, c₁.file]).filter
        fun t => t.pid = p.rank.toNat := List.mem_filter.mpr ⟨hwritten, decide_eq_true rfl⟩
  rw [filter_traceEvents nodup_reports hreport, List.mem_map] at hfilter
  obtain ⟨e, he, htrace⟩ := hfilter
  rw [eventsOf, hfull, Option.getD_some] at he
  have hone : e.seq = last.seq := (congrArg TraceEvent.seq htrace).trans hseq.symm
  rw [eq_of_mem_mergeEvents he hone] at htrace
  have hname : last.type.name = (beginCall.event ⟨100, 0, 0⟩ 1).type.name :=
    congrArg TraceEvent.name htrace
  rw [htype] at hname
  exact absurd hname (by decide)

end HangAnalyzer.Analyzer
