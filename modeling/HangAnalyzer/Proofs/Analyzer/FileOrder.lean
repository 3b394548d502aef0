import Mathlib.Data.List.Forall2
import HangAnalyzer.Proofs.Analyzer.Collectives

/-!
# `HangAnalyzer.Proofs.Analyzer.FileOrder`: the order of the files

`analyze` keeps one file for each rank, the first of those with the largest
`write_seq` (`selectRanks_greatest`). The files that remain are then read in the
order of their ranks, so a report depends on the selected snapshots only
(`scanRanks_congr`).

Two files of a rank with the same largest `write_seq` tie, and the order of the files
decides (`tie_kept_first`). `analyze_perm` says that nothing else does: if tied files
have the same process and the same events, every order of the files gives the
same sections.
-/

set_option autoImplicit false

namespace HangAnalyzer.Analyzer

open HangAnalyzer.Lib
open HangAnalyzer.Recorder

/-! ### The selected files -/

/-- A readable file of a rank is in the list. -/
def HasSnapshot (files : List File) (rank : Nat) (data : Snapshot) : Prop :=
  (∃ file ∈ files, readFile file = .ok data) ∧ data.header.rank = rank

/-- What one more file can do, with the tests of the loop. -/
theorem get?_selectFile {acc : Dict Nat Snapshot × List String} {file : File} {data : Snapshot}
    (hread : readFile file = .ok data) (rank : Nat) :
    (selectFile acc file).1.get? rank =
      if rank = data.header.rank ∧
          ∀ old, acc.1.get? rank = some old → old.header.writeSeq < data.header.writeSeq then
        some data
      else acc.1.get? rank := by
  simp only [selectFile, hread]
  -- The file is for this rank and newer than what was kept, or nothing changes.
  by_cases hrank : rank = data.header.rank
  · subst hrank
    cases hget : acc.1.get? data.header.rank with
    | none => simp [Dict.get?_set]
    | some old =>
        by_cases hlt : old.header.writeSeq < data.header.writeSeq
        · simp [hlt, Dict.get?_set]
        · simp [hlt, hget]
  · cases hget : acc.1.get? data.header.rank with
    | none => simp [Dict.get?_set, hrank]
    | some old =>
        by_cases hlt : old.header.writeSeq < data.header.writeSeq
        · simp [hlt, Dict.get?_set, hrank]
        · simp [hlt, hrank]

/-- A file that cannot be read selects nothing. -/
theorem selectFile_error {acc : Dict Nat Snapshot × List String} {file : File} {text : String}
    (hread : readFile file = .error text) : (selectFile acc file).1 = acc.1 := by
  simp only [selectFile, hread]

/-- One more file can add its own snapshot. -/
theorem hasSnapshot_concat {files : List File} {file : File} {rank : Nat} {data : Snapshot} :
    HasSnapshot (files ++ [file]) rank data ↔ HasSnapshot files rank data ∨
      (readFile file = .ok data ∧ data.header.rank = rank) := by
  simp only [HasSnapshot, List.mem_append, List.mem_singleton]
  constructor
  · rintro ⟨⟨f, hf | rfl, hread⟩, hrank⟩
    · exact Or.inl ⟨⟨f, hf, hread⟩, hrank⟩
    · exact Or.inr ⟨hread, hrank⟩
  · rintro (⟨⟨f, hf, hread⟩, hrank⟩ | ⟨hread, hrank⟩)
    · exact ⟨⟨f, Or.inl hf, hread⟩, hrank⟩
    · exact ⟨⟨file, Or.inr rfl, hread⟩, hrank⟩

/-- **The selection.** A rank with a readable file is selected, and its snapshot has
the largest `write_seq` of the rank's files. -/
theorem selectRanks_greatest (files : List File) (rank : Nat) :
    (∀ data, HasSnapshot files rank data → ∃ best, (selectRanks files).1.get? rank = some best ∧
      data.header.writeSeq ≤ best.header.writeSeq) ∧
    ∀ best, (selectRanks files).1.get? rank = some best → HasSnapshot files rank best := by
  induction files using List.reverseRecOn with
  | nil =>
      constructor
      · rintro data ⟨⟨file, hfile, -⟩, -⟩
        cases hfile
      · intro best h
        cases h
  | append_singleton files file ih =>
      obtain ⟨hcovers, hfrom⟩ := ih
      rw [selectRanks_concat]
      simp only [hasSnapshot_concat]
      -- The last file counts if it can be read, and takes the place of a worse one of its rank.
      cases hread : readFile file with
      | error text =>
          rw [selectFile_error hread]
          constructor
          · rintro data (hold | ⟨hnew, -⟩)
            · exact hcovers data hold
            · cases hnew
          · exact fun best hbest => Or.inl (hfrom best hbest)
      | ok new =>
          rw [get?_selectFile hread]
          split
          · rename_i hreplace
            obtain ⟨rfl, hless⟩ := hreplace
            constructor
            · rintro data (hold | ⟨hnew, -⟩)
              · obtain ⟨best, hbest, hle⟩ := hcovers data hold
                exact ⟨new, rfl, Nat.le_of_lt (Nat.lt_of_le_of_lt hle (hless best hbest))⟩
              · exact ⟨new, rfl, Nat.le_of_eq (by rw [Except.ok.inj hnew])⟩
            · intro best hbest
              exact Or.inr ⟨by rw [Option.some.inj hbest], by rw [Option.some.inj hbest]⟩
          · rename_i hkeep
            constructor
            · rintro data (hold | ⟨hnew, hrank⟩)
              · exact hcovers data hold
              · -- The new file of the rank is not better than the old one.
                obtain rfl := Except.ok.inj hnew
                by_contra hnone
                refine hkeep ⟨hrank.symm, fun old hold => ?_⟩
                exact Nat.lt_of_not_le fun hle => hnone ⟨old, hold, hle⟩
            · exact fun best hbest => Or.inl (hfrom best hbest)

/-! ### What a report depends on -/

/-- What the sections of a report read of a snapshot. -/
def evidence (data : Snapshot) : Nat × Nat × List Event :=
  (data.header.pid, data.header.writeSeq, data.events)

/-- The ranks with what a report reads of them, in the order of the loop. -/
def sortedEvidence (ranks : Dict Nat Snapshot) : List (Nat × Nat × Nat × List Event) :=
  (sortedItems ranks).map fun item => (item.1, evidence item.2)

/-- The report depends on the evidence only. -/
theorem rankReport_congr {data data' : Snapshot} (h : evidence data = evidence data')
    (scan : Scan) : rankReport data scan = rankReport data' scan := by
  obtain ⟨hpid, hrest⟩ := Prod.mk.inj h
  obtain ⟨hseq, hevents⟩ := Prod.mk.inj hrest
  rw [rankReport, rankReport, hpid, hseq, hevents]

/-- One rank of the loop reads the evidence only. -/
theorem scanNext_congr {item item' : Nat × Snapshot} (hrank : item.1 = item'.1)
    (h : evidence item.2 = evidence item'.2) (acc : Scan × List (Nat × RankReport)) :
    scanNext acc item = scanNext acc item' := by
  have hevents : item.2.events = item'.2.events := congrArg (fun e => e.2.2) h
  rw [scanNext, scanNext, hrank, hevents, rankReport_congr h]

section
variable {ranks ranks' : Dict Nat Snapshot}

/-- The loop over the ranks reads the evidence only. -/
theorem scanRanks_congr (h : sortedEvidence ranks = sortedEvidence ranks') :
    scanRanks ranks = scanRanks ranks' := by
  -- The two scans see the same evidence, rank by rank.
  have hpairs : List.Forall₂ (fun item item' : Nat × Snapshot =>
      (item.1, evidence item.2) = (item'.1, evidence item'.2))
      (sortedItems ranks) (sortedItems ranks') := by
    have heq : List.Forall₂ (· = ·) (sortedEvidence ranks) (sortedEvidence ranks') := by
      rw [List.forall₂_eq_eq_eq]
      exact h
    rw [sortedEvidence, sortedEvidence, List.forall₂_map_left_iff,
      List.forall₂_map_right_iff] at heq
    exact heq
  have hall : ∀ {items items' : List (Nat × Snapshot)}, List.Forall₂
      (fun item item' => (item.1, evidence item.2) = (item'.1, evidence item'.2)) items items' →
      ∀ acc, items.foldl scanNext acc = items'.foldl scanNext acc := by
    intro items items' hitems
    induction hitems with
    | nil => exact fun acc => rfl
    | cons hpair _ ih =>
        intro acc
        obtain ⟨hrank, hevidence⟩ := Prod.mk.inj hpair
        rw [List.foldl_cons, List.foldl_cons, scanNext_congr hrank hevidence, ih]
  exact hall hpairs _

/-- A list of numbers is sorted in one way. -/
theorem mergeSort_eq_of_perm {l l' : List Nat} (h : l.Perm l') :
    l.mergeSort (· ≤ ·) = l'.mergeSort (· ≤ ·) := by
  have hsorted : ∀ l : List Nat, (l.mergeSort (· ≤ ·)).Pairwise (· ≤ ·) := by
    intro l
    have hpairwise := @List.pairwise_mergeSort _ (fun a b : Nat => decide (a ≤ b))
      (by simpa using fun _ _ _ => Nat.le_trans) (by simpa using Nat.le_total) l
    simpa using hpairwise
  refine List.Perm.eq_of_pairwise (fun a b _ _ hab hba => Nat.le_antisymm hab hba) (hsorted l)
    (hsorted l') ?_
  exact (List.mergeSort_perm l _).trans (h.trans (List.mergeSort_perm l' _).symm)

/-- The entry of a group reads the evidence only. -/
theorem collective_congr (h : sortedEvidence ranks = sortedEvidence ranks')
    (expectedRanks : Option (Finset Int)) :
    collective ranks expectedRanks = collective ranks' expectedRanks := by
  refine funext fun group => ?_
  obtain ⟨⟨comm, op⟩, members⟩ := group
  -- The order of the dictionary does not matter, for the list is sorted in the end.
  have hends : ∀ ranks : Dict Nat Snapshot,
      ((ranks.items.filter fun item => endsIn comm op item.2.events).map Prod.fst).Perm
        (((sortedEvidence ranks).filter fun item => endsIn comm op item.2.2.2).map Prod.fst) := by
    intro ranks
    rw [sortedEvidence, List.filter_map, List.map_map]
    exact ((sortedItems_perm ranks).symm.filter _).map _
  have hperm := (hends ranks).trans (h ▸ (hends ranks').symm)
  simp only [collective, mergeSort_eq_of_perm hperm]

/-- Dictionaries with the same evidence of each rank have it in the same order. -/
theorem sortedEvidence_eq (h : ∀ rank seen, (∃ data, ranks.get? rank = some data ∧
      evidence data = seen) ↔ ∃ data, ranks'.get? rank = some data ∧ evidence data = seen) :
    sortedEvidence ranks = sortedEvidence ranks' := by
  -- There is one entry for each rank, in the order of the ranks.
  have hkeys : ∀ ranks : Dict Nat Snapshot,
      (sortedEvidence ranks).Pairwise fun a b => a.1 < b.1 := by
    intro ranks
    have hle := @List.pairwise_mergeSort _ (fun a b : Nat × Snapshot => decide (a.1 ≤ b.1))
      (by simpa using fun _ _ _ _ _ _ => Nat.le_trans)
      (by simpa using fun _ _ _ _ => Nat.le_total _ _) ranks.items
    have hne : (sortedItems ranks).Pairwise fun a b => a.1 ≠ b.1 :=
      List.pairwise_map.mp (((sortedItems_perm ranks).map Prod.fst).nodup_iff.mpr ranks.nodup)
    refine List.pairwise_map.mpr ((hle.and hne).imp fun hab => ?_)
    exact Nat.lt_of_le_of_ne (of_decide_eq_true hab.1) hab.2
  have hmem : ∀ (ranks : Dict Nat Snapshot) (rank : Nat) (seen : Nat × Nat × List Event),
      (rank, seen) ∈ sortedEvidence ranks ↔
        ∃ data, ranks.get? rank = some data ∧ evidence data = seen := by
    intro ranks rank seen
    simp only [sortedEvidence, List.mem_map, Prod.mk.injEq, (sortedItems_perm ranks).mem_iff]
    constructor
    · rintro ⟨⟨r, data⟩, hitem, rfl, hseen⟩
      exact ⟨data, Dict.mem_items.mp hitem, hseen⟩
    · rintro ⟨data, hdata, hseen⟩
      exact ⟨(rank, data), Dict.mem_items.mpr hdata, rfl, hseen⟩
  have hnodup : ∀ ranks, (sortedEvidence ranks).Nodup :=
    fun ranks => (hkeys ranks).imp (S := (· ≠ ·)) fun hab heq => by
      rw [heq] at hab
      exact Nat.lt_irrefl _ hab
  -- Two sorted lists with the same elements are equal.
  refine List.Perm.eq_of_pairwise (fun a b _ _ hab hba => absurd hab (Nat.lt_asymm hba))
    (hkeys ranks) (hkeys ranks') ((List.perm_ext_iff_of_nodup (hnodup _) (hnodup _)).mpr ?_)
  rintro ⟨rank, seen⟩
  rw [hmem, hmem, h]

end

/-! ### Tied files -/

/-- Two files of a rank tie if no file of the rank has a larger `write_seq` than
they have. Tied files agree if they are of one process with the same events. -/
def TiesAgree (files : List File) : Prop :=
  ∀ rank data data', HasSnapshot files rank data → HasSnapshot files rank data' →
    (∀ other, HasSnapshot files rank other → other.header.writeSeq ≤ data.header.writeSeq ∧
      other.header.writeSeq ≤ data'.header.writeSeq) →
    data.header.pid = data'.header.pid ∧ data.events = data'.events

/-- If tied files agree, what is selected does not depend on the order. -/
theorem exists_selected {files files' : List File} (hties : TiesAgree files)
    (hsame : ∀ rank data, HasSnapshot files rank data ↔ HasSnapshot files' rank data)
    {rank : Nat} {data : Snapshot} (h : (selectRanks files).1.get? rank = some data) :
    ∃ data', (selectRanks files').1.get? rank = some data' ∧ evidence data' = evidence data := by
  obtain ⟨hcovers, hfrom⟩ := selectRanks_greatest files rank
  obtain ⟨hcovers', hfrom'⟩ := selectRanks_greatest files' rank
  have hdata := hfrom data h
  obtain ⟨data', hdata', hle⟩ := hcovers' data ((hsame rank data).mp hdata)
  have hother := (hsame rank data').mpr (hfrom' data' hdata')
  -- The selected file is the newest, and so is that of the other order.
  have hbest : ∀ other, HasSnapshot files rank other →
      other.header.writeSeq ≤ data.header.writeSeq := by
    intro other hmem
    obtain ⟨best, hbest, hle'⟩ := hcovers other hmem
    obtain rfl := Option.some.inj (h.symm.trans hbest)
    exact hle'
  have hseq : data'.header.writeSeq = data.header.writeSeq :=
    Nat.le_antisymm (hbest data' hother) hle
  -- They tie, so their evidence agrees.
  obtain ⟨hpid, hevents⟩ := hties rank data data' hdata hother fun other hmem =>
    ⟨hbest other hmem, Nat.le_trans (hbest other hmem) hle⟩
  exact ⟨data', hdata', by rw [evidence, evidence, hpid, hseq, hevents]⟩

/-- **The order of the files.** If the tied files of each rank agree, every order of
the files gives the same ranks, collectives and dependencies. -/
theorem analyze_perm (order : SetOrder String) (files files' : List File)
    (expectedRanks : Option (Finset Int)) (communicatorId : Option Int)
    (hperm : files.Perm files') (hties : TiesAgree files) :
    (analyze order files' expectedRanks communicatorId).ranks
        = (analyze order files expectedRanks communicatorId).ranks ∧
      (analyze order files' expectedRanks communicatorId).collectives
        = (analyze order files expectedRanks communicatorId).collectives ∧
      (analyze order files' expectedRanks communicatorId).dependencies
        = (analyze order files expectedRanks communicatorId).dependencies := by
  have hsame : ∀ rank data, HasSnapshot files rank data ↔ HasSnapshot files' rank data :=
    fun rank data => by simp only [HasSnapshot, hperm.mem_iff]
  have hties' : TiesAgree files' := by
    intro rank data data' hdata hdata' hbest
    exact hties rank data data' ((hsame _ _).mpr hdata) ((hsame _ _).mpr hdata')
      fun other hother => hbest other ((hsame _ _).mp hother)
  have hevidence :
      sortedEvidence (selectRanks files').1 = sortedEvidence (selectRanks files).1 := by
    refine sortedEvidence_eq fun rank seen => ?_
    constructor
    · rintro ⟨data, hdata, hseen⟩
      obtain ⟨data', hdata', heq⟩ :=
        exists_selected hties' (fun rank data => (hsame rank data).symm) hdata
      exact ⟨data', hdata', heq.trans hseen⟩
    · rintro ⟨data, hdata, hseen⟩
      obtain ⟨data', hdata', heq⟩ := exists_selected hties hsame hdata
      exact ⟨data', hdata', heq.trans hseen⟩
  have hscan := scanRanks_congr hevidence
  obtain ⟨hcollectives, hranks⟩ := analyze_fields order files expectedRanks communicatorId
  obtain ⟨hcollectives', hranks'⟩ := analyze_fields order files' expectedRanks communicatorId
  refine ⟨?_, ?_, ?_⟩
  · rw [hranks, hranks', hscan]
  · rw [hcollectives, hcollectives', hscan, collectives, collectives, collective_congr hevidence]
  · rw [dependencies_analyze, dependencies_analyze, hscan]

/-- A snapshot among copied files is that of one of the recorders. -/
theorem exists_run_of_hasSnapshot {runs : List RankRun} {rank : Nat} {data : Snapshot}
    (h : HasSnapshot (runs.map RankRun.file) rank data) : ∃ run ∈ runs, data = run.snapshot := by
  obtain ⟨⟨file, hfile, hread⟩, -⟩ := h
  obtain ⟨run, hrun, rfl⟩ := List.mem_map.mp hfile
  rw [run.readFile_file] at hread
  exact ⟨run, hrun, (Except.ok.inj hread).symm⟩

/-- Every run has its snapshot among the files. -/
theorem hasSnapshot_of_run {runs : List RankRun} {run : RankRun} (h : run ∈ runs) :
    HasSnapshot (runs.map RankRun.file) run.rank.toNat run.snapshot :=
  ⟨⟨run.file, List.mem_map_of_mem h, run.readFile_file⟩, run.rank_snapshot⟩

/-- Two snapshots of rank 0, one call apart, can be given in either order. -/
theorem analyze_perm_later :
    ∃ run₀ run₁ : RankRun, run₀.rank = 0 ∧ run₁.rank = 0 ∧
      run₀.snapshot.events ≠ run₁.snapshot.events ∧
      (analyze (.insertion String) ([run₁, run₀].map RankRun.file) none none).ranks
        = (analyze (.insertion String) ([run₀, run₁].map RankRun.file) none none).ranks := by
  obtain ⟨run₀, hrank₀, hlen₀, -, hevents₀⟩ := exists_rankRun "r0.flight" 0 0 16
    ⟨none, none, none, 100, 5, 7⟩ (by decide) [otherCall]
  obtain ⟨run₁, hrank₁, hlen₁, -, hevents₁⟩ := exists_rankRun "r0.flight" 0 0 16
    ⟨none, none, none, 100, 5, 7⟩ (by decide) [otherCall, beginCall]
  have hseq₀ : run₀.snapshot.header.writeSeq = 1 := by rw [run₀.writeSeq_snapshot, hlen₀]; rfl
  have hseq₁ : run₁.snapshot.header.writeSeq = 2 := by rw [run₁.writeSeq_snapshot, hlen₁]; rfl
  have hties : TiesAgree ([run₀, run₁].map RankRun.file) := by
    -- Only the later snapshot has the largest counter.
    have hlater : ∀ {rank data}, HasSnapshot ([run₀, run₁].map RankRun.file) rank data →
        (∀ other, HasSnapshot ([run₀, run₁].map RankRun.file) rank other →
          other.header.writeSeq ≤ data.header.writeSeq) → data = run₁.snapshot := by
      intro rank data hdata hbest
      obtain ⟨run, hrun, rfl⟩ := exists_run_of_hasSnapshot hdata
      rcases List.mem_pair.mp hrun with rfl | rfl
      · have hrank : rank = run₁.rank.toNat := by
          rw [← hdata.2, run.rank_snapshot, hrank₀, hrank₁]
        have hle := hbest run₁.snapshot (hrank ▸ hasSnapshot_of_run (by simp))
        omega
      · rfl
    intro rank data data' hdata hdata' hbest
    obtain rfl := hlater hdata fun other hother => (hbest other hother).1
    obtain rfl := hlater hdata' fun other hother => (hbest other hother).2
    exact ⟨rfl, rfl⟩
  refine ⟨run₀, run₁, hrank₀, hrank₁, ?_, ?_⟩
  · rw [hevents₀, hevents₁]
    decide
  · exact (analyze_perm (.insertion String) _ _ none none (List.Perm.swap _ _ []) hties).1

/-- Of two tied files of rank 0 the first is selected. -/
theorem get?_selectRanks_tie {run₀ run₁ : RankRun} (h₀ : run₀.rank = 0)
    (htie : run₀.snapshot.header.writeSeq = run₁.snapshot.header.writeSeq) :
    (selectRanks ([run₀, run₁].map RankRun.file)).1.get? 0 = some run₀.snapshot := by
  show (selectRanks ([run₀.file] ++ [run₁.file])).1.get? 0 = _
  have hfirst := get?_selectRanks_single h₀ 0
  rw [if_pos rfl] at hfirst
  rw [selectRanks_concat, get?_selectFile run₁.readFile_file, if_neg, hfirst]
  rintro ⟨-, hless⟩
  have hlt := hless run₀.snapshot hfirst
  omega

/-- Two processes of rank 0 have made one call each. The report shows the one whose
file comes first. -/
theorem tie_kept_first :
    ∃ run₀ run₁ : RankRun,
      (analyze (.insertion String) ([run₁, run₀].map RankRun.file) none none).ranks
        ≠ (analyze (.insertion String) ([run₀, run₁].map RankRun.file) none none).ranks := by
  obtain ⟨run₀, hrank₀, hlen₀, -, hevents₀⟩ := exists_rankRun "a/r0.flight" 0 0 16
    ⟨none, none, none, 100, 5, 7⟩ (by decide) [otherCall]
  obtain ⟨run₁, hrank₁, hlen₁, -, hevents₁⟩ := exists_rankRun "b/r0.flight" 0 0 16
    ⟨none, none, none, 200, 5, 7⟩ (by decide) [beginCall]
  have htie : run₀.snapshot.header.writeSeq = run₁.snapshot.header.writeSeq := by
    rw [run₀.writeSeq_snapshot, run₁.writeSeq_snapshot, hlen₀, hlen₁]
    rfl
  refine ⟨run₀, run₁, fun heq => ?_⟩
  have hget := get?_selectRanks_tie hrank₀ htie
  have hget' := get?_selectRanks_tie hrank₁ htie.symm
  obtain ⟨before, hreport⟩ := exists_report hget
  rw [← heq] at hreport
  obtain ⟨data, before', hdata, hreports⟩ := mem_reports hreport
  obtain rfl := Option.some.inj (hget'.symm.trans hdata)
  -- The last events of the two sections differ.
  have hlast : run₀.snapshot.events.getLast? = run₁.snapshot.events.getLast? :=
    congrArg RankReport.lastEvent hreports
  rw [hevents₀, hevents₁] at hlast
  exact absurd hlast (by decide)

end HangAnalyzer.Analyzer
