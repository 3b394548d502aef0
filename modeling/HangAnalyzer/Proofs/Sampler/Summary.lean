import Mathlib.Data.List.TakeWhile
import HangAnalyzer.Sampler.Capture

/-!
# `HangAnalyzer.Proofs.Sampler.Summary`: a summary is about the samples that were written

`summary_of_capture` is about the file of `capture` and about every beginning of it, as a
capture that is killed leaves it. `summarize` describes the samples of the complete rows,
or it fails, for one of two reasons: a row was cut in two, or the mean of a device is no
float any more. `int` takes 4300 digits, and a float ends at 309 of them, so `npu-smi` can
print a usage that the capture writes and the summary cannot divide.
-/

set_option autoImplicit false

namespace HangAnalyzer.Sampler

open HangAnalyzer.Lib
open HangAnalyzer.Lib.Json (Row loadLines dumps whole_dumps_iff loadLines_jsonLines_iff
  loadLines_cut mapM_eq_some exists_of_mapM_eq_some)

/-- The usage of a valid sample. -/
def Sample.usage? (s : Sample) : Option Nat :=
  match s.outcome with
  | .values aicpu _ _ _ => some aicpu
  | .error _            => none

/-- The error of a sample. -/
def Sample.error? (s : Sample) : Option (List Char) :=
  match s.outcome with
  | .values _ _ _ _ => none
  | .error text     => some text

/-- The samples of a device. -/
def history (device : Int) (samples : List Sample) : List Sample :=
  samples.filter fun s => s.device == device

/-- The valid ones among them. -/
def validSamples (samples : List Sample) : List Sample := samples.filter fun s => s.usage?.isSome

/-- What a line says is true of the samples of its device. -/
def Verdict.Describes (samples : List Sample) : Verdict → Prop
  | .noValid lastError => validSamples samples = [] ∧
      ∃ s, samples.getLast? = some s ∧ s.error? = lastError
  | .valid total peak last count lastWallNs =>
      total = ((samples.filterMap Sample.usage?).map Int.ofNat).sum ∧
        count = (samples.filterMap Sample.usage?).length ∧
        (∃ n ∈ samples.filterMap Sample.usage?, peak = n) ∧
        (∀ n ∈ samples.filterMap Sample.usage?, (n : Int) ≤ peak) ∧
        ∃ s, (validSamples samples).getLast? = some s ∧ s.usage?.map Int.ofNat = some last ∧
          (s.endedWallNs : Int) = lastWallNs

/-- The summary has a line for each device, in order, and each of them is true. -/
structure Summary.Describes (summary : Summary) (written : List Sample) : Prop where
  samples : summary.samples = written.length
  ascending : (summary.lines.map DeviceLine.device).Pairwise (· < ·)
  devices : ∀ d, d ∈ summary.lines.map DeviceLine.device ↔ ∃ s ∈ written, s.device = d
  lines : ∀ line ∈ summary.lines, line.samples = (history line.device written).length ∧
    line.verdict.Describes (history line.device written)

/-- The usages of the valid samples have no mean that a float can hold. -/
def Overflows (samples : List Sample) : Prop :=
  samples.filterMap Sample.usage? ≠ [] ∧
    FLOAT_OVERFLOW * (samples.filterMap Sample.usage?).length
      ≤ (samples.filterMap Sample.usage?).sum

/-- `summarize` fails if and only if the mean of a device overflows. Otherwise it describes
the samples. -/
structure Summarized (samples : List Sample) (text : List Char) : Prop where
  fails : summarize text = none ↔ ∃ device, Overflows (history device samples)
  describes : ∀ summary, summarize text = some summary → summary.Describes samples

/-! ### The rows -/

/-- An optional item has its own key. -/
theorem keys_optionalItem (key : List Char) (n : Option Nat) :
    ((optionalItem key n).map Prod.fst).Sublist [key] := by
  cases n with
  | none => exact List.nil_sublist _
  | some n => exact List.Sublist.refl _

/-- An optional item is a number. -/
theorem scalar_optionalItem {key : List Char} {n : Option Nat} {item : List Char × Json}
    (h : item ∈ optionalItem key n) : Json.scalar item.2 = true := by
  cases n with
  | none => cases h
  | some n =>
      obtain rfl := List.mem_singleton.mp h
      rfl

/-- The dictionary of a sample has distinct keys, and nothing is nested in it. -/
theorem Sample.row (s : Sample) : Row s.json := by
  obtain ⟨device, started, ended, outcome⟩ := s
  cases outcome with
  | values aicpu aicore aivector ctrlcpu =>
      refine .of_scalars ?_ fun item hitem => ?_
      · -- The optional fields are left out or stand in this order, so no key is there twice.
        have hkeys := ((keys_optionalItem "aicore_pct".toList aicore).append
          ((keys_optionalItem "aivector_pct".toList aivector).append
            (keys_optionalItem "ctrlcpu_pct".toList ctrlcpu)))
        rw [← List.map_append, ← List.map_append] at hkeys
        refine List.Nodup.sublist ((((hkeys.cons_cons "aicpu_pct".toList).cons_cons
          "ended_wall_ns".toList).cons_cons "started_wall_ns".toList).cons_cons "device".toList) ?_
        decide
      · simp only [Outcome.items, List.mem_cons, List.mem_append] at hitem
        rcases hitem with rfl | rfl | rfl | rfl | h | h | h
        · rfl
        · rfl
        · rfl
        · rfl
        all_goals exact scalar_optionalItem h
  | error text =>
      refine .of_scalars ?_ fun item hitem => ?_
      · show ["device".toList, "started_wall_ns".toList, "ended_wall_ns".toList,
          "error".toList].Nodup
        decide
      · simp only [Outcome.items, List.mem_cons, List.not_mem_nil, or_false] at hitem
        rcases hitem with rfl | rfl | rfl | rfl <;> rfl

/-- A row gives back the device of its sample. -/
theorem number_device (s : Sample) : number "device".toList s.json = some s.device := rfl

/-- A row gives back the clock value of its sample. -/
theorem number_ended (s : Sample) :
    number "ended_wall_ns".toList s.json = some (s.endedWallNs : Int) := rfl

/-- A row gives back the usage of its sample, if it is valid. -/
theorem number_usage (s : Sample) :
    number "aicpu_pct".toList s.json = s.usage?.map Int.ofNat := by
  obtain ⟨_, _, _, outcome⟩ := s
  cases outcome <;> rfl

/-- A row has a usage if and only if its sample is valid. -/
@[simp] theorem hasUsage_json (s : Sample) : hasUsage s.json = s.usage?.isSome := by
  obtain ⟨_, _, _, outcome⟩ := s
  cases outcome <;> rfl

/-- A row gives back the error of its sample. -/
@[simp] theorem errorText_json (s : Sample) : errorText s.json = s.error? := by
  obtain ⟨_, _, _, outcome⟩ := s
  cases outcome with
  | values _ aicore aivector ctrlcpu => cases aicore <;> cases aivector <;> cases ctrlcpu <;> rfl
  | error _ => rfl

/-- The rows are ASCII, so that each of them is one line. -/
theorem whole_json (s : Sample) : Whole (dumps (.compact true) s.json) :=
  (whole_dumps_iff s.row.plain true).mpr fun h => by cases h

/-! ### Reading the rows -/

/-- A line that begins with no white space is not blank. -/
theorem strip_cons_ne {c : Char} (hc : isSpace c = false) (t : List Char) :
    (strip (c :: t)).isEmpty = false := by
  have hmem : c ∈ ((c :: t).dropWhile isSpace).reverse := by
    rw [List.dropWhile_cons_of_neg (by simp [hc])]
    simp
  have hne : ((c :: t).dropWhile isSpace).reverse.dropWhile isSpace ≠ [] := fun hnil => by
    have hspace : isSpace c = true := by
      simpa using List.dropWhile_eq_nil_iff.mp hnil c hmem
    rw [hc] at hspace
    cases hspace
  simpa [strip] using hne

/-- No line of a part of the file is blank. -/
theorem opens_of_mem_splitLines {samples : List Sample} {part : List Char}
    (hpart : part <+: captureText samples) {line : List Char} (h : line ∈ splitLines part) :
    ∃ t, line = '{' :: t := by
  -- No row has a line end, so the lines of the file are the rows.
  have hwhole : ∀ line ∈ (samples.map Sample.json).map (dumps (.compact true)), Whole line := by
    simp only [List.forall_mem_map]
    exact fun s _ => whole_json s
  have hopens : ∀ line ∈ (samples.map Sample.json).map (dumps (.compact true)),
      ∃ t, line = '{' :: t := by
    simp only [List.forall_mem_map]
    exact fun s _ => ⟨_, rfl⟩
  obtain ⟨k, ⟨-, hlines⟩ | ⟨line', torn, missing, hline', hsplit, hne, -, hlines⟩⟩ :=
    splitLines_cut hwhole hpart
  · rw [hlines] at h
    exact hopens line (List.mem_of_mem_take h)
  · rw [hlines, List.mem_append, List.mem_singleton] at h
    rcases h with h | rfl
    · exact hopens line (List.mem_of_mem_take h)
    · -- The cut row starts like the whole one.
      obtain ⟨t, ht⟩ := hopens line' (List.mem_of_getElem? hline')
      cases line with
      | nil => exact absurd rfl hne
      | cons c t' =>
          rw [ht, List.cons_append, List.cons.injEq] at hsplit
          exact ⟨t', by rw [hsplit.1]⟩

/-- No line of a part of the file is left out. -/
theorem readRows_eq {samples : List Sample} {part : List Char}
    (hpart : part <+: captureText samples) : readRows part = loadLines part := by
  have hfilter : (splitLines part).filter (fun line => !(strip line).isEmpty) = splitLines part :=
    List.filter_eq_self.mpr fun line hline => by
      obtain ⟨t, rfl⟩ := opens_of_mem_splitLines hpart hline
      rw [strip_cons_ne (by decide)]
      rfl
  rw [readRows, hfilter, loadLines]

/-! ### The line of a device -/

/-- The valid rows are those of the valid samples. -/
theorem filter_hasUsage (samples : List Sample) :
    (samples.map Sample.json).filter hasUsage = (validSamples samples).map Sample.json := by
  have hcomp : hasUsage ∘ Sample.json = fun s => s.usage?.isSome := funext hasUsage_json
  rw [List.filter_map, hcomp, validSamples]

/-- Every valid row gives its usage. -/
theorem mapM_usage (samples : List Sample) :
    ((validSamples samples).map Sample.json).mapM (number "aicpu_pct".toList)
      = some ((samples.filterMap Sample.usage?).map Int.ofNat) := by
  induction samples with
  | nil => rfl
  | cons s samples ih =>
      rw [validSamples] at ih ⊢
      cases husage : s.usage? with
      | none =>
          rw [List.filter_cons_of_neg (by simp [husage]), List.filterMap_cons_none husage, ih]
      | some n =>
          rw [List.filter_cons_of_pos (by simp [husage]), List.filterMap_cons_some husage,
            List.map_cons, List.mapM_cons, number_usage, husage, ih]
          rfl

/-- The sum of the usages, as `deviceLine` forms it. -/
theorem sum_usages (samples : List Sample) :
    ((samples.filterMap Sample.usage?).map Int.ofNat).sum
      = ((samples.filterMap Sample.usage?).sum : Nat) := by
  induction samples.filterMap Sample.usage? with
  | nil => rfl
  | cons n l ih =>
      rw [List.map_cons, List.sum_cons, List.sum_cons, ih]
      exact (Int.natCast_add n l.sum).symm

/-- Without a valid sample the line gives the last error. -/
theorem deviceLine_noValid (device : Int) {samples : List Sample} {s : Sample}
    (hs : samples.getLast? = some s) (hnil : validSamples samples = []) :
    deviceLine device (samples.map Sample.json)
      = some ⟨device, samples.length, .noValid s.error?⟩ := by
  simp [deviceLine, filter_hasUsage, hnil, hs]

/-- With a valid sample everything but the mean is there. -/
theorem deviceLine_valid (device : Int) {samples : List Sample} {s : Sample}
    (hlast : (validSamples samples).getLast? = some s) :
    ∃ peak last, (∃ n ∈ samples.filterMap Sample.usage?, peak = (n : Int)) ∧
      (∀ n ∈ samples.filterMap Sample.usage?, (n : Int) ≤ peak) ∧
      s.usage?.map Int.ofNat = some last ∧
      deviceLine device (samples.map Sample.json)
        = (mean ((samples.filterMap Sample.usage?).map Int.ofNat).sum
            (samples.filterMap Sample.usage?).length).map fun quotient =>
          ⟨device, samples.length, .valid quotient.1 peak last quotient.2 s.endedWallNs⟩ := by
  have hmem := List.mem_filter.mp (List.mem_of_getLast? hlast)
  obtain ⟨n, hn⟩ := Option.isSome_iff_exists.mp hmem.2
  have husage : n ∈ samples.filterMap Sample.usage? := List.mem_filterMap.mpr ⟨s, hmem.1, hn⟩
  -- There is a usage, so there is a largest one.
  obtain ⟨peak, hpeak⟩ : ∃ peak, ((samples.filterMap Sample.usage?).map Int.ofNat).max?
      = some peak := by
    cases hpeak : ((samples.filterMap Sample.usage?).map Int.ofNat).max? with
    | none =>
        rw [List.max?_eq_none_iff, List.map_eq_nil_iff] at hpeak
        rw [hpeak] at husage
        cases husage
    | some peak => exact ⟨peak, rfl⟩
  obtain ⟨hin, hle⟩ := List.max?_eq_some_iff.mp hpeak
  refine ⟨peak, n, ?_, fun m hm => hle m (List.mem_map_of_mem hm), by rw [hn]; rfl, ?_⟩
  · obtain ⟨m, hm, heq⟩ := List.mem_map.mp hin
    exact ⟨m, hm, heq.symm⟩
  · simp only [deviceLine, filter_hasUsage, List.getLast?_map, hlast, mapM_usage, hpeak,
      number_usage, number_ended, hn, List.length_map, Option.map_some, Option.bind_eq_bind,
      Option.bind_some]
    cases mean ((samples.filterMap Sample.usage?).map Int.ofNat).sum
      (samples.filterMap Sample.usage?).length <;> rfl

/-- The line of a device describes its samples, unless their mean overflows. -/
theorem deviceLine_json (device : Int) {samples : List Sample} (hne : samples ≠ [])
    (hmean : ¬ Overflows samples) :
    ∃ line, deviceLine device (samples.map Sample.json) = some line ∧ line.device = device ∧
      line.samples = samples.length ∧ line.verdict.Describes samples := by
  cases hlast : (validSamples samples).getLast? with
  -- No sample of the device is valid.
  | none =>
      have hnil := List.getLast?_eq_none_iff.mp hlast
      have hs := List.getLast?_eq_some_getLast hne
      exact ⟨_, deviceLine_noValid device hs hnil, rfl, rfl, hnil, _, hs, rfl⟩
  | some s =>
      -- The mean is that of usages that are small enough for a float.
      obtain ⟨peak, last, hpeak, hle, hs, hline⟩ := deviceLine_valid device hlast
      have hnonempty : samples.filterMap Sample.usage? ≠ [] := fun hnil => by
        obtain ⟨n, hn, -⟩ := hpeak
        rw [hnil] at hn
        cases hn
      have hfloat : ¬ FLOAT_OVERFLOW * (samples.filterMap Sample.usage?).length
          ≤ ((samples.filterMap Sample.usage?).map Int.ofNat).sum.natAbs := fun hoverflow => by
        rw [sum_usages, Int.natAbs_natCast] at hoverflow
        exact hmean ⟨hnonempty, hoverflow⟩
      rw [mean, if_neg hfloat] at hline
      exact ⟨_, hline, rfl, rfl, rfl, rfl, hpeak, hle, s, hlast, hs, rfl⟩

/-- A device whose mean overflows has no line. -/
theorem deviceLine_overflows (device : Int) {samples : List Sample} (h : Overflows samples) :
    deviceLine device (samples.map Sample.json) = none := by
  obtain ⟨hne, hle⟩ := h
  cases hlast : (validSamples samples).getLast? with
  | none =>
      have hnil := List.getLast?_eq_none_iff.mp hlast
      obtain ⟨n, hn⟩ := List.exists_mem_of_ne_nil _ hne
      obtain ⟨s, hs, hn⟩ := List.mem_filterMap.mp hn
      have hvalid : s ∈ validSamples samples := List.mem_filter.mpr ⟨hs, by rw [hn]; rfl⟩
      rw [hnil] at hvalid
      cases hvalid
  | some s =>
      obtain ⟨peak, last, -, -, -, hline⟩ := deviceLine_valid device hlast
      rw [hline, sum_usages, mean, if_pos (by rw [Int.natAbs_natCast]; exact hle)]
      rfl

/-- A mean can only overflow by a usage that is no float itself. -/
theorem Overflows.exists_le {samples : List Sample} (h : Overflows samples) :
    ∃ s ∈ samples, ∃ n, s.usage? = some n ∧ FLOAT_OVERFLOW ≤ n := by
  obtain ⟨hne, hle⟩ := h
  -- Small usages have a sum that is small in proportion to their number.
  have hsum : ∀ l : List Nat, l ≠ [] → (∀ n ∈ l, n < FLOAT_OVERFLOW) →
      l.sum < FLOAT_OVERFLOW * l.length := by
    intro l
    induction l with
    | nil => exact fun hnil => absurd rfl hnil
    | cons n l ih =>
        intro _ hall
        have hn := hall n List.mem_cons_self
        rw [List.sum_cons, List.length_cons, Nat.mul_succ]
        by_cases hnil : l = []
        · subst hnil
          simpa using hn
        · have hl := ih hnil fun m hm => hall m (List.mem_cons_of_mem n hm)
          omega
  by_contra hnot
  refine absurd (hsum _ hne fun n hn => ?_) (by omega)
  obtain ⟨s, hs, hn⟩ := List.mem_filterMap.mp hn
  exact Nat.lt_of_not_le fun hbig => hnot ⟨s, hs, n, hn, hbig⟩

/-! ### The summary -/

/-- The rows of a device are those of its samples. -/
theorem filter_device (device : Int) (samples : List Sample) :
    (samples.map Sample.json).filter (fun row => number "device".toList row == some device)
      = (history device samples).map Sample.json := by
  rw [List.filter_map, history]
  rfl

/-- Every row gives its device. -/
theorem mapM_device (samples : List Sample) :
    (samples.map Sample.json).mapM (number "device".toList) = some (samples.map Sample.device) := by
  rw [List.mapM_map]
  exact mapM_eq_some fun s _ => number_device s

/-- Sorting loses nothing. -/
theorem mem_sortedSet {l : List Int} {d : Int} : d ∈ sortedSet l ↔ d ∈ l := by
  rw [sortedSet, List.mem_mergeSort, List.mem_dedup]

/-- The devices of a summary are in order, and each is there once. -/
theorem pairwise_sortedSet (l : List Int) : (sortedSet l).Pairwise (· < ·) := by
  have hle : (sortedSet l).Pairwise fun a b => decide (a ≤ b) = true :=
    List.pairwise_mergeSort (fun a b c hab hbc => by simp at *; omega)
      (fun a b => by simp; omega) _
  have hnodup : (sortedSet l).Nodup :=
    (List.mergeSort_perm _ _).nodup_iff.mpr (List.nodup_dedup l)
  exact (hle.and hnodup).imp fun h => Int.lt_iff_le_and_ne.mpr ⟨of_decide_eq_true h.1, h.2⟩

/-- When the rows are those of samples whose means do not overflow, the summary describes
them. -/
theorem summarize_rows {text : List Char} {samples : List Sample}
    (h : readRows text = some (samples.map Sample.json))
    (hmean : ∀ device, ¬ Overflows (history device samples)) :
    ∃ summary, summarize text = some summary ∧ summary.Describes samples := by
  -- The lines are those of the devices that occur.
  have hmem : ∀ d, d ∈ sortedSet (samples.map Sample.device) ↔ ∃ s ∈ samples, s.device = d := by
    intro d
    rw [mem_sortedSet, List.mem_map]
  have hexists : ∀ d, ∃ line, (∃ s ∈ samples, s.device = d) →
      deviceLine d ((history d samples).map Sample.json) = some line ∧ line.device = d ∧
        line.samples = (history d samples).length ∧ line.verdict.Describes (history d samples) := by
    intro d
    by_cases hd : ∃ s ∈ samples, s.device = d
    · -- A device with a sample has a line.
      obtain ⟨s, hs, heq⟩ := hd
      have hne : history d samples ≠ [] :=
        List.ne_nil_of_mem (List.mem_filter.mpr ⟨hs, by simp [heq]⟩)
      obtain ⟨line, hline⟩ := deviceLine_json d hne (hmean d)
      exact ⟨line, fun _ => hline⟩
    · exact ⟨⟨d, 0, .noValid none⟩, fun hmem => absurd hmem hd⟩
  choose line hline using hexists
  have hdevice : ((sortedSet (samples.map Sample.device)).map line).map DeviceLine.device
      = sortedSet (samples.map Sample.device) := by
    rw [List.map_map]
    exact (List.map_congr_left fun d hd => (hline d ((hmem d).mp hd)).2.1).trans (List.map_id _)
  refine ⟨⟨samples.length, (sortedSet (samples.map Sample.device)).map line⟩, ?_,
    ⟨rfl, ?_, ?_, ?_⟩⟩
  · -- Every line is there, so the summary is.
    have hlines := mapM_eq_some fun d hd => (hline d ((hmem d).mp hd)).1
    simp only [summarize, h, mapM_device, filter_device, hlines, Option.bind_eq_bind,
      Option.bind_some, List.length_map]
  · rw [hdevice]
    exact pairwise_sortedSet _
  · rw [hdevice]
    exact hmem
  · simp only [List.forall_mem_map]
    intro d hd
    obtain ⟨-, heq, hcount, hverdict⟩ := hline d ((hmem d).mp hd)
    rw [heq]
    exact ⟨hcount, hverdict⟩

/-- One device whose mean overflows is enough for no summary at all. -/
theorem summarize_overflows {text : List Char} {samples : List Sample} {device : Int}
    (h : readRows text = some (samples.map Sample.json))
    (hmean : Overflows (history device samples)) : summarize text = none := by
  obtain ⟨s, hs, -⟩ := hmean.exists_le
  have hdevice : device ∈ sortedSet (samples.map Sample.device) := by
    rw [mem_sortedSet, List.mem_map]
    exact ⟨s, (List.mem_filter.mp hs).1, by simpa using (List.mem_filter.mp hs).2⟩
  have hlines : (sortedSet (samples.map Sample.device)).mapM (fun device =>
      deviceLine device ((history device samples).map Sample.json)) = none := by
    cases hall : (sortedSet (samples.map Sample.device)).mapM (fun device =>
        deviceLine device ((history device samples).map Sample.json)) with
    | none => rfl
    | some lines =>
        obtain ⟨line, hline⟩ := exists_of_mapM_eq_some hall hdevice
        rw [deviceLine_overflows device hmean] at hline
        cases hline
  simp only [summarize, h, mapM_device, filter_device, hlines, Option.bind_eq_bind,
    Option.bind_some, Option.bind_none]

/-- When the rows are those of samples, only an overflow keeps the summary back. -/
theorem summarized_of_rows {text : List Char} {samples : List Sample}
    (h : readRows text = some (samples.map Sample.json)) : Summarized samples text := by
  by_cases hmean : ∃ device, Overflows (history device samples)
  · obtain ⟨device, hdevice⟩ := hmean
    have hnone := summarize_overflows h hdevice
    refine ⟨iff_of_true hnone ⟨device, hdevice⟩, fun summary hsome => ?_⟩
    rw [hnone] at hsome
    cases hsome
  · obtain ⟨summary, hsummary, hdescribes⟩ := summarize_rows h (not_exists.mp hmean)
    refine ⟨iff_of_false (by simp [hsummary]) hmean, fun summary' hsome => ?_⟩
    obtain rfl := Option.some.inj (hsummary.symm.trans hsome)
    exact hdescribes

/-- What `summarize` makes of a part of the file. -/
inductive Result (samples : List Sample) (part : List Char) : Prop
  | complete (k : Nat) (h : Summarized (samples.take k) part)
      (hpart : part = captureText (samples.take k) ∨ part ++ ['\n'] = captureText (samples.take k))
  | torn (k : Nat) (s : Sample) (first missing : List Char) (h : summarize part = none)
      (hs : samples[k]? = some s) (hcut : dumps (.compact true) s.json = first ++ missing)
      (hfirst : first ≠ []) (hmissing : missing ≠ [])
      (hpart : part = captureText (samples.take k) ++ first)

end HangAnalyzer.Sampler
