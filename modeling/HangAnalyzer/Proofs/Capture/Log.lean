import HangAnalyzer.Capture.Log
import HangAnalyzer.Proofs.Capture.Accounting

/-!
# `HangAnalyzer.Proofs.Capture.Log`: the output file holds the first items accepted

`log_of_run` is about the output file in every state of the threads. Its rows are the
first items that the queue has accepted, in order, and they are read back exactly when no
string of the profiler in them ends a line. If the end of the file is lost, the rows that
are complete are still read back, and a row that was cut in two is never read as another
row: reading fails.
-/

set_option autoImplicit false

namespace HangAnalyzer.Capture

open HangAnalyzer.Lib
open HangAnalyzer.Lib.Json (Has Row jsonLines loadLines dumps isAscii not_mem_of_isAscii
  has_dict_iff_of_keys whole_dumps_iff loadLines_jsonLines_iff loadLines_cut)

/-! ### The rows -/

/-- The keys of every record. -/
def commonKeys : List (List Char) :=
  ["kind".toList, "device_id".toList, "stream_id".toList, "correlation_id".toList, "name".toList,
    "start_ns".toList, "end_ns".toList, "timestamp_valid".toList, "duration_ns".toList]

/-- The keys that depend on the kind. -/
def Detail.keys : Detail → List (List Char)
  | .kernel _              => ["kernel_type".toList]
  | .communication _ _ _ _ =>
      ["comm_name".toList, "alg_type".toList, "count".toList, "data_type".toList]

/-- The keys of an item. -/
def Item.keys : Item ActivityData → List (List Char)
  | .activity data    => commonKeys ++ data.detail.keys
  | .captureState _ _ => ["kind".toList, "host_time_ns".toList, "enabled".toList]
  | .flushTick _ _ _ _ =>
      ["kind".toList, "host_time_ns".toList, "enabled".toList, "flush_ok".toList, "dropped".toList]

/-- The items of the dictionary. -/
def Item.items (item : Item ActivityData) : List (List Char × Json) :=
  match item.json with
  | .dict items => items
  | _           => []

/-- A row is an object. -/
theorem Item.json_eq (item : Item ActivityData) : item.json = .dict item.items := by
  cases item <;> rfl

/-- The keys of the object are those of the record. -/
theorem Item.map_fst_items (item : Item ActivityData) : item.items.map Prod.fst = item.keys := by
  cases item with
  | activity data =>
      obtain ⟨_, _, _, _, _, _, detail⟩ := data
      cases detail <;> rfl
  | captureState _ _ => rfl
  | flushTick _ _ _ _ => rfl

/-- The keys of an item are ASCII texts, and no key occurs twice. -/
theorem Item.keys_sound (item : Item ActivityData) :
    item.keys.Nodup ∧ ∀ key ∈ item.keys, isAscii key = true := by
  -- The keys of a row are all known, whatever its values are.
  cases item with
  | activity data =>
      obtain ⟨_, _, _, _, _, _, detail⟩ := data
      cases detail with
      | kernel _ =>
          show (commonKeys ++ ["kernel_type".toList]).Nodup ∧
            ∀ key ∈ commonKeys ++ ["kernel_type".toList], isAscii key = true
          decide
      | communication _ _ _ _ =>
          show (commonKeys ++ ["comm_name".toList, "alg_type".toList, "count".toList,
              "data_type".toList]).Nodup ∧
            ∀ key ∈ commonKeys ++ ["comm_name".toList, "alg_type".toList, "count".toList,
              "data_type".toList], isAscii key = true
          decide
  | captureState _ _ =>
      show ["kind".toList, "host_time_ns".toList, "enabled".toList].Nodup ∧
        ∀ key ∈ ["kind".toList, "host_time_ns".toList, "enabled".toList], isAscii key = true
      decide
  | flushTick _ _ _ _ =>
      show ["kind".toList, "host_time_ns".toList, "enabled".toList, "flush_ok".toList,
          "dropped".toList].Nodup ∧
        ∀ key ∈ ["kind".toList, "host_time_ns".toList, "enabled".toList, "flush_ok".toList,
          "dropped".toList], isAscii key = true
      decide

/-- The values of an item are numbers, strings and truth values. -/
theorem Item.scalar_of_mem_items {item : Item ActivityData} {entry : List Char × Json}
    (h : entry ∈ item.items) : Json.scalar entry.2 = true := by
  revert entry
  cases item with
  | activity data =>
      -- The duration is null when the times are not valid.
      have hduration : ∀ b : Bool, ∀ n : Int,
          Json.scalar (if b then .int n else .null) = true := fun b n => by cases b <;> rfl
      obtain ⟨_, _, _, _, _, _, detail⟩ := data
      have hdetail : ∀ entry ∈ detail.items, Json.scalar entry.2 = true := by
        cases detail <;> simp [Detail.items, Json.scalar]
      intro entry hentry
      refine (List.mem_append.mp hentry).elim (fun hcommon => ?_) (hdetail entry)
      clear hentry
      revert entry
      simp only [List.forall_mem_cons, hduration]
      simp [Json.scalar]
  | captureState _ _ => simp [items, json, Json.scalar]
  | flushTick _ _ flushOk _ => cases flushOk <;> simp [items, json, Json.scalar, optionalBool]

/-- A row is a dictionary that is read back as it is. -/
theorem Item.row (item : Item ActivityData) : Row item.json := by
  rw [item.json_eq]
  refine .of_scalars ?_ fun entry hentry => Item.scalar_of_mem_items hentry
  rw [item.map_fst_items]
  exact item.keys_sound.1

/-- The characters outside of ASCII are those of the strings of the profiler. -/
theorem Item.has_json_iff (item : Item ActivityData) {c : Char} (hc : 0x7E < c.toNat) :
    Has c item.json ↔ ∃ s ∈ item.strings, c ∈ s := by
  -- The constant strings are ASCII, so only the strings of the profiler are left.
  have hkind : ∀ detail : Detail, c ∉ detail.kind.toList := by
    intro detail
    cases detail with
    | kernel _ =>
        show c ∉ "kernel".toList
        exact not_mem_of_isAscii (by decide) hc
    | communication _ _ _ _ =>
        show c ∉ "communication".toList
        exact not_mem_of_isAscii (by decide) hc
  have hkeys : ∀ key ∈ item.items.map Prod.fst, isAscii key = true := by
    rw [item.map_fst_items]
    exact item.keys_sound.2
  -- The keys are ASCII too.
  rw [item.json_eq, has_dict_iff_of_keys hc hkeys]
  cases item with
  | activity data =>
      have hduration : ∀ b : Bool, ∀ n : Int, ¬ Has c (if b then .int n else .null) := fun b n => by
        cases b
        · exact Json.not_has_null c
        · exact Json.not_has_int c n
      have hone := hkind data.detail
      obtain ⟨_, _, _, _, _, _, detail⟩ := data
      cases detail <;>
        simp only [items, json, record, Detail.items, strings, List.cons_append, List.nil_append,
          List.exists_mem_cons_iff, Json.has_str_iff, Json.not_has_int, Json.not_has_bool,
          hduration, hone, false_or, or_false, List.not_mem_nil, false_and, exists_false]
  | captureState _ _ =>
      have hone : c ∉ "capture_state".toList := not_mem_of_isAscii (by decide) hc
      simp only [items, json, strings, List.exists_mem_cons_iff, Json.has_str_iff, hone,
        Json.not_has_int, Json.not_has_bool, or_false, List.not_mem_nil, false_and, exists_false]
  | flushTick _ _ flushOk _ =>
      have hone : c ∉ "flush_tick".toList := not_mem_of_isAscii (by decide) hc
      -- `flush_ok` is null as long as nothing was flushed.
      have hflush : ¬ Has c (optionalBool flushOk) := by
        cases flushOk with
        | none => exact Json.not_has_null c
        | some b => exact Json.not_has_bool c b
      simp only [items, json, strings, List.exists_mem_cons_iff, Json.has_str_iff, hone, hflush,
        Json.not_has_int, Json.not_has_bool, or_false, List.not_mem_nil, false_and, exists_false]

/-- The line ends that need no escape. -/
theorem isLineEnd_iff {c : Char} (hc : 0x7E < c.toNat) :
    isLineEnd c = false ↔ c ≠ '\u0085' ∧ c ≠ '\u2028' ∧ c ≠ '\u2029' := by
  simp only [isLineEnd, ne_eq, ← Char.toNat_inj, Bool.or_eq_false_iff, Bool.and_eq_false_iff,
    decide_eq_false_iff_not, beq_eq_false_iff_ne]
  show _ ↔ ¬ c.toNat = 0x85 ∧ ¬ c.toNat = 0x2028 ∧ ¬ c.toNat = 0x2029
  omega

/-- An item is one line exactly when no string of the profiler breaks it. -/
theorem Item.whole_iff (item : Item ActivityData) :
    Whole (dumps (.compact false) item.json) ↔ item.Unbroken := by
  rw [whole_dumps_iff item.row.plain]
  constructor
  · -- Only a character outside of ASCII can break a line, and those are in the strings.
    intro hwhole s hs c hcs
    by_cases hc : 0x7E < c.toNat
    · exact (isLineEnd_iff hc).mp (hwhole rfl c ((item.has_json_iff hc).mpr ⟨s, hs, hcs⟩) hc)
    · have hne : ∀ d : Char, 0x7E < d.toNat → c ≠ d := fun d hd heq => hc (heq ▸ hd)
      exact ⟨hne _ (by decide), hne _ (by decide), hne _ (by decide)⟩
  · intro hunbroken _ c hhas hc
    obtain ⟨s, hs, hcs⟩ := (item.has_json_iff hc).mp hhas
    exact (isLineEnd_iff hc).mpr (hunbroken s hs c hcs)

/-! ### The file -/

/-- The rows of the file are the first items accepted. -/
theorem State.lines_of_accepted {s : State ActivityData} (h : s.Inv) : s.lines <+: s.accepted := by
  rw [h.stored, List.append_assoc]
  exact List.prefix_append _ _

/-- **The output file in every state of a run** that starts with a new file. Its rows are
the first items that the queue has accepted, and they are read back exactly when no string of
the profiler breaks a line. What is left of the file when its end is lost, from some character
on, is read as the first rows, or, if a row was cut in two, not at all. -/
theorem log_of_run {codec : Codec} {path : String} {n : Nat} {as : List (Action ActivityData)}
    {s : State ActivityData} (h : Run (State.step codec path) (State.start n) as s) :
    s.lines <+: s.accepted ∧
      (loadLines s.text = some (s.lines.map Item.json) ↔ ∀ item ∈ s.lines, item.Unbroken) ∧
      ((∀ item ∈ s.lines, item.Unbroken) → ∀ part, part <+: s.text → ∃ k,
        loadLines part = some ((s.accepted.take k).map Item.json) ∧
            (part = jsonLines false ((s.accepted.take k).map Item.json) ∨
              part ++ ['\n'] = jsonLines false ((s.accepted.take k).map Item.json)) ∨
          loadLines part = none ∧ ∃ item torn missing, s.accepted[k]? = some item ∧
            dumps (.compact false) item.json = torn ++ missing ∧ torn ≠ [] ∧ missing ≠ [] ∧
              part = jsonLines false ((s.accepted.take k).map Item.json) ++ torn) := by
  have hfirst := State.lines_of_accepted (State.inv_run h)
  have hrows : ∀ v ∈ s.lines.map Item.json, Row v := List.forall_mem_map.mpr fun item _ => item.row
  refine ⟨hfirst, ?_, fun hunbroken part hpart => ?_⟩
  · -- A file that is whole is read back exactly when every row is one line.
    rw [State.text, loadLines_jsonLines_iff hrows, List.forall_mem_map]
    exact forall₂_congr fun item _ => item.whole_iff
  · -- The first rows of the file are the first items accepted.
    have htake : ∀ k ≤ s.lines.length, (s.lines.map Item.json).take k
        = (s.accepted.take k).map Item.json := by
      intro k hk
      obtain ⟨later, hlater⟩ := hfirst
      rw [← List.map_take, ← hlater, List.take_append_of_le_length hk]
    have hwhole : ∀ v ∈ s.lines.map Item.json, Whole (dumps (.compact false) v) :=
      List.forall_mem_map.mpr fun item hitem => item.whole_iff.mpr (hunbroken item hitem)
    obtain ⟨k, hread | ⟨hnone, v, torn, missing, hv, hcut⟩⟩ := loadLines_cut hrows hwhole hpart
    · -- The cut is between two rows, or it leaves only the line end out.
      refine ⟨min k s.lines.length, .inl ?_⟩
      rw [← htake _ (Nat.min_le_right _ _)]
      have hmin : (s.lines.map Item.json).take (min k s.lines.length)
          = (s.lines.map Item.json).take k := by
        rw [← @List.length_map _ _ s.lines Item.json]
        exact List.take_eq_take_min.symm
      rw [hmin]
      exact hread
    · -- A row was cut in two.
      rw [List.getElem?_map, Option.map_eq_some_iff] at hv
      obtain ⟨item, hitem, rfl⟩ := hv
      have hk := (List.getElem?_eq_some_iff.mp hitem).1
      refine ⟨k, .inr ⟨hnone, item, torn, missing, ?_, ?_⟩⟩
      · obtain ⟨later, hlater⟩ := hfirst
        rw [← hlater, List.getElem?_append_left hk, hitem]
      · rw [← htake k (Nat.le_of_lt hk)]
        exact hcut

/-- The row of a kernel is written and read back. -/
theorem log_of_delivery :
    let round : Round := ⟨none, .success, .success, .success, .success, .success⟩
    let flush : Action ActivityData := .flush round 1
    let data : ActivityData := ⟨100, 250, 0, 1, 7, "MatMul".toList, .kernel "AI_CORE".toList⟩
    let as := [flush, flush, flush, .deliver .kernel (.ok data), .delivery 0, .writer, .writer,
      .writer]
    ∃ s, Run (State.step (fun _ => .ok []) "/home/enable_prof") (State.start 4) as s ∧
      s.lines = [.activity data] ∧ loadLines s.text = some (s.lines.map Item.json) := by
  intro round flush data as
  have hrun : ∃ s, Run (State.step (fun _ => .ok []) "/home/enable_prof") (State.start 4) as s ∧
      s.lines = [.activity data] := ⟨_, rfl, rfl⟩
  obtain ⟨s, hrun, hlines⟩ := hrun
  refine ⟨s, hrun, hlines, (log_of_run hrun).2.1.mpr ?_⟩
  rw [hlines]
  decide

end HangAnalyzer.Capture
