import HangAnalyzer.Lib.JsonChars
import HangAnalyzer.Lib.Lines

/-!
# `HangAnalyzer.Lib.JsonLines`: a file with one JSON text a line

`jsonLines` is what a writer has put into a file that started empty, and `loadLines`
reads the lines of a text. The rows are read back exactly when no string of them has a
character that ends a line without being escaped (`loadLines_jsonLines_iff`). When the
end of the file is missing, the rows that are complete are read back, unless a row has
been cut in two: then reading fails (`loadLines_cut`).
-/

set_option autoImplicit false

namespace HangAnalyzer.Lib.Json

/-- The text of the rows, with `separators=(",", ":")`. -/
def jsonLines (ensureAscii : Bool) (rows : List Json) : List Char :=
  unlines (rows.map (dumps (.compact ensureAscii)))

/-- `[json.loads(line) for line in text.splitlines()]`. -/
def loadLines (text : List Char) : Option (List Json) := (splitLines text).mapM loads

/-- A dictionary that is read back as it is. -/
structure Row (v : Json) : Prop where
  plain : Plain v
  dict : ∃ items, v = .dict items

/-- A value without parts, and no number with a fraction. -/
def scalar : Json → Bool
  | .null | .bool _ | .int _ | .str _ => true
  | _ => false

/-- A value without parts is read back as it is. -/
theorem Plain.of_scalar {v : Json} (h : scalar v = true) : Plain v := by
  cases v with
  | null => exact .null
  | bool b => exact .bool b
  | int n => exact .int n
  | str s => exact .str s
  | _ => cases h

/-- A dictionary of such values, without a key that occurs twice. -/
theorem Row.of_scalars {items : List (List Char × Json)} (hnodup : (items.map Prod.fst).Nodup)
    (h : ∀ item ∈ items, scalar item.2 = true) : Row (.dict items) :=
  ⟨.dict hnodup fun item hitem => .of_scalar (h item hitem), ⟨items, rfl⟩⟩

/-- The rows of a file follow each other. -/
theorem jsonLines_append (ensureAscii : Bool) (rows rows' : List Json) :
    jsonLines ensureAscii (rows ++ rows') =
      jsonLines ensureAscii rows ++ jsonLines ensureAscii rows' := by
  rw [jsonLines, List.map_append, unlines_append]
  rfl

/-- The text of a row begins with a bracket. -/
theorem Row.opens {v : Json} (h : Row v) (style : Style) : Opens (dumps style v) := by
  obtain ⟨items, rfl⟩ := h.dict
  exact ⟨'{', by decide, rfl⟩

/-- The text of a row is read back. -/
theorem Row.loads {v : Json} (h : Row v) (style : Style) : loads (dumps style v) = some v := by
  have hnone : ∀ c ∈ ([] : List Char), Scanner.isBlank c = true := fun c hc => by cases hc
  have hround := loads_dumps h.plain style hnone hnone
  rwa [List.nil_append, List.append_nil] at hround

/-- A text has no line end, if no string of the value has one that is not escaped. -/
theorem whole_dumps_iff {v : Json} (h : Plain v) (ensureAscii : Bool) :
    Whole (dumps (.compact ensureAscii) v) ↔
      (ensureAscii = false → ∀ c, Has c v → 0x7E < c.toNat → isLineEnd c = false) := by
  constructor
  · intro hwhole hascii c hc hnat
    exact hwhole c (mem_textAt_of_has hc hascii hnat 0)
  · intro hchar
    refine textAt_all (fun c hc => ?_) (fun hindent => absurd rfl hindent) h hchar 0
    obtain ⟨hlow, hhigh⟩ := hc
    simp only [isLineEnd, Bool.or_eq_false_iff, Bool.and_eq_false_iff, decide_eq_false_iff_not,
      beq_eq_false_iff_ne]
    omega

/-- What a function finds in each item of a list, if it fails for none. -/
theorem mapM_eq_some {α β : Type} {f : α → Option β} {g : α → β} {l : List α}
    (h : ∀ x ∈ l, f x = some (g x)) : l.mapM f = some (l.map g) := by
  induction l with
  | nil => rfl
  | cons x l ih =>
      rw [List.mapM_cons, h x List.mem_cons_self, ih fun y hy => h y (List.mem_cons_of_mem x hy)]
      rfl

/-- Something is found in each item of a list, if the function fails for none. -/
theorem exists_of_mapM_eq_some {α β : Type} {f : α → Option β} {l : List α} {found : List β}
    (h : l.mapM f = some found) {x : α} (hx : x ∈ l) : ∃ y, f x = some y := by
  induction l generalizing found with
  | nil => cases hx
  | cons z l ih =>
      rw [List.mapM_cons] at h
      obtain ⟨y, hy, h⟩ := Option.bind_eq_some_iff.mp h
      obtain ⟨rest, hrest, -⟩ := Option.bind_eq_some_iff.mp h
      rcases List.mem_cons.mp hx with rfl | hx
      · exact ⟨y, hy⟩
      · exact ih hrest hx

/-- The text of each row loads as the row. -/
theorem mapM_loads {rows : List Json} (h : ∀ v ∈ rows, Row v) (style : Style) :
    (rows.map (dumps style)).mapM loads = some rows := by
  rw [List.mapM_map]
  exact (mapM_eq_some fun v hv => (h v hv).loads style).trans (by rw [List.map_id'])

/-- No character of a text is a carriage return. -/
theorem ne_of_mem_dumps {v : Json} (h : Plain v) {ensureAscii : Bool} {c : Char}
    (hc : c ∈ dumps (.compact ensureAscii) v) : c ≠ '\r' := by
  refine textAt_all (P := fun c => c ≠ '\r') (fun c hc => ?_) (fun _ => by decide) h
    (fun _ c _ hnat => ?_) 0 c hc
  · rintro rfl
    exact absurd hc (by decide)
  · rintro rfl
    exact absurd hnat (by decide)

/-- A row that is more than one line is not read. -/
theorem loadLines_eq_none {rows : List Json} (h : ∀ v ∈ rows, Row v) {ensureAscii : Bool} {v : Json}
    (hv : v ∈ rows) (hwhole : ¬ Whole (dumps (.compact ensureAscii) v)) :
    loadLines (jsonLines ensureAscii rows) = none := by
  -- The first row that is broken is cut at a line end of its own. The rows before it are
  -- read.
  induction rows with
  | nil => cases hv
  | cons w rows ih =>
      rw [loadLines, jsonLines, List.map_cons, unlines_cons]
      have hw := h w List.mem_cons_self
      by_cases hfirst : Whole (dumps (.compact ensureAscii) w)
      · have hv' : v ∈ rows := (List.mem_cons.mp hv).resolve_left fun heq => hwhole (heq ▸ hfirst)
        have hnone := ih (fun u hu => h u (List.mem_cons_of_mem w hu)) hv'
        rw [splitLines_append hfirst (by decide) (by decide), List.mapM_cons, hw.loads]
        rw [loadLines, jsonLines] at hnone
        rw [hnone]
        rfl
      · -- The first line is the beginning of the text.
        obtain ⟨first, c, rest, hsplit, hone, hc⟩ := exists_lineEnd hfirst
        have hmem : c ∈ dumps (.compact ensureAscii) w := by
          rw [hsplit]
          exact List.mem_append_right _ List.mem_cons_self
        have hne := ne_of_mem_dumps hw.plain hmem
        have hcut := loads_eq_none_of_cut hw.plain (hw.opens _) hsplit (List.cons_ne_nil c rest)
        rw [hsplit, List.append_assoc, List.cons_append, splitLines_append hone hc hne,
          List.mapM_cons, hcut]
        rfl

/-- The rows are read back exactly when each of them is one line. -/
theorem loadLines_jsonLines_iff {rows : List Json} (h : ∀ v ∈ rows, Row v) (ensureAscii : Bool) :
    loadLines (jsonLines ensureAscii rows) = some rows ↔
      ∀ v ∈ rows, Whole (dumps (.compact ensureAscii) v) := by
  constructor
  · intro hload v hv
    by_contra hwhole
    rw [loadLines_eq_none h hv hwhole] at hload
    cases hload
  · intro hwhole
    rw [loadLines, jsonLines, splitLines_unlines (List.forall_mem_map.mpr hwhole), mapM_loads h]

/-- When the end of the file is missing, the complete rows are read, unless a row has been
cut in two. The line end of the last row may be missing. -/
theorem loadLines_cut {rows : List Json} (h : ∀ v ∈ rows, Row v) {ensureAscii : Bool}
    (hwhole : ∀ v ∈ rows, Whole (dumps (.compact ensureAscii) v)) {part : List Char}
    (hpart : part <+: jsonLines ensureAscii rows) :
    ∃ k, loadLines part = some (rows.take k) ∧
        (part = jsonLines ensureAscii (rows.take k) ∨
          part ++ ['\n'] = jsonLines ensureAscii (rows.take k)) ∨
      loadLines part = none ∧ ∃ v torn missing, rows[k]? = some v ∧
        dumps (.compact ensureAscii) v = torn ++ missing ∧ torn ≠ [] ∧ missing ≠ [] ∧
          part = jsonLines ensureAscii (rows.take k) ++ torn := by
  have htake : ∀ k, ∀ v ∈ rows.take k, Row v := fun k v hv => h v (List.mem_of_mem_take hv)
  obtain ⟨k, hcut⟩ := splitLines_cut (List.forall_mem_map.mpr hwhole) hpart
  rw [← List.map_take] at hcut
  -- The text ends between two rows or within one.
  rcases hcut with ⟨heq, hlines⟩ | ⟨line, torn, missing, hline, hsplit, hne, heq, hlines⟩
  · refine ⟨k, .inl ⟨?_, .inl heq⟩⟩
    rw [loadLines, hlines, mapM_loads (htake k)]
  · rw [List.getElem?_map, Option.map_eq_some_iff] at hline
    obtain ⟨v, hv, rfl⟩ := hline
    have hvrow := h v (List.mem_of_getElem? hv)
    by_cases hmissing : missing = []
    · -- Only the line end is missing.
      rw [hmissing, List.append_nil] at hsplit
      have htake' : rows.take (k + 1) = rows.take k ++ [v] := by
        rw [List.take_add_one, hv]
        rfl
      refine ⟨k + 1, .inl ⟨?_, .inr ?_⟩⟩
      · rw [loadLines, hlines, htake', ← hsplit, ← List.map_singleton, ← List.map_append, ← htake',
          mapM_loads (htake (k + 1))]
      · rw [htake', jsonLines_append, heq, ← hsplit]
        simp [jsonLines, unlines]
    · refine ⟨k, .inr ⟨?_, v, torn, missing, hv, hsplit, hne, hmissing, heq⟩⟩
      have hnone := loads_eq_none_of_cut hvrow.plain (hvrow.opens _) hsplit hmissing
      rw [loadLines, hlines, List.mapM_append, mapM_loads (htake k), List.mapM_cons, hnone]
      rfl

end HangAnalyzer.Lib.Json
