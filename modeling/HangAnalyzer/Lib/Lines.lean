import Mathlib.Data.List.TakeDrop

/-!
# `HangAnalyzer.Lib.Lines`: the lines of a text

`splitLines` is `text.splitlines()`, which knows more line ends than the one that a
writer puts behind each line. `splitLines_unlines` gives back the lines that have none
of them, and `splitLines_cut` says what is left of the lines when the end of the text
is missing.
-/

set_option autoImplicit false

namespace HangAnalyzer.Lib

/-- The characters that end a line. -/
def isLineEnd (c : Char) : Bool :=
  let n := c.toNat
  (0x0A ≤ n && n ≤ 0x0D) || (0x1C ≤ n && n ≤ 0x1E) || n == 0x85 || n == 0x2028 || n == 0x2029

/-- Put a character in front of the first line. -/
def pushLine (c : Char) : List (List Char) → List (List Char)
  | []            => [[c]]
  | line :: lines => (c :: line) :: lines

/-- `text.splitlines()`. -/
def splitLines : List Char → List (List Char)
  | []                   => []
  | '\r' :: '\n' :: rest => [] :: splitLines rest
  | c :: rest            =>
      if isLineEnd c then [] :: splitLines rest else pushLine c (splitLines rest)

/-- The lines, each with its line end. -/
def unlines (lines : List (List Char)) : List Char := lines.flatMap (· ++ ['\n'])

example : splitLines "a\n\nb\r\nc".toList = [['a'], [], ['b'], ['c']] := by decide

/-- No character of the line ends it. -/
def Whole (line : List Char) : Prop := ∀ c ∈ line, isLineEnd c = false

/-- A character that ends no line. -/
theorem splitLines_cons {c : Char} (h : isLineEnd c = false) (rest : List Char) :
    splitLines (c :: rest) = pushLine c (splitLines rest) := by
  have hne : c ≠ '\r' := by
    rintro rfl
    cases h
  simp [splitLines, hne, h]

/-- A line end, but not the beginning of one with two characters. -/
theorem splitLines_lineEnd {c : Char} (h : isLineEnd c = true) (hne : c ≠ '\r')
    (rest : List Char) : splitLines (c :: rest) = [] :: splitLines rest := by
  simp [splitLines, hne, h]

/-- The first line ends at the first line end. -/
theorem splitLines_append {line : List Char} (hline : Whole line) {c : Char}
    (h : isLineEnd c = true) (hne : c ≠ '\r') (rest : List Char) :
    splitLines (line ++ c :: rest) = line :: splitLines rest := by
  induction line with
  | nil => exact splitLines_lineEnd h hne rest
  | cons d line ih =>
      rw [List.cons_append, splitLines_cons (hline d List.mem_cons_self),
        ih fun c hc => hline c (List.mem_cons_of_mem d hc)]
      rfl

/-- A text without a line end is one line. -/
theorem splitLines_whole {line : List Char} (hline : Whole line) (hne : line ≠ []) :
    splitLines line = [line] := by
  induction line with
  | nil => exact absurd rfl hne
  | cons c line ih =>
      rw [splitLines_cons (hline c List.mem_cons_self)]
      cases line with
      | nil => rfl
      | cons d line =>
          rw [ih (fun c' hc => hline c' (List.mem_cons_of_mem c hc)) (List.cons_ne_nil d line)]
          rfl

/-- Each line ends with a newline. -/
theorem unlines_cons (line : List Char) (lines : List (List Char)) :
    unlines (line :: lines) = line ++ '\n' :: unlines lines := by
  simp [unlines]

/-- Two parts of the lines follow each other. -/
theorem unlines_append (lines lines' : List (List Char)) :
    unlines (lines ++ lines') = unlines lines ++ unlines lines' := List.flatMap_append

/-- The lines are given back. -/
theorem splitLines_unlines {lines : List (List Char)} (h : ∀ line ∈ lines, Whole line) :
    splitLines (unlines lines) = lines := by
  induction lines with
  | nil => rfl
  | cons line lines ih =>
      rw [unlines_cons, splitLines_append (h line List.mem_cons_self) (by decide) (by decide),
        ih fun l hl => h l (List.mem_cons_of_mem line hl)]

/-- A text that is not one line has a first line end. -/
theorem exists_lineEnd {line : List Char} (h : ¬ Whole line) :
    ∃ first c rest, line = first ++ c :: rest ∧ Whole first ∧ isLineEnd c = true := by
  induction line with
  | nil => exact absurd (fun c hc => by cases hc) h
  | cons c line ih =>
      cases hc : isLineEnd c with
      | true => exact ⟨[], c, line, rfl, (fun d hd => by cases hd), hc⟩
      | false =>
          have hline : ¬ Whole line := fun hline => h fun d hd => by
            rcases List.mem_cons.mp hd with rfl | hd
            · exact hc
            · exact hline d hd
          obtain ⟨first, d, rest, rfl, hfirst, hd⟩ := ih hline
          refine ⟨c :: first, d, rest, rfl, fun e he => ?_, hd⟩
          rcases List.mem_cons.mp he with rfl | he
          · exact hc
          · exact hfirst e he

/-- When the end of the text is missing, the first lines are left, and perhaps the
beginning of the next one. -/
theorem splitLines_cut {lines : List (List Char)} (h : ∀ line ∈ lines, Whole line)
    {part : List Char} (hpart : part <+: unlines lines) :
    ∃ k, part = unlines (lines.take k) ∧ splitLines part = lines.take k ∨
      ∃ line torn missing, lines[k]? = some line ∧ line = torn ++ missing ∧ torn ≠ [] ∧
        part = unlines (lines.take k) ++ torn ∧ splitLines part = lines.take k ++ [torn] := by
  induction lines generalizing part with
  | nil =>
      rw [List.prefix_nil.mp hpart]
      exact ⟨0, .inl ⟨rfl, rfl⟩⟩
  | cons line lines ih =>
      have hline := h line List.mem_cons_self
      rw [unlines_cons] at hpart
      obtain ⟨missing, hmissing⟩ := hpart
      have hfirst : ∀ missing, line = part ++ missing →
          ∃ k, part = unlines ((line :: lines).take k) ∧
          splitLines part = (line :: lines).take k ∨ ∃ line' torn missing,
            (line :: lines)[k]? = some line' ∧ line' = torn ++ missing ∧ torn ≠ [] ∧
              part = unlines ((line :: lines).take k) ++ torn ∧
                splitLines part = (line :: lines).take k ++ [torn] := by
        intro missing hcut
        by_cases hnil : part = []
        · exact ⟨0, .inl (by rw [hnil]; exact ⟨rfl, rfl⟩)⟩
        · have hwhole : Whole part := fun c hc => hline c (by rw [hcut]; simp [hc])
          exact ⟨0, .inr ⟨line, part, missing, rfl, hcut, hnil, rfl, splitLines_whole hwhole hnil⟩⟩
      rcases List.append_eq_append_iff.mp hmissing with ⟨missing, hcut, -⟩ | ⟨rest, rfl, hrest⟩
      · exact hfirst missing hcut
      · cases rest with
        | nil => exact hfirst [] (by simp)
        | cons c rest =>
            -- The first line is there with its line end.
            rw [List.cons_append, List.cons.injEq] at hrest
            obtain ⟨rfl, hrest⟩ := hrest
            obtain ⟨k, hk⟩ := ih (fun l hl => h l (List.mem_cons_of_mem line hl))
              ⟨missing, hrest.symm⟩
            refine ⟨k + 1, ?_⟩
            rw [splitLines_append hline (by decide) (by decide), List.take_succ_cons, unlines_cons]
            rcases hk with ⟨hpart, hk⟩ | ⟨line', torn, missing', hline', heq, hne, hpart, hk⟩
            · exact .inl ⟨by rw [← hpart], by rw [hk]⟩
            · refine .inr ⟨line', torn, missing', hline', heq, hne, ?_, by rw [hk]; rfl⟩
              rw [hpart]
              simp

end HangAnalyzer.Lib
