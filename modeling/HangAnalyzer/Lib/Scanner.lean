import Mathlib.Data.List.TakeDrop

/-!
# `HangAnalyzer.Lib.Scanner`: scanners that read the beginning of a text

A `Scanner` finds something at the beginning of a text and returns the rest.
`enclosed` reads items with commas between them up to a closing bracket, and blanks may
stand around each item.

Two notions carry the proofs. A scanner `Takes` a text as `x` when it finds `x` in
front of every rest that begins with a character that may follow. `Prolongs` says what
one scanner finds in a text another one finds in every longer text. Both go from an
item to the enclosed list.
-/

set_option autoImplicit false

namespace HangAnalyzer.Lib

/-- What is found at the beginning of a text, and the rest of the text. -/
abbrev Scanner (α : Type) := List Char → Option (α × List Char)

namespace Scanner

/-- The white space of JSON. -/
def isBlank (c : Char) : Bool := c == ' ' || c == '\t' || c == '\n' || c == '\r'

/-- The text without the blanks at its beginning. -/
def skipBlanks (s : List Char) : List Char := s.dropWhile isBlank

section Definitions

variable {α : Type}

/-- What stands after an item and blanks: the closing bracket, or a comma, and whether it
is the bracket. Blanks after the comma are skipped. -/
def delimiter (close : Char) (s : List Char) : Option (Bool × List Char) :=
  match skipBlanks s with
  | []        => none
  | c :: rest =>
      if c = close then some (true, rest)
      else if c = ',' then some (false, skipBlanks rest) else none

/-- The items up to the closing bracket, with a comma between two of them. The number
bounds how many there are. -/
def separated (close : Char) (item : Scanner α) : Nat → Scanner (List α)
  | 0, _ => none
  | n + 1, s =>
      (item s).bind fun found =>
        (delimiter close found.2).bind fun stop =>
          if stop.1 then some ([found.1], stop.2)
          else (separated close item n stop.2).map fun tail => (found.1 :: tail.1, tail.2)

/-- The items up to the closing bracket, which may come at once. -/
def enclosed (close : Char) (item : Scanner α) : Scanner (List α) := fun s =>
  match skipBlanks s with
  | []        => none
  | c :: rest =>
      if c = close then some ([], rest) else separated close item (rest.length + 1) (c :: rest)

/-- The texts with a comma and blanks between them, up to the closing bracket. -/
def bracketed (close : Char) (before between after : List Char) : List (List Char) → List Char
  | []      => [close]
  | t :: ts => before ++ t ++ (ts.flatMap fun t => ',' :: between ++ t) ++ after ++ [close]

/-- The text is at its end, or goes on with a character that may follow. -/
def Follows (ends : Char → Bool) (rest : List Char) : Prop := ∀ c ∈ rest.head?, ends c = true

/-- The scanner finds `x` in the text, whatever may follow it. -/
def Takes (ends : Char → Bool) (scan : Scanner α) (text : List Char) (x : α) : Prop :=
  ∀ rest, Follows ends rest → scan (text ++ rest) = some (x, rest)

/-- What the first scanner finds the second one finds too, also in a longer text, if
the rest already begins with a character that may follow. -/
def Prolongs (ends : Char → Bool) (scan scan' : Scanner α) : Prop :=
  ∀ s x rest, scan s = some (x, rest) →
    ∀ more, (more = [] ∨ rest ≠ [] ∧ Follows ends rest) → scan' (s ++ more) = some (x, rest ++ more)

end Definitions

/-! ### Blanks -/

/-- Leading blanks are skipped. -/
theorem skipBlanks_append_blank {blanks : List Char} (h : ∀ c ∈ blanks, isBlank c = true)
    (s : List Char) : skipBlanks (blanks ++ s) = skipBlanks s :=
  List.dropWhile_append_of_pos h

/-- A text that starts with something else is left as it is. -/
theorem skipBlanks_cons {c : Char} (h : isBlank c = false) (s : List Char) :
    skipBlanks (c :: s) = c :: s := by
  rw [skipBlanks, List.dropWhile_cons_of_neg (by simp [h])]

/-- What follows blanks does not matter to them. -/
theorem skipBlanks_append {s t : List Char} (h : skipBlanks s = t) (hne : t ≠ [])
    (more : List Char) : skipBlanks (s ++ more) = t ++ more := by
  subst h
  rw [skipBlanks, List.dropWhile_append, if_neg]
  · rfl
  · simpa [skipBlanks] using hne

/-- The text is as it was, or it began with a blank. -/
theorem skipBlanks_cases {s rest : List Char} {c : Char} (h : skipBlanks s = c :: rest) :
    s = c :: rest ∨ ∃ b t, s = b :: t ∧ isBlank b = true := by
  cases s with
  | nil => cases h
  | cons b t =>
      cases hb : isBlank b with
      | false => exact .inl ((skipBlanks_cons hb t).symm.trans h)
      | true => exact .inr ⟨b, t, rfl, hb⟩

section Lists

variable {α : Type} {ends : Char → Bool} {close : Char}

/-- The end of the text ends everything. -/
theorem Follows.nil (ends : Char → Bool) : Follows ends [] := fun _ hc => by cases hc

/-- A text that starts with an ending character. -/
theorem Follows.cons {c : Char} (h : ends c = true) (rest : List Char) :
    Follows ends (c :: rest) := by
  intro d hd
  rw [List.head?_cons, Option.mem_some_iff] at hd
  exact hd ▸ h

/-- Blanks and a character that may follow may follow. -/
theorem Follows.blanks (hblank : ∀ c, isBlank c = true → ends c = true) {blanks rest : List Char}
    (h : ∀ c ∈ blanks, isBlank c = true) (hrest : Follows ends rest) :
    Follows ends (blanks ++ rest) := by
  cases blanks with
  | nil => exact hrest
  | cons b t => exact .cons (hblank b (h b List.mem_cons_self)) _

/-! ### One item after the other -/

/-- Blanks and the closing bracket close the sequence. -/
theorem delimiter_close (hsolid : isBlank close = false) {blanks : List Char}
    (h : ∀ c ∈ blanks, isBlank c = true) (rest : List Char) :
    delimiter close (blanks ++ close :: rest) = some (true, rest) := by
  rw [delimiter, skipBlanks_append_blank h, skipBlanks_cons hsolid]
  exact if_pos rfl

/-- A comma and the blanks behind it continue the sequence. -/
theorem delimiter_comma (hne : close ≠ ',') (rest : List Char) :
    delimiter close (',' :: rest) = some (false, skipBlanks rest) := by
  rw [delimiter, skipBlanks_cons (by decide)]
  show (if ',' = close then _ else _) = _
  rw [if_neg (Ne.symm hne), if_pos rfl]

/-- The character that is found is the bracket or the comma. -/
theorem delimiter_eq_some {s rest : List Char} {closed : Bool}
    (h : delimiter close s = some (closed, rest)) :
    ∃ c t, skipBlanks s = c :: t ∧
      (c = close ∧ closed = true ∧ t = rest ∨
        c ≠ close ∧ c = ',' ∧ closed = false ∧ skipBlanks t = rest) := by
  unfold delimiter at h
  split at h
  · cases h
  · rename_i c t hskip
    refine ⟨c, t, hskip, ?_⟩
    -- A delimiter is the closing bracket or a comma, and nothing else.
    by_cases hc : c = close
    · rw [if_pos hc] at h
      cases h
      exact .inl ⟨hc, rfl, rfl⟩
    · rw [if_neg hc] at h
      by_cases hc' : c = ','
      · rw [if_pos hc'] at h
        cases h
        exact .inr ⟨hc, hc', rfl, rfl⟩
      · rw [if_neg hc'] at h
        cases h

/-- What the loop finds: an item, and the bracket or more items. -/
theorem separated_succ_iff {item : Scanner α} {n : Nat} {s rest : List Char} {xs : List α} :
    separated close item (n + 1) s = some (xs, rest) ↔
      ∃ x r, item s = some (x, r) ∧
        (delimiter close r = some (true, rest) ∧ xs = [x] ∨
          ∃ r' ys, delimiter close r = some (false, r') ∧
            separated close item n r' = some (ys, rest) ∧ xs = x :: ys) := by
  rw [separated, Option.bind_eq_some_iff]
  constructor
  · rintro ⟨⟨x, r⟩, hitem, hrest⟩
    obtain ⟨⟨closed, r'⟩, hstop, hrest⟩ := Option.bind_eq_some_iff.mp hrest
    refine ⟨x, r, hitem, ?_⟩
    -- Behind the item the sequence is closed or goes on.
    cases closed with
    | true =>
        cases hrest
        exact .inl ⟨hstop, rfl⟩
    | false =>
        obtain ⟨⟨ys, r''⟩, htail, heq⟩ := Option.map_eq_some_iff.mp hrest
        cases heq
        exact .inr ⟨r', ys, hstop, htail, rfl⟩
  · rintro ⟨x, r, hitem, ⟨hstop, rfl⟩ | ⟨r', ys, hstop, htail, rfl⟩⟩
    · exact ⟨(x, r), hitem, Option.bind_eq_some_iff.mpr ⟨_, hstop, rfl⟩⟩
    · exact ⟨(x, r), hitem, Option.bind_eq_some_iff.mpr ⟨_, hstop,
        Option.map_eq_some_iff.mpr ⟨_, htail, rfl⟩⟩⟩

/-! ### A list is read back -/

variable {item : Scanner α} {text : α → List Char} {between after : List Char}

/-- The items are read back, if the scanner reads each of them. -/
theorem separated_flatMap (hblank : ∀ c, isBlank c = true → ends c = true)
    (hcomma : ends ',' = true) (hclose : ends close = true) (hne : close ≠ ',')
    (hsolid : isBlank close = false) (hbetween : ∀ c ∈ between, isBlank c = true)
    (hafter : ∀ c ∈ after, isBlank c = true) {x : α} {xs : List α}
    (htakes : ∀ y ∈ x :: xs, Takes ends item (text y) y)
    (hstart : ∀ y ∈ xs, ∃ c t, text y = c :: t ∧ isBlank c = false) {n : Nat}
    (hn : xs.length < n) (rest : List Char) :
    separated close item n
        (text x ++ ((xs.flatMap fun y => ',' :: (between ++ text y)) ++ (after ++ close :: rest)))
      = some (x :: xs, rest) := by
  induction xs generalizing x n with
  | nil =>
      obtain ⟨n, rfl⟩ := Nat.exists_eq_add_of_lt hn
      have hitem := htakes x List.mem_cons_self (after ++ close :: rest)
        (.blanks hblank hafter (.cons hclose rest))
      exact separated_succ_iff.mpr ⟨x, _, hitem, .inl ⟨delimiter_close hsolid hafter rest, rfl⟩⟩
  | cons y ys ih =>
      obtain ⟨n, rfl⟩ := Nat.exists_eq_add_of_lt hn
      have htail := ih (fun z hz => htakes z (List.mem_cons_of_mem x hz))
        (fun z hz => hstart z (List.mem_cons_of_mem y hz)) (n := (y :: ys).length + n)
        (by rw [List.length_cons]; omega)
      -- The blanks after the comma end where the next item begins.
      obtain ⟨c, t, htext, hc⟩ := hstart y List.mem_cons_self
      have hskip : ∀ tail : List Char,
          skipBlanks (between ++ (text y ++ tail)) = text y ++ tail := by
        intro tail
        rw [skipBlanks_append_blank hbetween, htext, List.cons_append, skipBlanks_cons hc]
      have hitem := htakes x List.mem_cons_self
        (',' :: (between ++ (text y ++ ((ys.flatMap fun z => ',' :: (between ++ text z))
          ++ (after ++ close :: rest))))) (.cons hcomma _)
      have hstop := delimiter_comma hne
        (between ++ (text y ++ ((ys.flatMap fun z => ',' :: (between ++ text z))
          ++ (after ++ close :: rest))))
      rw [hskip] at hstop
      simp only [List.flatMap_cons, List.cons_append, List.append_assoc]
      exact separated_succ_iff.mpr ⟨x, _, hitem, .inr ⟨_, _, hstop, htail, rfl⟩⟩

/-- A sequence has at least a comma for each item. -/
theorem length_le_flatMap (xs : List α) (f : α → List Char) :
    xs.length ≤ (xs.flatMap fun y => ',' :: f y).length := by
  induction xs with
  | nil => exact Nat.zero_le _
  | cons y ys ih =>
      rw [List.flatMap_cons, List.length_append, List.length_cons, List.length_cons]
      omega

/-- The bracketed texts are read back. -/
theorem enclosed_bracketed (hblank : ∀ c, isBlank c = true → ends c = true)
    (hcomma : ends ',' = true) (hclose : ends close = true) (hne : close ≠ ',')
    (hsolid : isBlank close = false) {before : List Char}
    (hbefore : ∀ c ∈ before, isBlank c = true) (hbetween : ∀ c ∈ between, isBlank c = true)
    (hafter : ∀ c ∈ after, isBlank c = true) {xs : List α}
    (htakes : ∀ y ∈ xs, Takes ends item (text y) y)
    (hstart : ∀ y ∈ xs, ∃ c t, text y = c :: t ∧ isBlank c = false ∧ c ≠ close)
    (rest : List Char) :
    enclosed close item (bracketed close before between after (xs.map text) ++ rest)
      = some (xs, rest) := by
  cases xs with
  -- An empty sequence has the closing bracket at once.
  | nil =>
      show enclosed close item (close :: rest) = _
      rw [enclosed, skipBlanks_cons hsolid]
      exact if_pos rfl
  | cons x xs =>
      obtain ⟨c, t, htext, hc, hcne⟩ := hstart x List.mem_cons_self
      have hlist := separated_flatMap hblank hcomma hclose hne hsolid hbetween hafter htakes
        (fun y hy => (hstart y (List.mem_cons_of_mem x hy)).imp fun c hc =>
          hc.imp fun t ht => ⟨ht.1, ht.2.1⟩)
        (n := (t ++ ((xs.flatMap fun y => ',' :: (between ++ text y))
          ++ (after ++ close :: rest))).length + 1) ?_ rest
      · have htexts : bracketed close before between after ((x :: xs).map text) ++ rest
            = before ++ (c :: (t ++ ((xs.flatMap fun y => ',' :: (between ++ text y))
                ++ (after ++ close :: rest)))) := by
          simp [bracketed, htext, List.flatMap_map]
        rw [htexts, enclosed, skipBlanks_append_blank hbefore, skipBlanks_cons hc]
        show (if c = close then _ else _) = _
        rw [if_neg hcne]
        rw [htext] at hlist
        exact hlist
      · -- Each item has its comma.
        have hlength := length_le_flatMap xs fun y => between ++ text y
        simp only [List.length_append]
        omega

/-! ### A longer text -/

variable {item' : Scanner α}

/-- After an item there is a character that may follow. -/
theorem follows_of_delimiter (hblank : ∀ c, isBlank c = true → ends c = true)
    (hcomma : ends ',' = true) (hclose : ends close = true) {s rest : List Char} {closed : Bool}
    (h : delimiter close s = some (closed, rest)) : s ≠ [] ∧ Follows ends s := by
  obtain ⟨c, t, hskip, hc⟩ := delimiter_eq_some h
  have hends : ends c = true := by
    rcases hc with ⟨rfl, -⟩ | ⟨-, rfl, -⟩
    · exact hclose
    · exact hcomma
  rcases skipBlanks_cases hskip with rfl | ⟨b, t, rfl, hb⟩
  · exact ⟨List.cons_ne_nil _ _, .cons hends _⟩
  · exact ⟨List.cons_ne_nil _ _, .cons (hblank b hb) _⟩

/-- More text does not change what a delimiter says, once the text behind it has started. -/
theorem delimiter_append {s rest : List Char} {closed : Bool}
    (h : delimiter close s = some (closed, rest)) (hne : closed = true ∨ rest ≠ [])
    (more : List Char) : delimiter close (s ++ more) = some (closed, rest ++ more) := by
  obtain ⟨c, t, hskip, hc⟩ := delimiter_eq_some h
  rw [delimiter, skipBlanks_append hskip (List.cons_ne_nil c t), List.cons_append]
  show (if c = close then _ else _) = _
  rcases hc with ⟨hc, rfl, rfl⟩ | ⟨hc, hcomma, rfl, hrest⟩
  · rw [if_pos hc]
  · rw [if_neg hc, if_pos hcomma, skipBlanks_append hrest (hne.resolve_left Bool.false_ne_true)]

/-- What a list is read as does not change when its text goes on. -/
theorem Prolongs.separated (h : Prolongs ends item item') (hnil : item [] = none)
    (hblank : ∀ c, isBlank c = true → ends c = true) (hcomma : ends ',' = true)
    (hclose : ends close = true) {n m : Nat} (hnm : n ≤ m) {s rest : List Char} {xs : List α}
    (hs : separated close item n s = some (xs, rest)) (more : List Char) :
    separated close item' m (s ++ more) = some (xs, rest ++ more) := by
  induction n generalizing m s xs with
  | zero => cases hs
  | succ n ih =>
      obtain ⟨m, rfl⟩ := Nat.exists_eq_add_of_le' hnm
      obtain ⟨x, r, hitem, hafter⟩ := separated_succ_iff.mp hs
      rw [← Nat.add_assoc]
      have hitem' : ∀ {closed rest'}, delimiter close r = some (closed, rest') →
          item' (s ++ more) = some (x, r ++ more) := fun hstop =>
        h s x r hitem more (.inr (follows_of_delimiter hblank hcomma hclose hstop))
      refine separated_succ_iff.mpr ⟨x, r ++ more, ?_, ?_⟩
      · rcases hafter with ⟨hstop, -⟩ | ⟨r', ys, hstop, -⟩ <;> exact hitem' hstop
      · rcases hafter with ⟨hstop, rfl⟩ | ⟨r', ys, hstop, htail, rfl⟩
        · exact .inl ⟨delimiter_append hstop (.inl rfl) more, rfl⟩
        · refine .inr ⟨r' ++ more, ys, delimiter_append hstop (.inr ?_) more,
            ih (Nat.le_add_left n m) htail, rfl⟩
          -- Nothing is read at the end of the text.
          rintro rfl
          cases n with
          | zero => cases htail
          | succ n =>
              obtain ⟨y, r'', hy, -⟩ := separated_succ_iff.mp htail
              rw [hnil] at hy
              cases hy

/-- The same for a list that may be empty. -/
theorem Prolongs.enclosed (h : Prolongs ends item item') (hnil : item [] = none)
    (hblank : ∀ c, isBlank c = true → ends c = true) (hcomma : ends ',' = true)
    (hclose : ends close = true) {s rest : List Char} {xs : List α}
    (hs : enclosed close item s = some (xs, rest)) (more : List Char) :
    enclosed close item' (s ++ more) = some (xs, rest ++ more) := by
  unfold Scanner.enclosed at hs ⊢
  split at hs
  · cases hs
  · rename_i c t hskip
    rw [skipBlanks_append hskip (List.cons_ne_nil c t), List.cons_append]
    show (if c = close then _ else _) = _
    -- The text ends with the bracket, which more text cannot move.
    by_cases hc : c = close
    · rw [if_pos hc] at hs ⊢
      cases hs
      rfl
    · rw [if_neg hc] at hs ⊢
      refine h.separated hnil hblank hcomma hclose ?_ hs more
      rw [List.length_append]
      omega

end Lists

end Scanner

end HangAnalyzer.Lib
