import HangAnalyzer.Lib.Json

/-!
# `HangAnalyzer.Lib.JsonText`: what `loads` reads in the texts of `dumps`

`loads_dumps` is the round trip. `loads_eq_none_of_cut` says that no part of the text of a
list, a dictionary or a string is a text of its own, so that a line that was cut is never
read as something else.

Both are proved scanner by scanner, with `Scanner.Takes` and `Scanner.Prolongs`. A number
ends only where a character follows that `ends` allows.
-/

set_option autoImplicit false

namespace HangAnalyzer.Lib.Json

open Scanner

/-- The character does not go on with a number. -/
def ends (c : Char) : Bool := !(c.isDigit || c == '.' || c == 'e' || c == 'E')

/-- White space ends a number. -/
theorem ends_of_isBlank {c : Char} (h : isBlank c = true) : ends c = true := by
  simp only [isBlank, Bool.or_eq_true, beq_iff_eq] at h
  rcases h with ((rfl | rfl) | rfl) | rfl <;> decide

/-! ### Numbers -/

/-- The digits are those of the text when no digit follows. -/
theorem digits_append {ds rest : List Char} (h : ∀ c ∈ ds, c.isDigit = true)
    (hrest : Follows ends rest) : digits (ds ++ rest) = (ds, rest) := by
  have hhead : ∀ c ∈ rest.head?, c.isDigit = false := fun c hc => by
    have hends := hrest c hc
    simp only [ends, Bool.not_eq_true', Bool.or_eq_false_iff] at hends
    exact hends.1.1.1
  rw [digits, List.takeWhile_append_of_pos h, List.dropWhile_append_of_pos h]
  cases rest with
  | nil => simp
  | cons c t => simp [hhead c rfl]

/-- What follows the digits does not matter to them. -/
theorem digits_more {s more : List Char} (h : more = [] ∨ (digits s).2 ≠ []) :
    digits (s ++ more) = ((digits s).1, (digits s).2 ++ more) := by
  rcases h with rfl | h
  · simp
  · have hany : ¬ (s.takeWhile Char.isDigit).length = s.length := fun hlength => h (by
      have hsum := congrArg List.length
        (List.takeWhile_append_dropWhile (p := Char.isDigit) (l := s))
      rw [List.length_append] at hsum
      exact List.eq_nil_of_length_eq_zero (by simp only [digits]; omega))
    have hdrop : (s.dropWhile Char.isDigit).isEmpty = false := by
      simpa [digits] using h
    simp only [digits, List.takeWhile_append, if_neg hany, List.dropWhile_append, hdrop]
    simp

/-- Only the digits of zero start with a zero. -/
theorem head_toDigits (n : Nat) : (Nat.toDigits 10 n).head? = some '0' → n = 0 := by
  induction n using Nat.strongRecOn with
  | ind n ih =>
      intro h
      rw [Nat.toDigits_eq_if (by decide)] at h
      split at h
      · rename_i hlt
        have hchar : n.digitChar = '0' := by simpa using h
        have hnat := Nat.toNat_digitChar_of_lt_ten hlt
        rw [hchar] at hnat
        exact Nat.left_eq_add.mp hnat
      · rename_i hge
        rw [List.head?_append_of_ne_nil _ Nat.toDigits_ne_nil] at h
        have hzero := ih (n / 10) (by omega) h
        omega

/-- The digits of a number are read back. -/
theorem scanDigits_toDigits (n : Nat) {rest : List Char} (hrest : Follows ends rest) :
    scanDigits (Nat.toDigits 10 n ++ rest) = some (Nat.toDigits 10 n, rest) := by
  have hall : ∀ c ∈ Nat.toDigits 10 n, c.isDigit = true := fun c hc =>
    Nat.isDigit_of_mem_toDigits (by decide) (by decide) hc
  have hdigits := digits_append hall hrest
  by_cases hzero : n = 0
  · subst hzero
    rfl
  · -- No zero stands in front.
    unfold scanDigits
    split
    · rename_i tail heq
      refine absurd (head_toDigits n ?_) hzero
      have hhead := congrArg List.head? heq
      rwa [List.head?_append_of_ne_nil _ Nat.toDigits_ne_nil] at hhead
    · rw [hdigits, if_neg Nat.toDigits_ne_nil]

/-- A number that is followed by its end has no fraction. -/
theorem fraction_of_follows {rest : List Char} (h : Follows ends rest) :
    fraction rest = ([], rest) := by
  unfold fraction
  split
  · exact absurd (h '.' rfl) (by decide)
  · rfl

/-- A number that is followed by its end has no exponent. -/
theorem exponent_of_follows {rest : List Char} (h : Follows ends rest) :
    exponent rest = ([], rest) := by
  unfold exponent
  split
  · rfl
  · rename_i c t
    rw [if_neg]
    rintro ⟨rfl | rfl, -⟩
    · exact absurd (h 'e' rfl) (by decide)
    · exact absurd (h 'E' rfl) (by decide)

/-- The digits of a number are read as the number. -/
theorem scanUnsigned_toDigits (minus : Bool) (n : Nat) {rest : List Char}
    (hrest : Follows ends rest) :
    scanUnsigned minus (Nat.toDigits 10 n ++ rest)
      = some (.int (if minus then -(n : Int) else n), rest) := by
  rw [scanUnsigned, scanDigits_toDigits n hrest, Option.map_some]
  show some (numberOf minus (Nat.toDigits 10 n) ((fraction rest).1 ++ _), _) = _
  rw [fraction_of_follows hrest, exponent_of_follows hrest, List.nil_append, numberOf, if_pos rfl,
    Nat.ofDigitChars_ten_toDigits]

/-- Without a sign the number is read as it stands. -/
theorem scanNumber_of_head {s : List Char} (h : s.head? ≠ some '-') :
    scanNumber s = scanUnsigned false s := by
  unfold scanNumber
  split
  · exact absurd rfl h
  · rfl

/-- A number is read back. -/
theorem scanNumber_intText (n : Int) : Takes ends scanNumber (intText n) (.int n) := by
  intro rest hrest
  cases n with
  | ofNat n =>
      have hhead : (Nat.toDigits 10 n ++ rest).head? ≠ some '-' := by
        rw [List.head?_append_of_ne_nil _ Nat.toDigits_ne_nil]
        intro h
        have hdigit := Nat.isDigit_of_mem_toDigits (by decide) (by decide) (List.mem_of_mem_head? h)
        exact absurd hdigit (by decide)
      exact (scanNumber_of_head hhead).trans (scanUnsigned_toDigits false n hrest)
  | negSucc n => exact scanUnsigned_toDigits true (n + 1) hrest

/-- Digits that do not start with a zero are read to their end. -/
theorem scanDigits_of_head {s : List Char} (h : s.head? ≠ some '0') :
    scanDigits s = if (digits s).1 = [] then none else some (digits s) := by
  unfold scanDigits
  split
  · exact absurd rfl h
  · rfl

/-- Without a point there is no fraction. -/
theorem fraction_of_head {s : List Char} (h : s.head? ≠ some '.') : fraction s = ([], s) := by
  unfold fraction
  split
  · exact absurd rfl h
  · rfl

/-- What follows a number does not matter to its digits. -/
theorem scanDigits_more {s more : List Char} {found : List Char × List Char}
    (h : scanDigits s = some found) (hne : more = [] ∨ found.2 ≠ []) :
    scanDigits (s ++ more) = some (found.1, found.2 ++ more) := by
  cases s with
  | nil => cases h
  | cons c t =>
      -- A single zero ends the digits, whatever follows.
      by_cases hc : c = '0'
      · subst hc
        cases h
        rfl
      · have hhead : ∀ t : List Char, (c :: t).head? ≠ some '0' := fun t heq =>
          hc (Option.some.inj heq)
        rw [scanDigits_of_head (hhead t)] at h
        rw [List.cons_append, scanDigits_of_head (hhead _), ← List.cons_append]
        split at h
        · cases h
        · rename_i hdigits
          cases h
          rw [digits_more hne, if_neg hdigits]

/-- More text does not change a fraction, once the text behind it has started. -/
theorem fraction_more {s more : List Char}
    (h : more = [] ∨ (fraction s).2 ≠ [] ∧ (fraction s).2.head? ≠ some '.') :
    fraction (s ++ more) = ((fraction s).1, (fraction s).2 ++ more) := by
  rcases h with rfl | ⟨hne, hdot⟩
  · simp
  · cases s with
    | nil => exact absurd rfl hne
    | cons c t =>
        by_cases hc : c = '.'
        · subst hc
          simp only [fraction] at hne hdot
          simp only [List.cons_append, fraction]
          -- A point without digits is no fraction and would still be there.
          by_cases hdigits : (digits t).1 = []
          · rw [if_pos hdigits] at hdot
            exact absurd rfl hdot
          · rw [if_neg hdigits] at hne ⊢
            rw [digits_more (.inr hne), if_neg hdigits]
        · have hhead : ∀ t : List Char, (c :: t).head? ≠ some '.' := fun t heq =>
            hc (Option.some.inj heq)
          rw [fraction_of_head (hhead t), List.cons_append, fraction_of_head (hhead _)]

/-- More text does not change an exponent, once the text behind it has started. -/
theorem exponent_more {s more : List Char}
    (h : more = [] ∨ (exponent s).2 ≠ [] ∧ Follows ends (exponent s).2) :
    exponent (s ++ more) = ((exponent s).1, (exponent s).2 ++ more) := by
  rcases h with rfl | ⟨hne, hends⟩
  · simp
  · cases s with
    | nil => exact absurd rfl hne
    | cons c t =>
        simp only [exponent] at hne hends
        simp only [List.cons_append, exponent]
        by_cases htaken : (c = 'e' ∨ c = 'E') ∧ (digits (sign t).2).1 ≠ []
        · rw [if_pos htaken] at hne hends
          -- The sign is the one of the text, and so are the digits.
          have hsign : sign (t ++ more) = ((sign t).1, (sign t).2 ++ more) := by
            cases t with
            | nil => exact absurd rfl htaken.2
            | cons d t =>
                unfold sign
                split <;> split <;> simp_all
          have hdigits := @digits_more (sign t).2 more (.inr hne)
          rw [hsign, hdigits, if_pos htaken, if_pos htaken]
        · rw [if_neg htaken] at hends ⊢
          have hletter : ¬ (c = 'e' ∨ c = 'E') := by
            rintro (rfl | rfl)
            · exact absurd (hends 'e' rfl) (by decide)
            · exact absurd (hends 'E' rfl) (by decide)
          rw [if_neg fun htaken => hletter htaken.1]
          rfl

/-- More text does not change an unsigned number, once the text behind it has started. -/
theorem scanUnsigned_more {minus : Bool} {s rest more : List Char} {v : Json}
    (h : scanUnsigned minus s = some (v, rest))
    (hmore : more = [] ∨ rest ≠ [] ∧ Follows ends rest) :
    scanUnsigned minus (s ++ more) = some (v, rest ++ more) := by
  obtain ⟨whole, hwhole, heq⟩ := Option.map_eq_some_iff.mp h
  cases heq
  have hexponent := exponent_more hmore
  -- A number that goes on after the fraction has no other point there.
  have hfraction : more = [] ∨ (fraction whole.2).2 ≠ [] ∧
      (fraction whole.2).2.head? ≠ some '.' := by
    refine hmore.imp id fun hmore => ⟨fun hnil => hmore.1 (by rw [hnil]; rfl), fun hdot => ?_⟩
    obtain ⟨t, ht⟩ : ∃ t, (fraction whole.2).2 = '.' :: t := by
      cases hrest : (fraction whole.2).2 with
      | nil => rw [hrest] at hdot; cases hdot
      | cons c t => rw [hrest] at hdot; cases hdot; exact ⟨t, rfl⟩
    rw [ht] at hmore
    exact absurd (hmore.2 '.' rfl) (by decide)
  have hwhole_ne : more = [] ∨ whole.2 ≠ [] :=
    hfraction.imp id fun hne hnil => hne.1 (by rw [hnil]; rfl)
  rw [scanUnsigned, scanDigits_more hwhole hwhole_ne, Option.map_some]
  simp only [fraction_more hfraction, hexponent]

/-- More text does not change a number, once the text behind it has started. -/
theorem scanNumber_prolongs : Prolongs ends scanNumber scanNumber := by
  intro s v rest h more hmore
  cases s with
  | nil => cases h
  | cons c t =>
      by_cases hc : c = '-'
      · subst hc
        exact scanUnsigned_more (s := t) h hmore
      · have hhead : ∀ t : List Char, (c :: t).head? ≠ some '-' := fun t heq =>
          hc (Option.some.inj heq)
        rw [scanNumber_of_head (hhead t)] at h
        rw [List.cons_append, scanNumber_of_head (hhead _)]
        exact scanUnsigned_more h hmore

/-! ### Strings -/

/-- A hexadecimal digit is read as its value. -/
theorem hexValue_digitChar : ∀ d < 16, hexValue d.digitChar = some d := by decide

/-- The four digits of an escape are read as its code unit. -/
theorem hex4Value_hex4 {n : Nat} (h : n < 65536) :
    hex4Value (n / 4096 % 16).digitChar (n / 256 % 16).digitChar (n / 16 % 16).digitChar
      (n % 16).digitChar = some n := by
  simp only [hex4Value, hexValue_digitChar _ (Nat.mod_lt _ (by decide : 0 < 16)),
    Option.bind_eq_bind, Option.bind_some, Option.pure_def, Option.some.injEq]
  omega

/-- A number that is no surrogate is read as its character. -/
theorem scanString_unicodeEscape {n : Nat} (h : n < 0xD800 ∨ 0xE000 ≤ n ∧ n < 0x10000)
    (rest : List Char) :
    scanString (unicodeEscape n ++ rest) = (scanString rest).map (push (Char.ofNat n)) := by
  rw [unicodeEscape, hex4]
  simp only [List.cons_append, List.nil_append, scanString]
  rw [hex4Value_hex4 (by omega)]
  show (if 0xD800 ≤ n ∧ n ≤ 0xDBFF then _ else if 0xDC00 ≤ n ∧ n ≤ 0xDFFF then none else _) = _
  rw [if_neg (by omega), if_neg (by omega)]

/-- Two surrogates are read as the character of the pair. -/
theorem scanString_surrogates {m : Nat} (h : m < 0x100000) (rest : List Char) :
    scanString (unicodeEscape (0xD800 + m / 1024) ++ (unicodeEscape (0xDC00 + m % 1024) ++ rest))
      = (scanString rest).map (push (Char.ofNat (0x10000 + m))) := by
  simp only [unicodeEscape, hex4, List.cons_append, List.nil_append, scanString]
  rw [hex4Value_hex4 (by omega)]
  show (if 0xD800 ≤ 0xD800 + m / 1024 ∧ 0xD800 + m / 1024 ≤ 0xDBFF then _ else _) = _
  rw [if_pos (by omega), hex4Value_hex4 (by omega)]
  show (if 0xDC00 ≤ 0xDC00 + m % 1024 ∧ 0xDC00 + m % 1024 ≤ 0xDFFF then _ else _) = _
  rw [if_pos (by omega)]
  have hpair : (0xD800 + m / 1024 - 0xD800) * 1024 + (0xDC00 + m % 1024 - 0xDC00) = m := by omega
  rw [hpair]

/-- A character is no surrogate. -/
theorem toNat_lt (c : Char) : c.toNat < 0xD800 ∨ 0xE000 ≤ c.toNat ∧ c.toNat < 0x110000 := by
  rcases c.valid with h | h
  · exact .inl h
  · exact .inr ⟨Nat.succ_le_of_lt h.1, h.2⟩

/-- A character that is no quote and no backslash stands for itself, unless it is a control
character. -/
theorem scanString_cons {c : Char} (hquote : c ≠ '"') (hback : c ≠ '\\') (rest : List Char) :
    scanString (c :: rest)
      = if c.toNat < 0x20 then none else (scanString rest).map (push c) := by
  simp [scanString, hback]

/-- A short escape stands for its character. -/
theorem scanString_backslash {c d : Char} (h : unescape c = some d) (rest : List Char) :
    scanString ('\\' :: c :: rest) = (scanString rest).map (push d) := by
  have hu : c ≠ 'u' := by
    rintro rfl
    cases h
  simp [scanString, hu, h]

/-- A character of a string is read back. -/
theorem scanString_escape (ensureAscii : Bool) (c : Char) (rest : List Char) :
    scanString (escape ensureAscii c ++ rest) = (scanString rest).map (push c) := by
  have hvalid := toNat_lt c
  have hchar : Char.ofNat c.toNat = c := Char.ofNat_toNat c
  unfold escape
  -- The seven characters with a short escape.
  by_cases h₁ : c = '"'
  · subst h₁; simp [scanString, unescape]
  by_cases h₂ : c = '\\'
  · subst h₂; simp [scanString, unescape]
  by_cases h₃ : c = '\n'
  · subst h₃; simp [scanString, unescape]
  by_cases h₄ : c = '\r'
  · subst h₄; simp [scanString, unescape]
  by_cases h₅ : c = '\t'
  · subst h₅; simp [scanString, unescape]
  by_cases h₆ : c = '\x0c'
  · subst h₆; simp [scanString, unescape]
  by_cases h₇ : c = '\x08'
  · subst h₇; simp [scanString, unescape]
  rw [if_neg h₁, if_neg h₂, if_neg h₃, if_neg h₄, if_neg h₅, if_neg h₆, if_neg h₇]
  -- The control characters have a long escape, and so have the others above ASCII when these
  -- are asked for.
  by_cases hcontrol : c.toNat < 0x20
  · rw [if_pos hcontrol, scanString_unicodeEscape (by omega), hchar]
  · rw [if_neg hcontrol]
    by_cases hascii : (ensureAscii && decide (0x7E < c.toNat)) = true
    · rw [if_pos hascii]
      by_cases hbmp : c.toNat < 0x10000
      · rw [if_pos hbmp, scanString_unicodeEscape (by omega), hchar]
      · have hsum : 0x10000 + (c.toNat - 0x10000) = c.toNat := by omega
        rw [if_neg hbmp, List.append_assoc, scanString_surrogates (by omega), hsum, hchar]
    · rw [if_neg hascii]
      exact (scanString_cons h₁ h₂ rest).trans (if_neg hcontrol)

/-- A string is read back. -/
theorem scanString_flatMap (ensureAscii : Bool) (s rest : List Char) :
    scanString (s.flatMap (escape ensureAscii) ++ '"' :: rest) = some (s, rest) := by
  induction s with
  | nil => rfl
  | cons c s ih =>
      rw [List.flatMap_cons, List.append_assoc, scanString_escape, ih]
      rfl

/-- A character is read as before, if the rest of the string is. -/
theorem push_more {s rest more : List Char} {c : Char} {t : List Char}
    (h : (scanString s).map (push c) = some (t, rest))
    (ih : ∀ {u : List Char}, scanString s = some (u, rest) →
      scanString (s ++ more) = some (u, rest ++ more)) :
    (scanString (s ++ more)).map (push c) = some (t, rest ++ more) := by
  obtain ⟨found, hs, heq⟩ := Option.map_eq_some_iff.mp h
  cases heq
  rw [ih hs]
  rfl

/-- What follows a string does not matter to it. -/
theorem scanString_more {s t rest : List Char} (h : scanString s = some (t, rest))
    (more : List Char) : scanString (s ++ more) = some (t, rest ++ more) := by
  fun_induction scanString s generalizing t with
  | case1 | case3 | case4 | case6 | case7 | case8 | case10 | case12 => cases h
  | case2 =>
      cases h
      rfl
  | case5 a b c d high hhigh hrange a' b' c' d' rest low hlow hrange' ih =>
      simp only [List.cons_append, scanString, hhigh, hlow, if_pos hrange, if_pos hrange']
      exact push_more h ih
  | case9 a b c d rest n hn hhigh hlow ih =>
      simp only [List.cons_append, scanString, hn, if_neg hhigh, if_neg hlow]
      exact push_more h ih
  | case11 c rest hu d hd ih =>
      rw [List.cons_append, List.cons_append, scanString_backslash hd]
      exact push_more h ih
  | case13 c rest hquote hunicode hback hcontrol ih =>
      have hne : c ≠ '\\' := by
        rintro rfl
        -- A backslash at the end of the text.
        cases rest with
        | nil => cases h
        | cons d rest => exact hback d rest rfl rfl
      rw [List.cons_append, scanString_cons hquote hne, if_neg hcontrol]
      exact push_more h ih

/-! ### The items of a dictionary -/

/-- The blanks of a style. -/
theorem isBlank_of_mem_newline {style : Style} {level : Nat} {c : Char}
    (h : c ∈ style.newline level) : isBlank c = true := by
  unfold Style.newline at h
  split at h
  · cases h
  · rcases List.mem_cons.mp h with rfl | hmem
    · rfl
    · exact List.eq_of_mem_replicate hmem ▸ rfl

/-- The optional blank is white space. -/
theorem isBlank_of_mem_blankIf {b : Bool} {c : Char} (h : c ∈ blankIf b) : isBlank c = true := by
  unfold blankIf at h
  split at h
  · exact List.mem_singleton.mp h ▸ rfl
  · cases h

/-- A member is a key, a colon and a value. -/
theorem scanMember_quote {value : Scanner Json} {s key tail tail' : List Char}
    (hkey : scanString s = some (key, tail)) (hcolon : skipBlanks tail = ':' :: tail') :
    scanMember value ('"' :: s)
      = (value (skipBlanks tail')).map fun found => ((key, found.1), found.2) := by
  simp only [scanMember, hkey, Option.bind_some, hcolon]

/-- An item of a dictionary is read back, if its value is. -/
theorem scanMember_memberText {style : Style} {value : Scanner Json} {text : List Char} {v : Json}
    (hvalue : Takes ends value text v) (hstart : ∃ c t, text = c :: t ∧ isBlank c = false)
    (key : List Char) :
    Takes ends (scanMember value) (memberText style key text) (key, v) := by
  intro rest hrest
  have hblank : ∀ c ∈ blankIf style.blankAfterColon, isBlank c = true :=
    fun c => isBlank_of_mem_blankIf
  obtain ⟨c, t, rfl, hc⟩ := hstart
  have hskip : skipBlanks (blankIf style.blankAfterColon ++ (c :: t ++ rest)) = c :: t ++ rest := by
    rw [skipBlanks_append_blank hblank, List.cons_append, skipBlanks_cons hc]
  simp only [memberText, quoted, List.cons_append, List.append_assoc, List.nil_append] at hskip ⊢
  rw [scanMember_quote (scanString_flatMap _ key _) (skipBlanks_cons (by decide) _), hskip,
    ← List.cons_append, hvalue rest hrest]
  rfl

/-- What an item of a dictionary is read as. -/
theorem scanMember_eq_some {value : Scanner Json} {s rest : List Char}
    {found : List Char × Json} (h : scanMember value s = some (found, rest)) :
    ∃ t tail tail', s = '"' :: t ∧ scanString t = some (found.1, tail) ∧
      skipBlanks tail = ':' :: tail' ∧ value (skipBlanks tail') = some (found.2, rest) := by
  unfold scanMember at h
  split at h
  · rename_i t
    obtain ⟨⟨key, tail⟩, hkey, h⟩ := Option.bind_eq_some_iff.mp h
    split at h
    · rename_i tail' hcolon
      obtain ⟨⟨v, r⟩, hv, heq⟩ := Option.map_eq_some_iff.mp h
      cases heq
      exact ⟨t, tail, tail', rfl, hkey, hcolon, hv⟩
    · cases h
  · cases h

/-- More text does not change a member, if it does not change the value. -/
theorem scanMember_prolongs {value value' : Scanner Json} (h : Prolongs ends value value')
    (hnil : value [] = none) : Prolongs ends (scanMember value) (scanMember value') := by
  intro s found rest hs more hmore
  obtain ⟨t, tail, tail', rfl, hkey, hcolon, hv⟩ := scanMember_eq_some hs
  have hne : skipBlanks tail' ≠ [] := by
    intro hempty
    rw [hempty, hnil] at hv
    cases hv
  have hcolon' : skipBlanks (tail ++ more) = ':' :: (tail' ++ more) :=
    skipBlanks_append hcolon (List.cons_ne_nil _ _) more
  rw [List.cons_append, scanMember_quote (scanString_more hkey more) hcolon',
    skipBlanks_append rfl hne, h _ _ _ hv more hmore]
  rfl

/-! ### Values -/

/-- The items of a dictionary without a key that occurs twice. -/
theorem ofPairs_of_nodup {pairs : List (List Char × Json)} (h : (pairs.map Prod.fst).Nodup) :
    ofPairs pairs = pairs := by
  -- The keys of the rest are new, so each pair is added at the end.
  have hfold : ∀ (l : List (List Char × Json)) (d : Dict (List Char) Json),
      ((d.items ++ l).map Prod.fst).Nodup →
        (l.foldl (fun d pair => d.set pair.1 pair.2) d).items = d.items ++ l := by
    intro l
    induction l with
    | nil => exact fun d _ => (List.append_nil _).symm
    | cons pair l ih =>
        intro d hd
        have hnew : pair.1 ∉ d.keys := by
          rw [List.map_append, List.nodup_append] at hd
          exact fun hmem => hd.2.2 pair.1 hmem pair.1 (by simp) rfl
        have hset : (d.set pair.1 pair.2).items = d.items ++ [pair] := by
          rw [Dict.set, dif_neg hnew]
        rw [List.foldl_cons, ih (d.set pair.1 pair.2) (by rw [hset]; simpa using hd), hset]
        simp
  exact hfold pairs .empty h

/-- A value that is read back as it is: it has no number with a fraction or an exponent,
and no key twice. -/
inductive Plain : Json → Prop where
  | null : Plain .null
  | bool (b : Bool) : Plain (.bool b)
  | int (n : Int) : Plain (.int n)
  | str (s : List Char) : Plain (.str s)
  | list {items : List Json} (h : ∀ v ∈ items, Plain v) : Plain (.list items)
  | dict {items : List (List Char × Json)} (hnodup : (items.map Prod.fst).Nodup)
      (h : ∀ item ∈ items, Plain item.2) : Plain (.dict items)

/-- The texts of the items of a list. -/
theorem itemTexts_eq (style : Style) (level : Nat) (items : List Json) :
    itemTexts style level items = items.map (textAt style level) := by
  induction items with
  | nil => rfl
  | cons v items ih => rw [itemTexts, ih, List.map_cons]

/-- The texts of the members of an object. -/
theorem memberTexts_eq (style : Style) (level : Nat) (items : List (List Char × Json)) :
    memberTexts style level items
      = items.map fun item => memberText style item.1 (textAt style level item.2) := by
  induction items with
  | nil => rfl
  | cons item items ih => rw [memberTexts, ih, List.map_cons]

/-- A digit is no blank, and no other character that has a meaning. -/
theorem solid_of_isDigit {c : Char} (h : c.isDigit = true) :
    isBlank c = false ∧ c ≠ ']' ∧ c ≠ '}' := by
  refine ⟨?_, ?_, ?_⟩
  · refine Bool.eq_false_iff.mpr fun hblank => ?_
    simp only [isBlank, Bool.or_eq_true, beq_iff_eq] at hblank
    rcases hblank with ((rfl | rfl) | rfl) | rfl <;> cases h
  · rintro rfl
    cases h
  · rintro rfl
    cases h

/-- The beginning of a text is no blank and no bracket that closes. -/
theorem textAt_start {v : Json} (h : Plain v) (style : Style) (level : Nat) :
    ∃ c t, textAt style level v = c :: t ∧ isBlank c = false ∧ c ≠ ']' ∧ c ≠ '}' := by
  cases h with
  | null => exact ⟨_, _, rfl, by decide⟩
  | bool b => cases b <;> exact ⟨_, _, rfl, by decide⟩
  | int n =>
      cases n with
      | ofNat n =>
          cases hdigits : Nat.toDigits 10 n with
          | nil => exact absurd hdigits Nat.toDigits_ne_nil
          | cons c t =>
              have hdigit : c.isDigit = true :=
                Nat.isDigit_of_mem_toDigits (by decide) (by decide) (hdigits ▸ List.mem_cons_self)
              exact ⟨c, t, hdigits, solid_of_isDigit hdigit⟩
      | negSucc n => exact ⟨_, _, rfl, by decide⟩
  | str s => exact ⟨_, _, rfl, by decide⟩
  | list _ => exact ⟨_, _, rfl, by decide⟩
  | dict _ _ => exact ⟨_, _, rfl, by decide⟩

/-- A text that starts with a digit is read as a number. -/
theorem scan_digit {c : Char} (h : c.isDigit = true) (n : Nat) (t : List Char) :
    scan (n + 1) (c :: t) = scanNumber (c :: t) := by
  unfold scan
  split <;> first | rfl | (rename_i heq; cases heq; cases h)

/-- A text that starts with a sign and a digit is read as a number. -/
theorem scan_minus {c : Char} (h : c.isDigit = true) (n : Nat) (t : List Char) :
    scan (n + 1) ('-' :: c :: t) = scanNumber ('-' :: c :: t) := by
  unfold scan
  split <;> first | rfl | (rename_i heq; cases heq <;> cases h)

/-- A number is read where a value is expected. -/
theorem scan_intText (m : Int) (n : Nat) : Takes ends (scan (n + 1)) (intText m) (.int m) := by
  intro rest hrest
  have hnumber := scanNumber_intText m rest hrest
  have hhead : ∀ k, ∃ c t, Nat.toDigits 10 k = c :: t ∧ c.isDigit = true := fun k => by
    cases hdigits : Nat.toDigits 10 k with
    | nil => exact absurd hdigits Nat.toDigits_ne_nil
    | cons c t =>
        exact ⟨c, t, rfl, Nat.isDigit_of_mem_toDigits (b := 10) (n := k) (by decide) (by decide)
          (hdigits ▸ List.mem_cons_self)⟩
  cases m with
  | ofNat k =>
      obtain ⟨c, t, hdigits, hc⟩ := hhead k
      simp only [intText, hdigits, List.cons_append] at hnumber ⊢
      rw [scan_digit hc, hnumber]
  | negSucc k =>
      obtain ⟨c, t, hdigits, hc⟩ := hhead (k + 1)
      simp only [intText, hdigits, List.cons_append] at hnumber ⊢
      rw [scan_minus hc, hnumber]

/-- A block is read back, if its items are. -/
theorem enclosed_block {α : Type} {item : Scanner α} {text : α → List Char} {xs : List α}
    (opening : Char) {close : Char}
    (hclose : ends close = true ∧ close ≠ ',' ∧ isBlank close = false)
    (htakes : ∀ y ∈ xs, Takes ends item (text y) y)
    (hstart : ∀ y ∈ xs, ∃ c t, text y = c :: t ∧ isBlank c = false ∧ c ≠ close)
    (style : Style) (level : Nat) (rest : List Char) :
    ∃ t, block style level opening close (xs.map text) ++ rest = opening :: t ∧
      enclosed close item t = some (xs, rest) := by
  refine ⟨_, List.cons_append, enclosed_bracketed (fun c => ends_of_isBlank) (by decide) hclose.1
    hclose.2.1 hclose.2.2 (fun c => isBlank_of_mem_newline) (fun c hc => ?_)
    (fun c => isBlank_of_mem_newline) htakes hstart rest⟩
  exact (List.mem_append.mp hc).elim isBlank_of_mem_blankIf isBlank_of_mem_newline

/-- A text of a block is shorter than the block. -/
theorem length_lt_block (style : Style) (level : Nat) (opening close : Char)
    {texts : List (List Char)} {text : List Char} (h : text ∈ texts) :
    text.length < (block style level opening close texts).length := by
  cases texts with
  | nil => cases h
  | cons t ts =>
      simp only [block, bracketed, List.length_cons, List.length_append]
      rcases List.mem_cons.mp h with rfl | htail
      · omega
      · have hle := (List.sublist_flatten_of_mem (List.mem_map_of_mem
          (f := fun t => ',' :: (blankIf style.blankAfterComma ++ style.newline (level + 1)) ++ t)
          htail)).length_le
        simp only [← List.flatMap_def, List.length_append, List.length_cons] at hle
        omega

/-- The text of a member contains the text of its value. -/
theorem length_le_memberText (style : Style) (key text : List Char) :
    text.length ≤ (memberText style key text).length := by
  simp only [memberText, List.length_append, List.length_cons]
  omega

/-- A value is read back from its text. -/
theorem scan_textAt {v : Json} (h : Plain v) (style : Style) (level : Nat) {n : Nat}
    (hn : (textAt style level v).length ≤ n) : Takes ends (scan n) (textAt style level v) v := by
  intro rest hrest
  -- The induction is on the value. The fuel is the length of the text, which is more than
  -- that of every part.
  induction h generalizing level n rest with
  | null =>
      obtain ⟨n, rfl⟩ := Nat.exists_eq_add_of_le' (Nat.le_trans (by decide : 1 ≤ 4) hn)
      rfl
  | bool b =>
      cases b with
      | false =>
          obtain ⟨n, rfl⟩ := Nat.exists_eq_add_of_le' (Nat.le_trans (by decide : 1 ≤ 5) hn)
          rfl
      | true =>
          obtain ⟨n, rfl⟩ := Nat.exists_eq_add_of_le' (Nat.le_trans (by decide : 1 ≤ 4) hn)
          rfl
  | int m =>
      obtain ⟨c, t, htext, -⟩ := textAt_start (.int m) style level
      rw [htext, List.length_cons] at hn
      obtain ⟨n, rfl⟩ := Nat.exists_eq_add_of_le' (Nat.le_trans (Nat.le_add_left 1 _) hn)
      exact scan_intText m n rest hrest
  | str s =>
      simp only [textAt, quoted, List.length_cons] at hn
      obtain ⟨n, rfl⟩ := Nat.exists_eq_add_of_le' (Nat.le_trans (Nat.le_add_left 1 _) hn)
      simp only [textAt, quoted, List.cons_append, List.append_assoc, List.nil_append, scan]
      rw [scanString_flatMap]
      rfl
  | list hitems ih =>
      rename_i items
      rw [textAt, itemTexts_eq] at hn ⊢
      have hpos : 1 ≤ (block style level '[' ']' (items.map (textAt style (level + 1)))).length :=
        Nat.le_add_left 1 _
      obtain ⟨n, rfl⟩ := Nat.exists_eq_add_of_le' (Nat.le_trans hpos hn)
      have htakes : ∀ v ∈ items, Takes ends (scan n) (textAt style (level + 1) v) v := by
        intro v hv rest hrest
        have hlt := length_lt_block style level '[' ']'
          (List.mem_map_of_mem (f := textAt style (level + 1)) hv)
        exact ih v hv (level + 1) (by omega) rest hrest
      obtain ⟨t, htext, hlist⟩ := enclosed_block '[' (show ends ']' = true ∧ _ by decide) htakes
        (fun v hv => (textAt_start (hitems v hv) style (level + 1)).imp fun c hc =>
          hc.imp fun t ht => ⟨ht.1, ht.2.1, ht.2.2.1⟩) style level rest
      rw [htext]
      show (enclosed ']' (scan n) t).map _ = _
      rw [hlist]
      rfl
  | dict hnodup hitems ih =>
      rename_i items
      rw [textAt, memberTexts_eq] at hn ⊢
      have hpos : 1 ≤ (block style level '{' '}' (items.map fun item =>
          memberText style item.1 (textAt style (level + 1) item.2))).length :=
        Nat.le_add_left 1 _
      obtain ⟨n, rfl⟩ := Nat.exists_eq_add_of_le' (Nat.le_trans hpos hn)
      have htakes : ∀ item ∈ items, Takes ends (scanMember (scan n))
          (memberText style item.1 (textAt style (level + 1) item.2)) item := by
        intro item hitem
        refine scanMember_memberText (fun rest hrest => ?_)
          ((textAt_start (hitems item hitem) style (level + 1)).imp fun c hc =>
            hc.imp fun t ht => ⟨ht.1, ht.2.1⟩) item.1
        have hlt := length_lt_block style level '{' '}'
          (List.mem_map_of_mem
            (f := fun item => memberText style item.1 (textAt style (level + 1) item.2)) hitem)
        have hle := length_le_memberText style item.1 (textAt style (level + 1) item.2)
        exact ih item hitem (level + 1) (by omega) rest hrest
      obtain ⟨t, htext, hdict⟩ := enclosed_block '{' (show ends '}' = true ∧ _ by decide) htakes
        (fun item _ => ⟨_, _, rfl, by decide⟩) style level rest
      rw [htext]
      show (enclosed '}' (scanMember (scan n)) t).map _ = _
      rw [hdict, Option.map_some, ofPairs_of_nodup hnodup]

/-! ### A longer text -/

/-- More text does not change a literal. -/
theorem literal_more {text s rest : List Char} {v found : Json}
    (h : literal text v s = some (found, rest)) (more : List Char) :
    literal text v (s ++ more) = some (found, rest ++ more) := by
  unfold literal at h ⊢
  split at h
  · rename_i hprefix
    cases h
    obtain ⟨t, rfl⟩ := List.isPrefixOf_iff_prefix.mp hprefix
    have hlonger : text <+: text ++ t ++ more :=
      (List.prefix_append text t).trans (List.prefix_append _ _)
    rw [if_pos (List.isPrefixOf_iff_prefix.mpr hlonger), List.append_assoc, List.drop_left,
      List.drop_left]
  · cases h

/-- A number begins with a digit, or with a sign and a digit. -/
theorem scanNumber_head {s : List Char} {found : Json × List Char} (h : scanNumber s = some found) :
    ∃ c t, c.isDigit = true ∧ (s = c :: t ∨ s = '-' :: c :: t) := by
  -- Behind the sign every number starts with a digit.
  have hunsigned : ∀ {minus s}, scanUnsigned minus s = some found →
      ∃ c t, c.isDigit = true ∧ s = c :: t := by
    intro minus s h
    obtain ⟨whole, hwhole, -⟩ := Option.map_eq_some_iff.mp h
    cases s with
    | nil => cases hwhole
    | cons c t =>
        refine ⟨c, t, ?_, rfl⟩
        by_cases hc : c = '0'
        · subst hc
          rfl
        · rw [scanDigits_of_head (s := c :: t) fun heq => hc (Option.some.inj heq)] at hwhole
          split at hwhole
          · cases hwhole
          · rename_i hdigits
            by_contra hdigit
            exact hdigits (List.takeWhile_cons_of_neg hdigit)
  cases s with
  | nil => cases h
  | cons c t =>
      by_cases hc : c = '-'
      · subst hc
        obtain ⟨d, t, hd, rfl⟩ := hunsigned (s := t) h
        exact ⟨d, t, hd, .inr rfl⟩
      · rw [scanNumber_of_head (s := c :: t) fun heq => hc (Option.some.inj heq)] at h
        obtain ⟨d, t, hd, heq⟩ := hunsigned h
        exact ⟨d, t, hd, .inl heq⟩

/-- A number is the value that the text starts with. -/
theorem scan_number {s : List Char} {found : Json × List Char} (h : scanNumber s = some found)
    (n : Nat) (more : List Char) : scan (n + 1) (s ++ more) = scanNumber (s ++ more) := by
  obtain ⟨c, t, hc, rfl | rfl⟩ := scanNumber_head h
  · exact scan_digit hc n (t ++ more)
  · exact scan_minus hc n (t ++ more)

/-- The empty text has no value. -/
theorem scan_nil (n : Nat) : scan n [] = none := by
  cases n with
  | zero => rfl
  | succ n => rfl

/-- The text begins with a bracket or a quote, so that its end is seen. -/
def Opens (s : List Char) : Prop := ∃ c ∈ ['"', '[', '{'], s.head? = some c

/-- What is read does not change when the text goes on, nor with a greater bound on the
depth. -/
theorem scan_more {n m : Nat} (hnm : n ≤ m) {s rest : List Char} {v : Json}
    (h : scan n s = some (v, rest)) (more : List Char)
    (hmore : (more = [] ∨ rest ≠ [] ∧ Follows ends rest) ∨ Opens s) :
    scan m (s ++ more) = some (v, rest ++ more) := by
  induction n generalizing m s rest v more with
  | zero => cases h
  | succ n ih =>
      obtain ⟨m, rfl⟩ := Nat.exists_eq_add_of_le' hnm
      rw [← Nat.add_assoc]
      have hitem : Prolongs ends (scan n) (scan (m + n)) := fun s v rest h more hmore =>
        ih (Nat.le_add_left n m) h more (.inl hmore)
      have hlist : ∀ {α : Type} {item item' : Scanner α}, Prolongs ends item item' →
          item [] = none → ∀ {close t rest xs}, ends close = true →
          enclosed close item t = some (xs, rest) →
            enclosed close item' (t ++ more) = some (xs, rest ++ more) :=
        fun hitem hnil _ _ _ _ hclose hs =>
          hitem.enclosed hnil (fun c => ends_of_isBlank) (by decide) hclose hs more
      unfold scan at h
      -- The three kinds of values with an end of their own, then the literals.
      split at h
      · obtain ⟨found, hfound, heq⟩ := Option.map_eq_some_iff.mp h
        cases heq
        rw [List.cons_append, scan, scanString_more hfound more]
        rfl
      · obtain ⟨found, hfound, heq⟩ := Option.map_eq_some_iff.mp h
        cases heq
        rw [List.cons_append, scan, hlist hitem (scan_nil n) (by decide) hfound]
        rfl
      · obtain ⟨found, hfound, heq⟩ := Option.map_eq_some_iff.mp h
        cases heq
        rw [List.cons_append, scan,
          hlist (scanMember_prolongs hitem (scan_nil n)) rfl (by decide) hfound]
        rfl
      · exact literal_more h more
      · exact literal_more h more
      · exact literal_more h more
      · exact literal_more h more
      · exact literal_more h more
      · exact literal_more h more
      · -- A number ends where the text ends, or with a character that may follow.
        rename_i hquote hlist hdict _ _ _ _ _ _
        rw [scan_number h]
        refine scanNumber_prolongs s v rest h more (hmore.resolve_right ?_)
        rintro ⟨c, hc, hhead⟩
        obtain ⟨d, t, hd, rfl | rfl⟩ := scanNumber_head h
        · cases hhead
          rcases List.mem_cons.mp hc with rfl | hc
          · cases hd
          · rcases List.mem_cons.mp hc with rfl | hc
            · cases hd
            · cases List.mem_singleton.mp hc
              cases hd
        · cases hhead
          revert hc
          decide

/-! ### Texts -/

/-- The round trip: a value is read back from its text, with blanks around it. -/
theorem loads_dumps {v : Json} (h : Plain v) (style : Style) {before after : List Char}
    (hbefore : ∀ c ∈ before, isBlank c = true) (hafter : ∀ c ∈ after, isBlank c = true) :
    loads (before ++ dumps style v ++ after) = some v := by
  obtain ⟨c, t, htext, hc, -⟩ := textAt_start h style 0
  have hfollows : Follows ends after := by
    have hnil := Follows.blanks (fun c => ends_of_isBlank) hafter (Follows.nil ends)
    rwa [List.append_nil] at hnil
  have hscan := scan_textAt h style 0 (n := (before ++ dumps style v ++ after).length) (by
    simp only [dumps, List.length_append]; omega) after hfollows
  have hskip : skipBlanks (before ++ dumps style v ++ after) = textAt style 0 v ++ after := by
    rw [List.append_assoc, skipBlanks_append_blank hbefore, dumps, htext, List.cons_append,
      skipBlanks_cons hc]
  have hend : skipBlanks after = [] := by
    have hskip := skipBlanks_append_blank hafter []
    rwa [List.append_nil] at hskip
  rw [loads, hskip, hscan, Option.bind_some, if_pos hend]

/-- No beginning of the text of a string, a list or a dictionary is a text. -/
theorem loads_eq_none_of_cut {v : Json} (h : Plain v) {style : Style}
    (hopens : Opens (dumps style v)) {part missing : List Char}
    (hcut : dumps style v = part ++ missing) (hne : missing ≠ []) : loads part = none := by
  cases hloads : loads part with
  | none => rfl
  | some w =>
      obtain ⟨⟨w', rest⟩, hscan, hrest⟩ := Option.bind_eq_some_iff.mp hloads
      have hpart : part ≠ [] := by
        rintro rfl
        cases hscan
      obtain ⟨c, t, htext, hc, -⟩ := textAt_start h style 0
      cases part with
      | nil => exact absurd rfl hpart
      | cons d part =>
          rw [dumps, htext, List.cons_append] at hcut
          cases hcut
          rw [skipBlanks_cons hc] at hscan
          -- The whole text would be read as its beginning is.
          have hlonger := scan_more (m := (c :: (part ++ missing)).length) (by simp) hscan
            missing (.inr (by rwa [dumps, htext] at hopens))
          have hwhole := scan_textAt h style 0 (n := (c :: (part ++ missing)).length)
            (Nat.le_of_eq (congrArg List.length htext)) [] (Follows.nil ends)
          rw [htext, List.append_nil] at hwhole
          rw [List.cons_append] at hlonger
          have heq := hlonger.symm.trans hwhole
          rw [Option.some.injEq, Prod.mk.injEq, List.append_eq_nil_iff] at heq
          exact absurd heq.2.2 hne

end HangAnalyzer.Lib.Json
