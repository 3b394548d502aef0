import HangAnalyzer.Lib.JsonText

/-!
# `HangAnalyzer.Lib.JsonChars`: the characters in the texts of `dumps`

A text has printable ASCII characters, the line ends of its indentation, and, unless
`ensure_ascii` is set, the characters of its strings that are outside of ASCII.
-/

set_option autoImplicit false

namespace HangAnalyzer.Lib.Json

open Scanner

/-- The character occurs in a string of the value. -/
inductive Has (c : Char) : Json → Prop where
  | str {s : List Char} (h : c ∈ s) : Has c (.str s)
  | item {items : List Json} {v : Json} (hv : v ∈ items) (h : Has c v) : Has c (.list items)
  | key {items : List (List Char × Json)} {item : List Char × Json} (hitem : item ∈ items)
      (h : c ∈ item.1) : Has c (.dict items)
  | value {items : List (List Char × Json)} {item : List Char × Json} (hitem : item ∈ items)
      (h : Has c item.2) : Has c (.dict items)

/-- A character of an object is one of a key or one of a value. -/
theorem has_dict_iff {c : Char} {items : List (List Char × Json)} :
    Has c (.dict items) ↔ ∃ item ∈ items, c ∈ item.1 ∨ Has c item.2 := by
  constructor
  · rintro (_ | _ | ⟨hitem, h⟩ | ⟨hitem, h⟩)
    · exact ⟨_, hitem, .inl h⟩
    · exact ⟨_, hitem, .inr h⟩
  · rintro ⟨item, hitem, h | h⟩
    · exact .key hitem h
    · exact .value hitem h

/-- No character of the text is outside of ASCII. -/
def isAscii (s : List Char) : Bool := s.all fun c => decide (c.toNat ≤ 0x7E)

/-- An ASCII string has no character behind the printable ones. -/
theorem not_mem_of_isAscii {s : List Char} (h : isAscii s = true) {c : Char}
    (hc : 0x7E < c.toNat) : c ∉ s := fun hmem => by
  have hle := of_decide_eq_true (List.all_eq_true.mp h c hmem)
  omega

/-- When the keys are ASCII, the other characters are those of the values. -/
theorem has_dict_iff_of_keys {c : Char} {items : List (List Char × Json)} (hc : 0x7E < c.toNat)
    (hkeys : ∀ key ∈ items.map Prod.fst, isAscii key = true) :
    Has c (.dict items) ↔ ∃ item ∈ items, Has c item.2 := by
  rw [has_dict_iff]
  refine exists_congr fun item => and_congr_right fun hitem => or_iff_right fun hkey => ?_
  exact not_mem_of_isAscii (hkeys item.1 (List.mem_map_of_mem hitem)) hc hkey

/-- A character of a string is one that it has. -/
@[simp] theorem has_str_iff {c : Char} {s : List Char} : Has c (.str s) ↔ c ∈ s :=
  ⟨fun h => by cases h; assumption, .str⟩

/-- `null` has no strings. -/
@[simp] theorem not_has_null (c : Char) : ¬ Has c .null := fun h => by cases h

/-- A boolean has no strings. -/
@[simp] theorem not_has_bool (c : Char) (b : Bool) : ¬ Has c (.bool b) := fun h => by cases h

/-- A number has no strings. -/
@[simp] theorem not_has_int (c : Char) (n : Int) : ¬ Has c (.int n) := fun h => by cases h

/-- The character is in the ASCII table, and no control character. -/
def Printable (c : Char) : Prop := 0x20 ≤ c.toNat ∧ c.toNat ≤ 0x7E

instance (c : Char) : Decidable (Printable c) :=
  inferInstanceAs (Decidable (_ ∧ _))

/-- The test of a closed text. -/
theorem printable_of_all {s : List Char} (h : (s.all fun c => decide (Printable c)) = true) :
    ∀ c ∈ s, Printable c := fun c hc => of_decide_eq_true (List.all_eq_true.mp h c hc)

/-- Hexadecimal digits are printable. -/
theorem printable_digitChar : ∀ d < 16, Printable d.digitChar := by decide

/-- An escape is printable. -/
theorem printable_unicodeEscape {n : Nat} {c : Char} (h : c ∈ unicodeEscape n) : Printable c := by
  have hdigit : ∀ m, Printable (m % 16).digitChar := fun m =>
    printable_digitChar _ (Nat.mod_lt _ (by decide))
  simp only [unicodeEscape, hex4, List.mem_cons, List.not_mem_nil, or_false] at h
  rcases h with rfl | rfl | rfl | rfl | rfl | rfl
  · decide
  · decide
  all_goals exact hdigit _

/-- A character is escaped, or stands for itself. -/
theorem mem_escape {ensureAscii : Bool} {c d : Char} (h : c ∈ escape ensureAscii d) :
    Printable c ∨ ensureAscii = false ∧ c = d ∧ 0x7E < c.toNat := by
  -- The short escapes have two characters each.
  have htwo : ∀ {a b : Char}, Printable a → Printable b → c ∈ [a, b] → Printable c := by
    intro a b ha hb hc
    rcases List.mem_cons.mp hc with rfl | hc
    · exact ha
    · exact List.mem_singleton.mp hc ▸ hb
  unfold escape at h
  split at h
  · exact .inl (htwo (by decide) (by decide) h)
  split at h
  · exact .inl (htwo (by decide) (by decide) h)
  split at h
  · exact .inl (htwo (by decide) (by decide) h)
  split at h
  · exact .inl (htwo (by decide) (by decide) h)
  split at h
  · exact .inl (htwo (by decide) (by decide) h)
  split at h
  · exact .inl (htwo (by decide) (by decide) h)
  split at h
  · exact .inl (htwo (by decide) (by decide) h)
  split at h
  · exact .inl (printable_unicodeEscape h)
  rename_i hcontrol
  split at h
  · split at h
    · exact .inl (printable_unicodeEscape h)
    · exact .inl ((List.mem_append.mp h).elim printable_unicodeEscape printable_unicodeEscape)
  · -- The character stands for itself, because it is printable or because it may.
    rename_i hascii
    obtain rfl := List.mem_singleton.mp h
    by_cases hc : c.toNat ≤ 0x7E
    · exact .inl ⟨Nat.le_of_not_lt hcontrol, hc⟩
    · refine .inr ⟨?_, rfl, Nat.lt_of_not_le hc⟩
      simpa [Nat.lt_of_not_le hc] using hascii

/-- The characters of a block are those of its texts and of what stands between them. -/
theorem mem_block {style : Style} {level : Nat} {opening close c : Char}
    {texts : List (List Char)} (h : c ∈ block style level opening close texts) :
    c = opening ∨ c = close ∨ c = ',' ∨ c = ' ' ∨ (c = '\n' ∧ style.indent ≠ none) ∨
      ∃ text ∈ texts, c ∈ text := by
  -- A new line has blanks and, when the text is indented, a line end.
  have hline : ∀ {level}, c ∈ style.newline level → c = ' ' ∨ (c = '\n' ∧ style.indent ≠ none) := by
    intro level hc
    unfold Style.newline at hc
    split at hc
    · cases hc
    · rename_i k hk
      rcases List.mem_cons.mp hc with rfl | hc
      · exact .inr ⟨rfl, by rw [hk]; exact Option.some_ne_none k⟩
      · exact .inl (List.eq_of_mem_replicate hc)
  have hblank : ∀ {b : Bool}, c ∈ blankIf b → c = ' ' := by
    intro b hc
    unfold blankIf at hc
    split at hc
    · exact List.mem_singleton.mp hc
    · cases hc
  unfold block at h
  rcases List.mem_cons.mp h with rfl | h
  · exact .inl rfl
  cases texts with
  | nil => exact .inr (.inl (List.mem_singleton.mp h))
  | cons text texts =>
      simp only [bracketed, List.mem_append, List.mem_flatMap, List.mem_cons,
        List.not_mem_nil, or_false] at h
      -- One of the brackets, a comma, a blank, a line end or a character of an item.
      rcases h with (((h | h) | ⟨t, ht, (rfl | h | h) | h⟩) | h) | rfl
      · rcases hline h with rfl | h
        · simp
        · simp [h]
      · exact .inr (.inr (.inr (.inr (.inr ⟨text, List.mem_cons_self, h⟩))))
      · simp
      · simp [hblank h]
      · rcases hline h with rfl | h
        · simp
        · simp [h]
      · exact .inr (.inr (.inr (.inr (.inr ⟨t, List.mem_cons_of_mem text ht, h⟩))))
      · rcases hline h with rfl | h
        · simp
        · simp [h]
      · simp

/-- A quoted string is printable up to the characters that it keeps unescaped. -/
theorem mem_quoted {ensureAscii : Bool} {c : Char} {s : List Char}
    (h : c ∈ quoted ensureAscii s) :
    Printable c ∨ ensureAscii = false ∧ c ∈ s ∧ 0x7E < c.toNat := by
  simp only [quoted, List.mem_cons, List.mem_append, List.mem_flatMap, List.not_mem_nil,
    or_false] at h
  rcases h with rfl | ⟨d, hd, hc⟩ | rfl
  · exact .inl (by decide)
  · rcases mem_escape hc with hprint | ⟨hascii, rfl, hnat⟩
    · exact .inl hprint
    · exact .inr ⟨hascii, hd, hnat⟩
  · exact .inl (by decide)

/-- Decimal digits are printable. -/
theorem printable_toDigits {n : Nat} {c : Char} (h : c ∈ Nat.toDigits 10 n) : Printable c := by
  have hdigit := Nat.isDigit_of_mem_toDigits (b := 10) (n := n) (by decide) (by decide) h
  rw [Char.isDigit, Bool.and_eq_true, decide_eq_true_eq, decide_eq_true_eq] at hdigit
  exact ⟨Nat.le_trans (by decide) hdigit.1, Nat.le_trans hdigit.2 (by decide)⟩

/-- What holds of the printable characters, of the line end of an indented text, and of the
other characters of the strings holds of every character of the text. -/
theorem textAt_all {P : Char → Prop} {style : Style} (hprint : ∀ c, Printable c → P c)
    (hline : style.indent ≠ none → P '\n') {v : Json} (h : Plain v)
    (hchar : style.ensureAscii = false → ∀ c, Has c v → 0x7E < c.toNat → P c) (level : Nat) :
    ∀ c ∈ textAt style level v, P c := by
  -- The marks of a block are printable, up to the line ends.
  have hblock : ∀ {level : Nat} {opening close c : Char} {texts : List (List Char)},
      Printable opening → Printable close → (∀ text ∈ texts, ∀ c ∈ text, P c) →
        c ∈ block style level opening close texts → P c := by
    intro level opening close c texts hopening hclose htexts hc
    rcases mem_block hc with rfl | rfl | rfl | rfl | ⟨rfl, hindent⟩ | ⟨text, htext, hc⟩
    · exact hprint _ hopening
    · exact hprint _ hclose
    · exact hprint _ (by decide)
    · exact hprint _ (by decide)
    · exact hline hindent
    · exact htexts text htext c hc
  have hquoted : ∀ {s : List Char}, (style.ensureAscii = false → ∀ c ∈ s, 0x7E < c.toNat → P c) →
      ∀ c ∈ quoted style.ensureAscii s, P c := by
    intro s hs c hc
    rcases mem_quoted hc with hc | ⟨hascii, hmem, hc⟩
    · exact hprint c hc
    · exact hs hascii c hmem hc
  induction h generalizing level with
  | null =>
      have hnull : ∀ c ∈ "null".toList, Printable c := printable_of_all (by decide)
      exact fun c hc => hprint c (hnull c hc)
  | bool b =>
      have hfalse : ∀ c ∈ "false".toList, Printable c := printable_of_all (by decide)
      have htrue : ∀ c ∈ "true".toList, Printable c := printable_of_all (by decide)
      cases b with
      | false => exact fun c hc => hprint c (hfalse c hc)
      | true => exact fun c hc => hprint c (htrue c hc)
  | int n =>
      intro c hc
      cases n with
      | ofNat n => exact hprint c (printable_toDigits hc)
      | negSucc n =>
          rcases List.mem_cons.mp hc with rfl | hc
          · exact hprint _ (by decide)
          · exact hprint c (printable_toDigits hc)
  | str s => exact hquoted fun hascii c hc => hchar hascii c (.str hc)
  | list _ ih =>
      intro c hc
      rw [textAt, itemTexts_eq] at hc
      refine hblock (by decide) (by decide) (fun text htext => ?_) hc
      obtain ⟨v, hv, rfl⟩ := List.mem_map.mp htext
      exact ih v hv (fun hascii c hc => hchar hascii c (.item hv hc)) (level + 1)
  | dict _ _ ih =>
      intro c hc
      rw [textAt, memberTexts_eq] at hc
      refine hblock (by decide) (by decide) (fun text htext c hc => ?_) hc
      obtain ⟨item, hitem, rfl⟩ := List.mem_map.mp htext
      rcases List.mem_append.mp hc with hc | hc
      · exact hquoted (fun hascii c hc => hchar hascii c (.key hitem hc)) c hc
      · rcases List.mem_cons.mp hc with rfl | hc
        · exact hprint _ (by decide)
        · rcases List.mem_append.mp hc with hc | hc
          · unfold blankIf at hc
            split at hc
            · exact List.mem_singleton.mp hc ▸ hprint ' ' (by decide)
            · cases hc
          · exact ih item hitem (fun hascii c hc => hchar hascii c (.value hitem hc))
              (level + 1) c hc

/-- A text of a block stands in the block. -/
theorem mem_block_of_mem {style : Style} {level : Nat} {opening close c : Char}
    {texts : List (List Char)} {text : List Char} (htext : text ∈ texts) (h : c ∈ text) :
    c ∈ block style level opening close texts := by
  refine List.mem_cons_of_mem opening ?_
  cases texts with
  | nil => cases htext
  | cons t texts =>
      simp only [bracketed, List.mem_append, List.mem_flatMap]
      rcases List.mem_cons.mp htext with rfl | htext
      · exact .inl (.inl (.inl (.inr h)))
      · exact .inl (.inl (.inr ⟨text, htext, .inr h⟩))

/-- A character that needs no escape stands in the text. -/
theorem mem_textAt_of_has {c : Char} {v : Json} (h : Has c v) {style : Style}
    (hstyle : style.ensureAscii = false) (hc : 0x7E < c.toNat) (level : Nat) :
    c ∈ textAt style level v := by
  -- Such a character is kept unescaped, because none of the escapes is for it.
  have hescape : ∀ {s : List Char}, c ∈ s → c ∈ quoted style.ensureAscii s := by
    intro s hs
    refine List.mem_cons_of_mem _ (List.mem_append_left _ (List.mem_flatMap.mpr ⟨c, hs, ?_⟩))
    have hne : ∀ d : Char, d.toNat ≤ 0x7E → c ≠ d := fun d hd heq => by
      subst heq
      omega
    rw [escape, if_neg (hne _ (by decide)), if_neg (hne _ (by decide)), if_neg (hne _ (by decide)),
      if_neg (hne _ (by decide)), if_neg (hne _ (by decide)), if_neg (hne _ (by decide)),
      if_neg (hne _ (by decide)), if_neg (by omega), hstyle]
    exact List.mem_singleton.mpr rfl
  -- The induction is on the place where the character occurs.
  induction h generalizing level with
  | str h => exact hescape h
  | item hv _ ih =>
      rw [textAt, itemTexts_eq]
      exact mem_block_of_mem (List.mem_map_of_mem hv) (ih (level + 1))
  | key hitem h =>
      rw [textAt, memberTexts_eq]
      exact mem_block_of_mem (List.mem_map_of_mem hitem) (List.mem_append_left _ (hescape h))
  | value hitem _ ih =>
      rw [textAt, memberTexts_eq]
      exact mem_block_of_mem (List.mem_map_of_mem hitem) (List.mem_append_right _
        (List.mem_cons_of_mem _ (List.mem_append_right _ (ih (level + 1)))))

end HangAnalyzer.Lib.Json
