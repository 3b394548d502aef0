import Mathlib.Data.List.Infix
import HangAnalyzer.Sampler.Capture

/-!
# `HangAnalyzer.Proofs.Sampler.Usages`: what `parse_usages` finds

`usage_of_sample` says that the usage of a sample is the number that `npu-smi` prints
behind the label, whatever the other lines are, as long as the label occurs only once. The
expression may match from an earlier line on, when blank lines stand in front of the label.
The number is the same then.

`\d` finds the decimal digits of every script, and `int` converts 4300 of them at most. So
the number can have leading zeros or foreign digits, and one that is too long makes the
sample an error, behind whichever of the four labels it stands. A usage that was found can be
written and read again without the limit (`usage_lt`).
-/

set_option autoImplicit false

namespace HangAnalyzer.Sampler

open HangAnalyzer.Lib

/-- White space only. -/
def Blank (s : List Char) : Prop := ∀ c ∈ s, isSpace c = true

instance (s : List Char) : Decidable (Blank s) :=
  decidable_of_iff (s.all isSpace = true) List.all_eq_true

/-! ### A match -/

/-- Leading white space is skipped, and nothing more. -/
theorem dropWhile_blank {s t : List Char} (hs : Blank s) (ht : ∀ c ∈ t.head?, isSpace c = false) :
    (s ++ t).dropWhile isSpace = t := by
  rw [List.dropWhile_append_of_pos hs]
  cases t with
  | nil => rfl
  | cons c t => exact List.dropWhile_cons_of_neg (by simp [ht c rfl])

/-- No white space stands among the digits of a script. -/
theorem apart_of_mem_decimalZeros : ∀ first ∈ decimalZeros,
    (first = 0x30 ∨ 0xA0 < first) ∧ (first + 10 ≤ 0x1680 ∨ 0x1680 < first) ∧
      (first + 10 ≤ 0x2000 ∨ 0x205F < first) ∧ (first + 10 ≤ 0x3000 ∨ 0x3000 < first) := by
  decide

/-- A decimal digit is one of the ten digits of its script. -/
theorem exists_of_isDecimal {c : Char} (h : isDecimal c = true) :
    ∃ first ∈ decimalZeros, first ≤ c.toNat ∧ c.toNat < first + 10 := by
  rw [isDecimal, decimal, Option.isSome_map] at h
  obtain ⟨first, hfirst⟩ := Option.isSome_iff_exists.mp h
  have hrange := List.find?_some hfirst
  rw [Bool.and_eq_true, decide_eq_true_eq, decide_eq_true_eq] at hrange
  exact ⟨first, List.mem_of_find?_eq_some hfirst, hrange⟩

/-- No decimal digit is white space. -/
theorem isSpace_of_isDecimal {c : Char} (h : isDecimal c = true) : isSpace c = false := by
  obtain ⟨first, hmem, hlow, hhigh⟩ := exists_of_isDecimal h
  have hapart := apart_of_mem_decimalZeros first hmem
  simp only [isSpace, Bool.or_eq_false_iff, Bool.and_eq_false_iff, decide_eq_false_iff_not,
    beq_eq_false_iff_ne]
  omega

/-- What ends the line ends the number. -/
theorem isDecimal_of_endsLine {tail : List Char} (h : endsLine tail = true) :
    ∀ c ∈ tail.head?, isDecimal c = false := by
  intro c hc
  cases tail with
  | nil => cases hc
  | cons d tail =>
      cases hc
      cases hdecimal : isDecimal c with
      | false => rfl
      | true => simp [endsLine, isSpace_of_isDecimal hdecimal] at h

/-- The digits end where the line does. -/
theorem takeWhile_digits {digits tail : List Char} (hdigits : ∀ c ∈ digits, isDecimal c = true)
    (htail : endsLine tail = true) :
    (digits ++ tail).takeWhile isDecimal = digits ∧
      (digits ++ tail).dropWhile isDecimal = tail := by
  have hend := isDecimal_of_endsLine htail
  rw [List.takeWhile_append_of_pos hdigits, List.dropWhile_append_of_pos hdigits]
  cases tail with
  | nil => exact ⟨List.append_nil digits, rfl⟩
  | cons c tail =>
      have hc : ¬ isDecimal c = true := by simp [hend c rfl]
      rw [List.takeWhile_cons_of_neg hc, List.dropWhile_cons_of_neg hc]
      exact ⟨List.append_nil digits, rfl⟩

/-- The number behind the label is found. -/
theorem matchValue_eq {digits mid after tail : List Char} (hne : digits ≠ [])
    (hdigits : ∀ c ∈ digits, isDecimal c = true) (hmid : Blank mid) (hafter : Blank after)
    (htail : endsLine tail = true) :
    matchValue (mid ++ ':' :: (after ++ (digits ++ tail))) = some digits := by
  have hhead : ∀ c ∈ (digits ++ tail).head?, isSpace c = false := fun c hc => by
    rw [List.head?_append_of_ne_nil _ hne] at hc
    exact isSpace_of_isDecimal (hdigits c (List.mem_of_mem_head? hc))
  have hcolon : ∀ c ∈ (':' :: (after ++ (digits ++ tail))).head?, isSpace c = false :=
    fun c hc => by
      cases hc
      decide
  obtain ⟨htake, hdrop⟩ := takeWhile_digits hdigits htail
  rw [matchValue, dropWhile_blank hmid hcolon]
  simp only [dropWhile_blank hafter hhead, htake, hdrop]
  exact if_pos ⟨hne, htail⟩

section Label

variable {label : List Char}

/-- Behind the label the value decides. -/
theorem matchUsage_append (hlabel : ∀ c ∈ label.head?, isSpace c = false) (hne : label ≠ [])
    {before : List Char} (hbefore : Blank before) (rest : List Char) :
    matchUsage label (before ++ (label ++ rest)) = matchValue rest := by
  have hhead : ∀ c ∈ (label ++ rest).head?, isSpace c = false := fun c hc => by
    rw [List.head?_append_of_ne_nil _ hne] at hc
    exact hlabel c hc
  rw [matchUsage, dropWhile_blank hbefore hhead,
    List.isPrefixOf?_eq_some_iff_append_eq.mpr (rfl : label ++ rest = label ++ rest)]
  rfl

/-- A match has found the label and a value behind it. -/
theorem exists_of_matchUsage {s digits : List Char} (h : matchUsage label s = some digits) :
    ∃ before rest, s = before ++ (label ++ rest) ∧ matchValue rest = some digits := by
  obtain ⟨rest, hrest, hvalue⟩ := Option.bind_eq_some_iff.mp h
  refine ⟨s.takeWhile isSpace, rest, ?_, hvalue⟩
  rw [List.isPrefixOf?_eq_some_iff_append_eq.mp hrest, List.takeWhile_append_dropWhile]

/-! ### The search -/

/-- The number behind the label is found, if the label occurs nowhere else. -/
theorem searchUsage_of_line (hlabel : ∀ c ∈ label.head?, isSpace c = false) (hne : label ≠ [])
    {lines before rest digits : List Char}
    (hlines : lines = [] ∨ lines.getLast? = some '\n') (hbefore : Blank before)
    (hvalue : matchValue rest = some digits)
    (honce : ∀ a b, a ++ (label ++ b) = lines ++ (before ++ (label ++ rest)) → b = rest) :
    searchUsage label true (lines ++ (before ++ (label ++ rest))) = some digits := by
  have hmatch := (matchUsage_append hlabel hne hbefore rest).trans hvalue
  have hlater : ∀ (later earlier : List Char) {start : Bool}, earlier ++ later = lines →
      (later = [] → start = true) →
        searchUsage label start (later ++ (before ++ (label ++ rest))) = some digits := by
    intro later
    induction later with
    | nil =>
        intro earlier start _ hstart
        rw [hstart rfl, List.nil_append]
        cases htext : before ++ (label ++ rest) with
        | nil => simp [hne] at htext
        | cons c t =>
            rw [htext] at hmatch
            simp [searchUsage, hmatch]
    | cons c later ih =>
        intro earlier start heq _
        have hnext : searchUsage label (c == '\n') (later ++ (before ++ (label ++ rest)))
            = some digits := by
          refine ih (earlier ++ [c]) (by rw [← heq]; simp) fun hnil => ?_
          rw [hnil] at heq
          rcases hlines with hlines | hlines
          · rw [hlines] at heq
            simp at heq
          · rw [← heq, List.getLast?_concat, Option.some.injEq] at hlines
            rw [hlines]
            rfl
        rw [List.cons_append, searchUsage]
        split
        · rename_i m hm
          cases start with
          | false => cases hm
          | true =>
              -- An earlier match has found the same label.
              obtain ⟨a, b, htext, hb⟩ := exists_of_matchUsage hm
              have hsame : b = rest := honce (earlier ++ a) b (by
                rw [List.append_assoc, ← htext, ← heq]
                simp)
              rw [hsame, hvalue] at hb
              exact hb.symm
        · exact hnext
  exact hlater lines [] rfl fun _ => rfl

end Label

/-! ### The fields -/

section Fields

variable {output label : List Char}

/-- A field fails only by a number that is too long. -/
theorem usage_error {text : List Char} (h : usage output label = .error text) :
    ∃ digits, searchUsage label true output = some digits ∧
      INT_MAX_STR_DIGITS < digits.length ∧ text = tooManyDigits digits.length := by
  unfold usage at h
  split at h
  · cases h
  · rename_i digits hdigits
    unfold int at h
    split at h
    · rename_i hlong
      exact ⟨digits, hdigits, hlong, (Except.error.inj h).symm⟩
    · cases h

/-- A number that is too long makes its field fail. -/
theorem usage_long {digits : List Char} (h : searchUsage label true output = some digits)
    (hlong : INT_MAX_STR_DIGITS < digits.length) :
    usage output label = .error (tooManyDigits digits.length) := by
  simp only [usage, h, int, if_pos hlong]
  rfl

/-- A number that is found and short enough is the value of its field. -/
theorem usage_found {digits : List Char} (h : searchUsage label true output = some digits)
    (hshort : digits.length ≤ INT_MAX_STR_DIGITS) :
    usage output label = .ok (some (decimalValue digits)) := by
  simp only [usage, h, int, if_neg (Nat.not_lt.mpr hshort)]
  rfl

/-- The value of a decimal digit is a digit. -/
theorem decimal_lt (c : Char) : (decimal c).getD 0 < 10 := by
  unfold decimal
  cases hfind : decimalZeros.find? fun first => first ≤ c.toNat && c.toNat < first + 10 with
  | none => exact Nat.zero_lt_succ 9
  | some first =>
      have hrange := List.find?_some hfind
      rw [Bool.and_eq_true, decide_eq_true_eq, decide_eq_true_eq] at hrange
      show c.toNat - first < 10
      omega

/-- A number has no more digits than its text. -/
theorem decimalValue_lt (digits : List Char) : decimalValue digits < 10 ^ digits.length := by
  induction digits using List.reverseRecOn with
  | nil => decide
  | append_singleton digits c ih =>
      have hc := decimal_lt c
      rw [decimalValue] at ih ⊢
      rw [List.foldl_concat, List.length_append, List.length_singleton, Nat.pow_succ]
      omega

/-- The value of a field is short enough for `str` and `json`. -/
theorem usage_lt {n : Nat} (h : usage output label = .ok (some n)) :
    n < 10 ^ INT_MAX_STR_DIGITS := by
  unfold usage at h
  split at h
  · cases h
  · rename_i digits _
    unfold int at h
    split at h
    · cases h
    · rename_i hshort
      obtain rfl := Option.some.inj (Except.ok.inj h)
      exact Nat.lt_of_lt_of_le (decimalValue_lt digits)
        (Nat.pow_le_pow_right (by decide) (Nat.le_of_not_lt hshort))

end Fields

/-- The labels of the fields that a sample can do without. -/
def otherLabels : List (List Char) :=
  ["Aicore Usage Rate(%)".toList, "Aivector Usage Rate(%)".toList, "Ctrlcpu Usage Rate(%)".toList]

/-- A number behind the label is too long for `int`. -/
def TooLong (output label : List Char) : Prop :=
  ∃ digits, searchUsage label true output = some digits ∧ INT_MAX_STR_DIGITS < digits.length

/-- When the first field has a value, the other fields decide whether there are values. -/
theorem parseUsages_cases {output : List Char} {n : Nat}
    (h : usage output "Aicpu Usage Rate(%)".toList = .ok (some n)) :
    ((∃ aicore aivector ctrlcpu, parseUsages output = .ok ⟨some n, aicore, aivector, ctrlcpu⟩) ∧
      ∀ label ∈ otherLabels, ¬ TooLong output label) ∨
    ((∃ count, INT_MAX_STR_DIGITS < count ∧ parseUsages output = .error (tooManyDigits count)) ∧
      ∃ label ∈ otherLabels, TooLong output label) := by
  have hshort : ∀ {label : List Char} {found : Option Nat}, usage output label = .ok found →
      ¬ TooLong output label := by
    intro label found hok hlong
    obtain ⟨digits, hdigits, hlength⟩ := hlong
    rw [usage_long hdigits hlength] at hok
    cases hok
  -- The first of the other fields that fails ends the search.
  have hfails : ∀ {label text : List Char}, label ∈ otherLabels →
      usage output label = .error text → parseUsages output = .error text →
        (∃ count, INT_MAX_STR_DIGITS < count ∧ parseUsages output = .error (tooManyDigits count)) ∧
          ∃ label ∈ otherLabels, TooLong output label := by
    intro label text hmem herror hparse
    obtain ⟨digits, hdigits, hlength, rfl⟩ := usage_error herror
    exact ⟨⟨_, hlength, hparse⟩, label, hmem, digits, hdigits, hlength⟩
  cases haicore : usage output "Aicore Usage Rate(%)".toList with
  | error text => exact .inr (hfails (by decide) haicore (by rw [parseUsages, h, haicore]; rfl))
  | ok aicore =>
      cases haivector : usage output "Aivector Usage Rate(%)".toList with
      | error text =>
          exact .inr (hfails (by decide) haivector
            (by rw [parseUsages, h, haicore, haivector]; rfl))
      | ok aivector =>
          cases hctrlcpu : usage output "Ctrlcpu Usage Rate(%)".toList with
          | error text =>
              exact .inr (hfails (by decide) hctrlcpu
                (by rw [parseUsages, h, haicore, haivector, hctrlcpu]; rfl))
          | ok ctrlcpu =>
              refine .inl ⟨⟨aicore, aivector, ctrlcpu, ?_⟩, fun label hlabel => ?_⟩
              · rw [parseUsages, h, haicore, haivector, hctrlcpu]
                rfl
              · simp only [otherLabels, List.mem_cons, List.not_mem_nil, or_false] at hlabel
                rcases hlabel with rfl | rfl | rfl
                · exact hshort haicore
                · exact hshort haivector
                · exact hshort hctrlcpu

/-- **The usage of a sample** is the number behind the label, if the label occurs in the
output only once. When `int` refuses this number, or the number behind another label, the
sample is the error that says so. -/
theorem usage_of_sample (device : Device) (started ended : Nat)
    {digits lines before mid after tail output : List Char}
    (houtput : output = lines ++ (before ++ ("Aicpu Usage Rate(%)".toList ++
      (mid ++ ':' :: (after ++ (digits ++ tail))))))
    (hne : digits ≠ []) (hdigits : ∀ c ∈ digits, isDecimal c = true)
    (hlines : lines = [] ∨ lines.getLast? = some '\n') (hbefore : Blank before)
    (hmid : Blank mid) (hafter : Blank after) (htail : endsLine tail = true)
    (honce : ∀ t ∈ output.tails, "Aicpu Usage Rate(%)".toList <+: t →
      t.length + (lines ++ before).length = output.length) :
    let outcome := (sample device ⟨started, ended, .ok output⟩).outcome
    (INT_MAX_STR_DIGITS < digits.length → outcome = .error (tooManyDigits digits.length)) ∧
    (digits.length ≤ INT_MAX_STR_DIGITS →
      ((∃ aicore aivector ctrlcpu,
          outcome = .values (decimalValue digits) aicore aivector ctrlcpu) ↔
        ∀ label ∈ otherLabels, ¬ TooLong output label) ∧
      ((∃ label ∈ otherLabels, TooLong output label) →
        ∃ count, INT_MAX_STR_DIGITS < count ∧ outcome = .error (tooManyDigits count))) := by
  intro outcome
  -- The label is found where its line is, since it occurs nowhere else.
  have hsearch : searchUsage "Aicpu Usage Rate(%)".toList true output = some digits := by
    rw [houtput]
    refine searchUsage_of_line (fun c hc => ?_) (by decide) hlines hbefore
      (matchValue_eq hne hdigits hmid hafter htail) fun a b heq => ?_
    · cases hc
      decide
    · -- The label of `b` begins where the other one does.
      have hlength := honce ("Aicpu Usage Rate(%)".toList ++ b)
        ((List.mem_tails _ _).mpr ⟨a, heq.trans houtput.symm⟩) (List.prefix_append _ b)
      rw [houtput, ← heq, @List.length_append _ a, Nat.add_comm,
        Nat.add_right_cancel_iff] at hlength
      rw [← List.append_assoc lines] at heq
      exact List.append_cancel_left (List.append_inj heq hlength.symm).2
  refine ⟨fun hlong => ?_, fun hshort => ?_⟩
  · -- The number itself is too long.
    have hparse : parseUsages output = .error (tooManyDigits digits.length) := by
      rw [parseUsages, usage_long hsearch hlong]
      rfl
    simp only [outcome, sample, Except.bind, hparse]
  · -- The number is short, so the other fields decide.
    rcases parseUsages_cases (usage_found hsearch hshort) with
      ⟨⟨aicore, aivector, ctrlcpu, hparse⟩, hnone⟩ | ⟨⟨count, hcount, hparse⟩, label, hlabel, hlong⟩
    · have houtcome : outcome = .values (decimalValue digits) aicore aivector ctrlcpu := by
        simp only [outcome, sample, Except.bind, hparse]
      exact ⟨iff_of_true ⟨aicore, aivector, ctrlcpu, houtcome⟩ hnone,
        fun hsome => absurd hsome.choose_spec.2 (hnone _ hsome.choose_spec.1)⟩
    · have houtcome : outcome = .error (tooManyDigits count) := by
        simp only [outcome, sample, Except.bind, hparse]
      refine ⟨iff_of_false (fun hvalues => ?_) (fun hnone => hnone label hlabel hlong),
        fun _ => ⟨count, hcount, houtcome⟩⟩
      obtain ⟨aicore, aivector, ctrlcpu, hvalues⟩ := hvalues
      rw [houtcome] at hvalues
      cases hvalues

/-- The output for a device that has a blank line in front of its values. The number has a
leading zero and a digit of another script. -/
theorem usage_of_output :
    ∃ aicore aivector ctrlcpu, (sample ⟨3, by decide⟩ ⟨1, 2, .ok
      "\n\tAicpu Usage Rate(%) : 06٣\n\tCtrlcpu Usage Rate(%) : 4\n".toList⟩).outcome
        = .values 63 aicore aivector ctrlcpu := by
  have hsample := @usage_of_sample ⟨3, by decide⟩ 1 2 "06٣".toList ['\n'] ['\t'] [' '] [' ']
    "\n\tCtrlcpu Usage Rate(%) : 4\n".toList
    "\n\tAicpu Usage Rate(%) : 06٣\n\tCtrlcpu Usage Rate(%) : 4\n".toList (by decide) (by decide)
    (List.all_eq_true.mp (by decide)) (.inr rfl) (by decide) (by decide) (by decide) (by decide)
    -- None of the other labels has a long number.
    (by decide)
  refine (hsample.2 (by decide)).1.mpr fun label hlabel hlong => ?_
  obtain ⟨digits, hdigits, hlength⟩ := hlong
  simp only [otherLabels, List.mem_cons, List.not_mem_nil, or_false] at hlabel
  rcases hlabel with rfl | rfl | rfl
  · rw [show searchUsage "Aicore Usage Rate(%)".toList true _ = none from by decide] at hdigits
    cases hdigits
  · rw [show searchUsage "Aivector Usage Rate(%)".toList true _ = none from by decide] at hdigits
    cases hdigits
  · rw [show searchUsage "Ctrlcpu Usage Rate(%)".toList true _ = some ['4'] from by decide,
      Option.some.injEq] at hdigits
    rw [← hdigits] at hlength
    exact absurd hlength (by decide)

end HangAnalyzer.Sampler
