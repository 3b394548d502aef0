import HangAnalyzer.Lib.OrderedDict
import HangAnalyzer.Lib.Scanner

/-!
# `HangAnalyzer.Lib.Json`: JSON texts

`dumps` writes a value as Python's `json.dumps` does, in a `Style`, and `loads` reads
a text as `json.loads` does: blanks, strict strings with their escapes, numbers, the three
literals that are no JSON, and the last value of a key that occurs twice.

A number with a fraction or an exponent is kept as it is written. An escape of half a
surrogate pair is refused, because no `Char` stands for it. The first argument of `scan`
bounds how deep the brackets are nested.
-/

set_option autoImplicit false

namespace HangAnalyzer.Lib

/-- A value. -/
inductive Json where
  | null
  | bool (b : Bool)
  | int (n : Int)
  | float (text : List Char)
  | str (s : List Char)
  | list (items : List Json)
  | dict (items : List (List Char × Json))

namespace Json

open Scanner

/-! ### Writing -/

/-- The arguments of `json.dumps`: `ensure_ascii`, `indent`, and whether a blank stands
after the commas and the colons. -/
structure Style where
  ensureAscii : Bool
  indent : Option Nat
  blankAfterComma : Bool
  blankAfterColon : Bool

/-- `separators=(",", ":")`. -/
def Style.compact (ensureAscii : Bool) : Style := ⟨ensureAscii, none, false, false⟩

/-- The line end and the indentation before an item. -/
def Style.newline (style : Style) (level : Nat) : List Char :=
  match style.indent with
  | none   => []
  | some k => '\n' :: List.replicate (k * level) ' '

/-- A blank, or none. -/
def blankIf (b : Bool) : List Char := if b then [' '] else []

/-- The four hexadecimal digits of a number. -/
def hex4 (n : Nat) : List Char :=
  [(n / 4096 % 16).digitChar, (n / 256 % 16).digitChar, (n / 16 % 16).digitChar,
    (n % 16).digitChar]

/-- `\uXXXX`. -/
def unicodeEscape (n : Nat) : List Char := '\\' :: 'u' :: hex4 n

/-- A character of a string. -/
def escape (ensureAscii : Bool) (c : Char) : List Char :=
  if c = '"' then ['\\', '"']
  else if c = '\\' then ['\\', '\\']
  else if c = '\n' then ['\\', 'n']
  else if c = '\r' then ['\\', 'r']
  else if c = '\t' then ['\\', 't']
  else if c = '\x0c' then ['\\', 'f']
  else if c = '\x08' then ['\\', 'b']
  else if c.toNat < 0x20 then unicodeEscape c.toNat
  else if ensureAscii && 0x7E < c.toNat then
    if c.toNat < 0x10000 then unicodeEscape c.toNat
    else
      -- A surrogate pair.
      unicodeEscape (0xD800 + (c.toNat - 0x10000) / 1024) ++
        unicodeEscape (0xDC00 + (c.toNat - 0x10000) % 1024)
  else [c]

/-- A string with its quotes. -/
def quoted (ensureAscii : Bool) (s : List Char) : List Char :=
  '"' :: (s.flatMap (escape ensureAscii) ++ ['"'])

/-- `int.__repr__`. -/
def intText : Int → List Char
  | .ofNat n   => Nat.toDigits 10 n
  | .negSucc n => '-' :: Nat.toDigits 10 (n + 1)

/-- The text of a list or a dictionary, from the texts of its items. -/
def block (style : Style) (level : Nat) (opening close : Char) (texts : List (List Char)) :
    List Char :=
  opening :: bracketed close (style.newline (level + 1))
    (blankIf style.blankAfterComma ++ style.newline (level + 1)) (style.newline level) texts

/-- An item of a dictionary. -/
def memberText (style : Style) (key value : List Char) : List Char :=
  quoted style.ensureAscii key ++ ':' :: (blankIf style.blankAfterColon ++ value)

mutual

/-- The text of a value at an indentation level. -/
def textAt (style : Style) : Nat → Json → List Char
  | _, .null          => "null".toList
  | _, .bool true     => "true".toList
  | _, .bool false    => "false".toList
  | _, .int n         => intText n
  | _, .float text    => text
  | _, .str s         => quoted style.ensureAscii s
  | level, .list items => block style level '[' ']' (itemTexts style (level + 1) items)
  | level, .dict items => block style level '{' '}' (memberTexts style (level + 1) items)

/-- The texts of the items of a list. -/
def itemTexts (style : Style) : Nat → List Json → List (List Char)
  | _, []             => []
  | level, v :: items => textAt style level v :: itemTexts style level items

/-- The texts of the items of a dictionary. -/
def memberTexts (style : Style) : Nat → List (List Char × Json) → List (List Char)
  | _, []                    => []
  | level, (key, v) :: items =>
      memberText style key (textAt style level v) :: memberTexts style level items

end

/-- `json.dumps(v)`. -/
def dumps (style : Style) (v : Json) : List Char := textAt style 0 v

/-! ### Reading -/

/-- The value of a hexadecimal digit. -/
def hexValue (c : Char) : Option Nat :=
  if c.isDigit then some (c.toNat - 48)
  else if 'a' ≤ c ∧ c ≤ 'f' then some (c.toNat - 87)
  else if 'A' ≤ c ∧ c ≤ 'F' then some (c.toNat - 55)
  else none

/-- The number that four hexadecimal digits write. -/
def hex4Value (a b c d : Char) : Option Nat := do
  let a ← hexValue a
  let b ← hexValue b
  let c ← hexValue c
  let d ← hexValue d
  return ((a * 16 + b) * 16 + c) * 16 + d

/-- The character behind a backslash. -/
def unescape (c : Char) : Option Char :=
  if c = '"' ∨ c = '\\' ∨ c = '/' then some c
  else if c = 'b' then some '\x08'
  else if c = 'f' then some '\x0c'
  else if c = 'n' then some '\n'
  else if c = 'r' then some '\r'
  else if c = 't' then some '\t'
  else none

/-- Put a character in front of what a scanner has found. -/
def push (c : Char) (found : List Char × List Char) : List Char × List Char :=
  (c :: found.1, found.2)

/-- The characters of a string up to its closing quote. -/
def scanString : Scanner (List Char)
  | [] => none
  | '"' :: rest => some ([], rest)
  | '\\' :: 'u' :: a :: b :: c :: d :: rest =>
      match hex4Value a b c d with
      | none => none
      | some high =>
          if 0xD800 ≤ high ∧ high ≤ 0xDBFF then
            match rest with
            | '\\' :: 'u' :: a :: b :: c :: d :: rest =>
                match hex4Value a b c d with
                | none => none
                | some low =>
                    if 0xDC00 ≤ low ∧ low ≤ 0xDFFF then
                      (scanString rest).map
                        (push (Char.ofNat (0x10000 + ((high - 0xD800) * 1024 + (low - 0xDC00)))))
                    else none
            | _ => none
          else if 0xDC00 ≤ high ∧ high ≤ 0xDFFF then none
          else (scanString rest).map (push (Char.ofNat high))
  | '\\' :: c :: rest =>
      match unescape c with
      | none   => none
      | some c => (scanString rest).map (push c)
  -- A control character is refused.
  | c :: rest => if c.toNat < 0x20 then none else (scanString rest).map (push c)

/-- `[0-9]*`, and what follows. -/
def digits (s : List Char) : List Char × List Char :=
  (s.takeWhile Char.isDigit, s.dropWhile Char.isDigit)

/-- `0|[1-9][0-9]*`. -/
def scanDigits : Scanner (List Char)
  | '0' :: rest => some (['0'], rest)
  | s           => if (digits s).1 = [] then none else some (digits s)

/-- `(\.[0-9]+)?`. -/
def fraction : List Char → List Char × List Char
  | '.' :: rest =>
      if (digits rest).1 = [] then ([], '.' :: rest) else ('.' :: (digits rest).1, (digits rest).2)
  | s => ([], s)

/-- `[-+]?`. -/
def sign : List Char → List Char × List Char
  | '-' :: rest => (['-'], rest)
  | '+' :: rest => (['+'], rest)
  | s           => ([], s)

/-- `([eE][-+]?[0-9]+)?`. -/
def exponent : List Char → List Char × List Char
  | [] => ([], [])
  | c :: rest =>
      if (c = 'e' ∨ c = 'E') ∧ (digits (sign rest).2).1 ≠ [] then
        (c :: ((sign rest).1 ++ (digits (sign rest).2).1), (digits (sign rest).2).2)
      else ([], c :: rest)

/-- The number of a sign, digits, and what comes behind them. -/
def numberOf (minus : Bool) (whole tail : List Char) : Json :=
  if tail = [] then
    .int (if minus then -(Nat.ofDigitChars 10 whole 0 : Int) else Nat.ofDigitChars 10 whole 0)
  else .float ((if minus then ['-'] else []) ++ whole ++ tail)

/-- A number without its sign. -/
def scanUnsigned (minus : Bool) (s : List Char) : Option (Json × List Char) :=
  (scanDigits s).map fun whole =>
    (numberOf minus whole.1 ((fraction whole.2).1 ++ (exponent (fraction whole.2).2).1),
      (exponent (fraction whole.2).2).2)

/-- A number. -/
def scanNumber : Scanner Json
  | '-' :: rest => scanUnsigned true rest
  | s           => scanUnsigned false s

/-- The rest of a literal. -/
def literal (text : List Char) (v : Json) : Scanner Json := fun s =>
  if text.isPrefixOf s then some (v, s.drop text.length) else none

/-- An item of a dictionary. -/
def scanMember (value : Scanner Json) : Scanner (List Char × Json)
  | '"' :: rest =>
      (scanString rest).bind fun key =>
        match skipBlanks key.2 with
        | ':' :: rest => (value (skipBlanks rest)).map fun found => ((key.1, found.1), found.2)
        | _           => none
  | _ => none

/-- `dict(pairs)`. -/
def ofPairs (pairs : List (List Char × Json)) : List (List Char × Json) :=
  (pairs.foldl (fun d pair => d.set pair.1 pair.2) Dict.empty).items

/-- A value. -/
def scan : Nat → Scanner Json
  | 0, _ => none
  | n + 1, s =>
      match s with
      | '"' :: rest => (scanString rest).map fun found => (.str found.1, found.2)
      | '[' :: rest => (enclosed ']' (scan n) rest).map fun found => (.list found.1, found.2)
      | '{' :: rest =>
          (enclosed '}' (scanMember (scan n)) rest).map fun found =>
            (.dict (ofPairs found.1), found.2)
      | 'n' :: rest => literal "ull".toList .null rest
      | 't' :: rest => literal "rue".toList (.bool true) rest
      | 'f' :: rest => literal "alse".toList (.bool false) rest
      | 'N' :: rest => literal "aN".toList (.float "NaN".toList) rest
      | 'I' :: rest => literal "nfinity".toList (.float "Infinity".toList) rest
      | '-' :: 'I' :: rest => literal "nfinity".toList (.float "-Infinity".toList) rest
      | s => scanNumber s

/-- `json.loads(text)`, or nothing for a `JSONDecodeError`. -/
def loads (text : List Char) : Option Json :=
  (scan text.length (skipBlanks text)).bind fun found =>
    if skipBlanks found.2 = [] then some found.1 else none

example : dumps (.compact true) (.dict [(['a'], .list [.int (-5), .str ['é', '\n']]), ([], .null)])
    = "\x7b\"a\":[-5,\"\\u00e9\\n\"],\"\":null\x7d".toList := by decide

end Json

end HangAnalyzer.Lib
