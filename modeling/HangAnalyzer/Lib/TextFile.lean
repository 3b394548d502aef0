/-!
# `HangAnalyzer.Lib.TextFile`: a small text file

What a program that looks at a small text file again and again may find there,
and how its content is read: decoded, with the line ends made uniform, and
stripped of white space. The decoder is a parameter.
-/

set_option autoImplicit false

namespace HangAnalyzer.Lib

/-- A file as a reader finds it. -/
inductive FileState where
  | missing
  | unreadable (error : String)
  | content (bytes : List UInt8)

/-- Why a text cannot be read: `FileNotFoundError`, another `OSError`, or bytes that
do not decode. -/
inductive ReadError where
  | notFound
  | os (error : String)
  | decode (error : String)
  deriving Repr, DecidableEq

/-- A decoder: the text, or the text of an error. -/
abbrev Codec := List UInt8 → Except String (List Char)

/-- `\r\n` and `\r` become `\n`. -/
def universalNewlines : List Char → List Char
  | '\r' :: '\n' :: rest => '\n' :: universalNewlines rest
  | '\r' :: rest         => '\n' :: universalNewlines rest
  | c :: rest            => c :: universalNewlines rest
  | []                   => []

/-- The text of a file. -/
def readText (codec : Codec) : FileState → Except ReadError (List Char)
  | .missing          => .error .notFound
  | .unreadable error => .error (.os error)
  | .content bytes    =>
      match codec bytes with
      | .ok text     => .ok (universalNewlines text)
      | .error error => .error (.decode error)

/-- `c.isspace()`. -/
def isSpace (c : Char) : Bool :=
  let n := c.toNat
  (0x09 ≤ n && n ≤ 0x0D) || (0x1C ≤ n && n ≤ 0x20) || n == 0x85 || n == 0xA0 || n == 0x1680 ||
    (0x2000 ≤ n && n ≤ 0x200A) || n == 0x2028 || n == 0x2029 || n == 0x202F || n == 0x205F ||
    n == 0x3000

/-- `text.strip()`. -/
def strip (text : List Char) : List Char :=
  ((text.dropWhile isSpace).reverse.dropWhile isSpace).reverse

example : strip " 1\t\n".toList = ['1'] := by decide

end HangAnalyzer.Lib
