/-!
# Texts

Blank characters and the text between them, integers in decimal digits, the bytes of a text, and
how many edits separate two texts.
-/

namespace SetLaws
namespace Text

/-! ## Blanks -/

/-- The characters with the Unicode property White_Space. -/
def isBlank (c : Char) : Bool :=
  let code := c.toNat
  (0x9 ≤ code && code ≤ 0xD) || code == 0x20 || code == 0x85 || code == 0xA0 ||
    code == 0x1680 || (0x2000 ≤ code && code ≤ 0x200A) || code == 0x2028 ||
    code == 0x2029 || code == 0x202F || code == 0x205F || code == 0x3000

/-- Drops the blanks at both ends of a list of characters. -/
def trimChars (cs : List Char) : List Char :=
  ((cs.dropWhile isBlank).reverse.dropWhile isBlank).reverse

def trim (s : String) : String :=
  String.ofList (trimChars s.toList)

/-! ## Decimal integers

An integer is written as an optional sign and at least one ASCII digit; leading
zeros are allowed, blanks and separators are not.  A reader for words of 64 bits
refuses what does not fit. -/

/-- The number written by a non-empty list of ASCII digits. -/
def readDigits (cs : List Char) : Option Nat :=
  if cs.isEmpty then none
  else if cs.all Char.isDigit then some (Nat.ofDigitChars 10 cs 0)
  else none

/-- The integer written by an optional sign and digits. -/
def readSigned : List Char → Option Int
  | '-' :: cs => (readDigits cs).map fun n => -(n : Int)
  | '+' :: cs => (readDigits cs).map Int.ofNat
  | cs => (readDigits cs).map Int.ofNat

/-- The word of 64 bits with the given value, if there is one. -/
def toInt64? (n : Int) : Option Int64 :=
  if Int64.minValue.toInt ≤ n ∧ n ≤ Int64.maxValue.toInt then some (Int64.ofInt n) else none

def readInt64 (s : String) : Option Int64 :=
  (readSigned s.toList).bind toInt64?

/-- Reads a number below `2 ^ 64`; a plus sign may precede the digits. -/
def readCount (s : String) : Option Nat :=
  let digits := match s.toList with
    | '+' :: cs => cs
    | cs => cs
  (readDigits digits).filter (· < UInt64.size)

/-! ## Bytes -/

/-- The bytes that encode a text. -/
def bytes (s : String) : List UInt8 :=
  s.toByteArray.data.toList

theorem bytes_eq_flatMap (s : String) : bytes s = s.toList.flatMap String.utf8EncodeChar := by
  rw [bytes, ← String.utf8Encode_toList, List.utf8Encode, List.toList_data_toByteArray]

theorem length_bytes (s : String) : (bytes s).length = s.utf8ByteSize :=
  Array.length_toList

theorem bytes_injective {s t : String} (h : bytes s = bytes t) : s = t :=
  String.toByteArray_inj.mp (ByteArray.ext (Array.toList_inj.mp h))

/-! ## Edits

The least number of insertions, deletions and replacements of single characters
that turns one text into another. -/

/-- The number of items of a list and of each of its tails, longest first. -/
def tailLengths : List Char → List Nat
  | [] => [0]
  | _ :: cs => (cs.length + 1) :: tailLengths cs

/-- Prepends `x` to the first text: from the distances of `xs` to every tail of
the second text, the distances of `x :: xs` to the same tails. -/
def prependDistances (x : Char) : List Char → List Nat → List Nat
  | y :: ys, d :: ds =>
    let shorter := prependDistances x ys ds
    let kept := ds.headD 0 + if x = y then 0 else 1
    min (min (d + 1) (shorter.headD 0 + 1)) kept :: shorter
  | _, ds => ds.map (· + 1)

/-- The distances of a text to every tail of another, the whole of it first. -/
def tailDistances : List Char → List Char → List Nat
  | [], ys => tailLengths ys
  | x :: xs, ys => prependDistances x ys (tailDistances xs ys)

/-- The edit distance of two texts, counted in characters. -/
def editDistance (a b : String) : Nat :=
  (tailDistances a.toList b.toList).headD 0

/-- Two texts are similar when at most one edit separates them. -/
def similar (a b : String) : Bool :=
  editDistance a b < 2

end Text
end SetLaws
