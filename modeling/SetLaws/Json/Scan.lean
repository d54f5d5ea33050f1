import SetLaws.Json

/-!
# Splitting a JSON text into tokens

The text has to follow the JSON grammar to the letter: four kinds of blank, no
needless zeros in numbers, no control characters in strings.
-/

namespace SetLaws
namespace Json

def isSpace (c : Char) : Bool :=
  c = ' ' || c = '\t' || c = '\n' || c = '\r'

def hexValue (c : Char) : Option Nat :=
  if c.isDigit then some (c.toNat - 48)
  else if 'a' ≤ c ∧ c ≤ 'f' then some (c.toNat - 87)
  else if 'A' ≤ c ∧ c ≤ 'F' then some (c.toNat - 55)
  else none

def hexValue4 (a b c d : Char) : Option Nat :=
  match hexValue a, hexValue b, hexValue c, hexValue d with
  | some a, some b, some c, some d => some (((a * 16 + b) * 16 + c) * 16 + d)
  | _, _, _, _ => none

/-- The character that a letter after a backslash stands for. -/
def unescape : Char → Option Char
  | '"' => some '"'
  | '\\' => some '\\'
  | '/' => some '/'
  | 'b' => some '\x08'
  | 'f' => some '\x0c'
  | 'n' => some '\n'
  | 'r' => some '\r'
  | 't' => some '\t'
  | _ => none

/-- The units of a string up to its closing quote, and the text after it.  Plain
characters stand for themselves, escapes for the number they write. -/
def scanString : List Char → Option (List Nat × List Char)
  | [] => none
  | '"' :: rest => some ([], rest)
  | '\\' :: 'u' :: a :: b :: c :: d :: rest =>
    match hexValue4 a b c d, scanString rest with
    | some n, some (units, rest) => some (n :: units, rest)
    | _, _ => none
  | '\\' :: c :: rest =>
    match unescape c, scanString rest with
    | some c, some (units, rest) => some (c.toNat :: units, rest)
    | _, _ => none
  | c :: rest =>
    if c.toNat < 0x20 then none
    else match scanString rest with
      | some (units, rest) => some (c.toNat :: units, rest)
      | none => none

/-- A number that is the first half of a surrogate pair. -/
def isHighSurrogate (n : Nat) : Bool := 0xD800 ≤ n && n ≤ 0xDBFF

/-- A number that is the second half of a surrogate pair. -/
def isLowSurrogate (n : Nat) : Bool := 0xDC00 ≤ n && n ≤ 0xDFFF

/-- The characters of a list of units, in which the halves of a surrogate pair
make one character; there are none when a half stands alone. -/
def unitChars : List Nat → Option (List Char)
  | [] => some []
  | [n] => if isHighSurrogate n || isLowSurrogate n then none else some [Char.ofNat n]
  | n :: m :: rest =>
    if isHighSurrogate n then
      if isLowSurrogate m then
        (unitChars rest).map
          (Char.ofNat (0x10000 + (n - 0xD800) * 0x400 + (m - 0xDC00)) :: ·)
      else none
    else if isLowSurrogate n then none
    else (unitChars (m :: rest)).map (Char.ofNat n :: ·)

def spelling (units : List Nat) : Spelling :=
  (unitChars units).map String.ofList

/-- The characters that occur in numbers. -/
def isNumeric (c : Char) : Bool :=
  c.isDigit || c = '-' || c = '+' || c = '.' || c = 'e' || c = 'E'

def dropSign : List Char → List Char
  | '+' :: cs => cs
  | '-' :: cs => cs
  | cs => cs

/-- Whether the characters are nothing, or the letter of an exponent, a sign that
may be missing, and digits. -/
def isExponent : List Char → Bool
  | [] => true
  | c :: cs => (c = 'e' || c = 'E') && !(dropSign cs).isEmpty && (dropSign cs).all Char.isDigit

/-- Whether the characters can follow the digits of a number: nothing, or a
fraction, an exponent, or both. -/
def isNumberTail : List Char → Bool
  | '.' :: cs => !(cs.takeWhile Char.isDigit).isEmpty && isExponent (cs.dropWhile Char.isDigit)
  | cs => isExponent cs

/-- Whether the characters are digits without a needless zero in front. -/
def isWhole : List Char → Bool
  | [] => false
  | '0' :: cs => cs.isEmpty
  | cs => cs.all Char.isDigit

def readNumber (negative : Bool) (cs : List Char) : Option Token :=
  let digits := cs.takeWhile Char.isDigit
  let tail := cs.dropWhile Char.isDigit
  let value : Int := Nat.ofDigitChars 10 digits 0
  if !(isWhole digits && isNumberTail tail) then none
  else if !tail.isEmpty || (negative && value == 0) then
    some (.real (String.ofList (if negative then '-' :: cs else cs)))
  else some (.integer (if negative then -value else value))

/-- The token that starts with the given character, and the text after it. -/
def scanToken : Char → List Char → Option (Token × List Char)
  | '[', cs => some (.openArray, cs)
  | ']', cs => some (.closeArray, cs)
  | '\x7b', cs => some (.openObject, cs)
  | '\x7d', cs => some (.closeObject, cs)
  | ',', cs => some (.comma, cs)
  | ':', cs => some (.colon, cs)
  | '"', cs => (scanString cs).map fun found => (.string (spelling found.1), found.2)
  | 'n', 'u' :: 'l' :: 'l' :: rest => some (.null, rest)
  | 't', 'r' :: 'u' :: 'e' :: rest => some (.bool true, rest)
  | 'f', 'a' :: 'l' :: 's' :: 'e' :: rest => some (.bool false, rest)
  | '-', cs => (readNumber true (cs.takeWhile isNumeric)).map (·, cs.dropWhile isNumeric)
  | c, cs => (readNumber false (c :: cs.takeWhile isNumeric)).map (·, cs.dropWhile isNumeric)

/-- What follows a string is shorter than the text that starts with it. -/
theorem length_of_scanString {cs : List Char} {found : List Nat × List Char}
    (h : scanString cs = some found) : found.2.length ≤ cs.length := by
  fun_induction scanString cs generalizing found <;> simp_all <;> grind

/-- What follows a token is shorter than the text that starts with it. -/
theorem length_of_scanToken {c : Char} {cs : List Char} {found : Token × List Char}
    (h : scanToken c cs = some found) : found.2.length ≤ cs.length := by
  have hnum : (cs.dropWhile isNumeric).length ≤ cs.length :=
    (List.dropWhile_sublist _).length_le
  unfold scanToken at h
  split at h
  case h_7 =>
    obtain ⟨found', hs, rfl⟩ := Option.map_eq_some_iff.mp h
    exact length_of_scanString hs
  case h_11 | h_12 =>
    obtain ⟨_, _, rfl⟩ := Option.map_eq_some_iff.mp h
    exact hnum
  all_goals
    obtain rfl := Option.some.inj h
    simp only [List.length_cons]
    omega

def scan : List Char → Option (List Token)
  | [] => some []
  | c :: cs =>
    if isSpace c then scan cs
    else match h : scanToken c cs with
      | none => none
      | some found =>
        have := length_of_scanToken h
        (scan found.2).map (found.1 :: ·)
termination_by cs => cs.length
decreasing_by all_goals simp only [List.length_cons]; omega

end Json
end SetLaws
