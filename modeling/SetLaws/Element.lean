import SetLaws.Text

/-!
# Elements

An element is a character, an integer or a text.  Several spellings mean one
element: a digit is the same as the integer of one digit, and a text that reads
as a character or as an integer is the same as that character or integer.  The
normal form of an element is its one preferred spelling.
-/

namespace SetLaws

/-- A member of a set, in any spelling. -/
inductive Element where
  | char (c : Char)
  | int (n : Int64)
  | text (s : String)
deriving DecidableEq, Repr

namespace Element

def digit (n : Int64) : Char :=
  Char.ofNat ('0'.toNat + n.toInt.toNat)

/-- The normal element of an integer: a digit character when it has one digit and
no sign, and the integer itself otherwise. -/
def ofInt (n : Int64) : Element :=
  if 0 ≤ n ∧ n ≤ 9 then .char (digit n) else .int n

/-- The normal element of a text: its only character, else the integer it writes,
else the text. -/
def ofText (s : String) : Element :=
  match s.toList with
  | [c] => .char c
  | _ => match Text.readInt64 s with
    | some n => ofInt n
    | none => .text s

/-- The preferred spelling of an element. -/
def normalized : Element → Element
  | .char c => .char c
  | .int n => ofInt n
  | .text s => ofText s

/-- The code by which an element bounds a range or lies in one.  Texts have none. -/
def ordinal : Element → Option Int64
  | .char c => some (Int64.ofNat c.toNat)
  | .int n => some n
  | .text _ => none

def unquoted : Element → String
  | .char c => c.toString
  | .int n => toString n.toInt
  | .text s => s

/-- The element as shown in a set: characters stand between quotes. -/
def display : Element → String
  | .char c => "'" ++ c.toString ++ "'"
  | e => e.unquoted

def isInt : Element → Bool
  | .int _ => true
  | _ => false

end Element
end SetLaws
