/-!
# Places in a text

A stretch of a text, the line on which a character stands, and the byte that stands at a line
and a column.
-/

namespace SetLaws
namespace Text

/-- The bytes from `start` to `stop`, the latter excluded. -/
structure Extent where
  start : Nat
  stop : Nat
deriving DecidableEq, Repr

def Extent.display (e : Extent) : String :=
  toString e.start ++ ".." ++ toString e.stop

/-! ## Lines

Lines end with any of the Unicode line ends.  A carriage return and the line feed after it are one
line end. -/

def isLineEnd (c : Char) : Bool :=
  let code := c.toNat
  (0xA ≤ code && code ≤ 0xD) || code == 0x85 || code == 0x2028 || code == 0x2029

/-- Whether a new line starts between a character and the text after it. -/
def breaksLine (c : Char) : List Char → Bool
  | [] => false
  | d :: _ => isLineEnd c && !(c = '\r' && d = '\n')

/-- The number of the line, counted from zero, on which a character stands, given by the
number of characters before it.  What is behind the end stands on the last line. -/
def lineOf : List Char → Nat → Nat
  | [], _ => 0
  | _ :: _, 0 => 0
  | c :: cs, n + 1 => (if breaksLine c cs then 1 else 0) + lineOf cs n

/-! ## Lines and columns

Both are counted from one, and here only a line feed ends a line.  What lies behind the end of the
text is moved to its end. -/

/-- The number of bytes in the given number of lines at the start of a text, each
with the line feed that ends it. -/
def linesSize : Nat → List Char → Nat
  | 0, _ => 0
  | _, [] => 0
  | lines + 1, c :: cs =>
    c.utf8Size + if c = '\n' then linesSize lines cs else linesSize (lines + 1) cs

/-- The extent of the byte at a line and a column, columns counted in bytes. -/
def place (text : String) (line column : Nat) : Extent :=
  let start := min (linesSize (line - 1) text.toList + (column - 1)) text.utf8ByteSize
  ⟨start, min (start + 1) text.utf8ByteSize⟩

end Text
end SetLaws
