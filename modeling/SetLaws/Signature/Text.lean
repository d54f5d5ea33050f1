import SetLaws.Signature
import SetLaws.Text.Place

/-!
# The text of a signature

A signature is written in blanks, operator signs, the words `U`, `VACIO` and
`UNIVERSO`, names, and names in braces.  Every text splits into tokens: at each
place the longest one is taken, a word is a name unless the whole of it is
reserved, and what starts no other token is a symbol.

Operators are written before their operands and set names in braces.  A signature that
is a single name is written bare where that reads back as the name.
-/

namespace SetLaws
namespace Signature

/-! ## Tokens -/

inductive TokenKind where
  | blank
  | union
  | intersection
  | difference
  | complement
  | empty
  | universal
  /-- A name in braces. -/
  | braced
  /-- A name without braces. -/
  | name
  | symbol
deriving DecidableEq, Repr

/-- A piece of a text, with the byte at which it starts. -/
structure Token where
  kind : TokenKind
  start : Nat
  lexeme : String
deriving DecidableEq, Repr

namespace Token

def stop (t : Token) : Nat :=
  t.start + t.lexeme.utf8ByteSize

def extent (t : Token) : Text.Extent :=
  ⟨t.start, t.stop⟩

end Token

/-- The blanks that separate tokens: space, tab, carriage return and line feed. -/
def isSeparator (c : Char) : Bool :=
  c = ' ' || c = '\t' || c = '\r' || c = '\n'

def isNameStart (c : Char) : Bool :=
  c.isAlpha || c = '_'

def isNameRest (c : Char) : Bool :=
  c.isAlphanum || c = '_'

def isBrace (c : Char) : Bool :=
  c = '\x7b' || c = '\x7d'

def wordKind (word : List Char) : TokenKind :=
  if word = ['U'] then .union
  else if word = ['V', 'A', 'C', 'I', 'O'] then .empty
  else if word = ['U', 'N', 'I', 'V', 'E', 'R', 'S', 'O'] then .universal
  else .name

/-- The kind of the token that starts with `c` before `cs`, and how many characters
of `cs` belong to it. -/
def scan (c : Char) (cs : List Char) : TokenKind × Nat :=
  if isSeparator c then (.blank, (cs.takeWhile isSeparator).length)
  else if isNameStart c then
    let rest := cs.takeWhile isNameRest
    (wordKind (c :: rest), rest.length)
  else if c = '\x7b' then
    let inside := cs.takeWhile fun d => !isBrace d
    if (cs.drop inside.length).head? = some '\x7d' then (.braced, inside.length + 1)
    else (.symbol, inside.length)
  else if c = '&' then (.intersection, 0)
  else if c = '-' then (.difference, 0)
  else if c = '^' then (.complement, 0)
  else (.symbol, 0)

/-- The tokens of characters that start at the given byte, blanks among them. -/
def split (start : Nat) : List Char → List Token
  | [] => []
  | c :: cs =>
    let found := scan c cs
    let token : Token := ⟨found.1, start, String.ofList (c :: cs.take found.2)⟩
    token :: split token.stop (cs.drop found.2)
termination_by cs => cs.length
decreasing_by simp only [List.length_drop, List.length_cons]; omega

/-- The tokens of a text, without the blanks between them. -/
def tokenize (text : String) : List Token :=
  (split 0 text.toList).filter (·.kind ≠ .blank)

/-! ## Writing -/

/-- A name in braces. -/
def braced (name : String) : String :=
  "\x7b" ++ name ++ "\x7d"

/-- The gap after a complement sign: a blank before an operator on two operands. -/
def complementGap : Signature → String
  | .binary .. => " "
  | _ => ""

/-- The signature as written in the place of an operand. -/
def operandText : Signature → String
  | .set name => braced name
  | .empty => "VACIO"
  | .universal => "UNIVERSO"
  | .complement operand => "^" ++ operand.complementGap ++ operand.operandText
  | .binary op lhs rhs => op.symbol ++ " " ++ lhs.operandText ++ " " ++ rhs.operandText

/-- Whether a text is one token, and that token a name. -/
def isBareName (name : String) : Bool :=
  match split 0 name.toList with
  | [token] => token.kind = .name
  | _ => false

def text : Signature → String
  | .set name => if isBareName name then name else braced name
  | s => s.operandText

def textSize (s : Signature) : Nat :=
  s.text.utf8ByteSize

end Signature
end SetLaws
