/-!
# JSON values

JSON as it is read and written here, and how a value is written, on one line or on
several.  Members of an object keep their order and may share a key.  A string can be
written with half of a surrogate pair escaped in it; it then is a string in form, but
spells no text.
-/

namespace SetLaws

/-- What a JSON string spells: a text, or `none` when half of a surrogate pair is
escaped in it. -/
abbrev Json.Spelling := Option String

inductive Json where
  | null
  | bool (b : Bool)
  /-- A number without fraction and exponent, other than `-0`. -/
  | integer (n : Int)
  /-- Any other number, as written. -/
  | real (literal : String)
  | string (spelling : Json.Spelling)
  | array (items : List Json)
  | object (members : List (Json.Spelling × Json))
deriving Repr, Inhabited

namespace Json

def text (s : String) : Json := .string (some s)

def natural (n : Nat) : Json := .integer n

def record (members : List (String × Json)) : Json :=
  .object (members.map fun (key, value) => (some key, value))

def member? (key : String) : Json → Option Json
  | .object members => members.lookup (some key)
  | _ => none

/-! ## Tokens

A JSON text is made of brackets, commas, colons, strings, and literals without
parts; a value is written by spelling out its tokens one after the other. -/

inductive Token where
  | openArray
  | closeArray
  | openObject
  | closeObject
  | comma
  | colon
  | string (spelling : Spelling)
  | null
  | bool (b : Bool)
  | integer (n : Int)
  | real (literal : String)
deriving DecidableEq, Repr

/-- A hexadecimal digit below sixteen, with small letters. -/
def hexDigit (n : Nat) : Char :=
  Nat.digitChar n

/-- A character as written in a string: quotes, backslashes and control characters
are escaped, and nothing else is. -/
def escape (c : Char) : List Char :=
  if c = '"' then ['\\', '"']
  else if c = '\\' then ['\\', '\\']
  else if c = '\x08' then ['\\', 'b']
  else if c = '\x0c' then ['\\', 'f']
  else if c = '\n' then ['\\', 'n']
  else if c = '\r' then ['\\', 'r']
  else if c = '\t' then ['\\', 't']
  else if c.toNat < 0x20 then
    ['\\', 'u', '0', '0', hexDigit (c.toNat / 16), hexDigit (c.toNat % 16)]
  else [c]

/-- A string as written.  One that spells no text is written as half of a
surrogate pair. -/
def spell : Spelling → List Char
  | some s => '"' :: (s.toList.flatMap escape ++ ['"'])
  | none => ['"', '\\', 'u', 'd', '8', '0', '0', '"']

def Token.chars : Token → List Char
  | .openArray => ['[']
  | .closeArray => [']']
  | .openObject => ['\x7b']
  | .closeObject => ['\x7d']
  | .comma => [',']
  | .colon => [':']
  | .string spelling => spell spelling
  | .null => "null".toList
  | .bool true => "true".toList
  | .bool false => "false".toList
  | .integer n => (toString n).toList
  | .real literal => literal.toList

mutual

def tokens : Json → List Token
  | .null => [.null]
  | .bool b => [.bool b]
  | .integer n => [.integer n]
  | .real literal => [.real literal]
  | .string spelling => [.string spelling]
  | .array [] => [.openArray, .closeArray]
  | .array (item :: items) => .openArray :: (item.tokens ++ itemTokens items)
  | .object [] => [.openObject, .closeObject]
  | .object ((key, value) :: members) =>
    .openObject :: .string key :: .colon :: (value.tokens ++ memberTokens members)

/-- The tokens of the items that follow the first of an array, and of its end. -/
def itemTokens : List Json → List Token
  | [] => [.closeArray]
  | item :: items => .comma :: (item.tokens ++ itemTokens items)

/-- The tokens of the members that follow the first of an object, and of its
end. -/
def memberTokens : List (Spelling × Json) → List Token
  | [] => [.closeObject]
  | (key, value) :: members =>
    .comma :: .string key :: .colon :: (value.tokens ++ memberTokens members)

end

def compact (v : Json) : String :=
  String.ofList (v.tokens.flatMap Token.chars)

/-! ## JSON for readers

A value written over several lines: each item and each member stands on a line of
its own, two spaces further to the right than what holds it.  An empty array or
object stays on one line. -/

def lineBreak (depth : Nat) : List Char :=
  '\n' :: List.replicate (2 * depth) ' '

mutual

/-- The characters of a value that is indented to the given depth. -/
def prettyChars (depth : Nat) : Json → List Char
  | .null => Token.null.chars
  | .bool b => (Token.bool b).chars
  | .integer n => (Token.integer n).chars
  | .real literal => (Token.real literal).chars
  | .string spelling => (Token.string spelling).chars
  | .array [] => ['[', ']']
  | .array (item :: items) =>
    '[' :: (lineBreak (depth + 1) ++ item.prettyChars (depth + 1) ++ prettyItems depth items)
  | .object [] => ['\x7b', '\x7d']
  | .object ((key, value) :: members) =>
    '\x7b' :: (lineBreak (depth + 1) ++ spell key ++ [':', ' '] ++
      value.prettyChars (depth + 1) ++ prettyMembers depth members)

/-- The items that follow the first of an array, and its end. -/
def prettyItems (depth : Nat) : List Json → List Char
  | [] => lineBreak depth ++ [']']
  | item :: items =>
    ',' :: (lineBreak (depth + 1) ++ item.prettyChars (depth + 1) ++ prettyItems depth items)

/-- The members that follow the first of an object, and its end. -/
def prettyMembers (depth : Nat) : List (Spelling × Json) → List Char
  | [] => lineBreak depth ++ ['\x7d']
  | (key, value) :: members =>
    ',' :: (lineBreak (depth + 1) ++ spell key ++ [':', ' '] ++
      value.prettyChars (depth + 1) ++ prettyMembers depth members)

end

def pretty (v : Json) : String :=
  String.ofList (v.prettyChars 0)

end Json
end SetLaws
