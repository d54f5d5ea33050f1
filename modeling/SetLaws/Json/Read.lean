import SetLaws.Json.Scan

/-!
# Reading a JSON text

The tokens are taken from the left.  Arrays and objects that are not yet closed
wait on a stack, the innermost first; a complete value is added to the innermost.
So values may be nested to any depth.
-/

namespace SetLaws
namespace Json

/-- An array or an object that is not yet closed, its last part first. -/
inductive Pending where
  | array (items : List Json)
  | object (members : List (Spelling × Json))
  /-- An object whose last key still lacks its value. -/
  | member (members : List (Spelling × Json)) (key : Spelling)
deriving Repr

inductive Expected where
  | value
  /-- A value, or the end of an array that has just begun. -/
  | firstItem
  | key
  /-- A key, or the end of an object that has just begun. -/
  | firstKey
  /-- A comma, or the end of the innermost array or object. -/
  | separator
deriving DecidableEq, Repr

/-- Adds a value to the innermost array or object: what waits afterwards, or the
value itself when nothing waits. -/
def deliver (v : Json) : List Pending → List Pending ⊕ Json
  | .array items :: rest => .inl (.array (v :: items) :: rest)
  | .member members key :: rest => .inl (.object ((key, v) :: members) :: rest)
  | .object members :: rest => .inl (.object members :: rest)
  | [] => .inr v

/-- What a token does: it opens an array or an object, completes a value, asks for
another part, or starts a member. -/
inductive Move where
  | opens (pending : Pending) (expected : Expected)
  | completes (v : Json) (pending : List Pending)
  | expects (expected : Expected)
  | names (key : Spelling)

def Token.value? : Token → Option Json
  | .string spelling => some (.string spelling)
  | .null => some .null
  | .bool b => some (.bool b)
  | .integer n => some (.integer n)
  | .real literal => some (.real literal)
  | _ => none

def Token.begins (token : Token) (pending : List Pending) : Option Move :=
  match token with
  | .openArray => some (.opens (.array []) .firstItem)
  | .openObject => some (.opens (.object []) .firstKey)
  | token => token.value?.map (.completes · pending)

def Token.move (token : Token) (expected : Expected) (pending : List Pending) : Option Move :=
  match expected, token, pending with
  | .value, token, pending => token.begins pending
  | .firstItem, .closeArray, .array items :: rest => some (.completes (.array items.reverse) rest)
  | .firstItem, token, pending => token.begins pending
  | .firstKey, .closeObject, .object members :: rest =>
    some (.completes (.object members.reverse) rest)
  | .firstKey, .string key, _ => some (.names key)
  | .key, .string key, _ => some (.names key)
  | .separator, .closeArray, .array items :: rest =>
    some (.completes (.array items.reverse) rest)
  | .separator, .closeObject, .object members :: rest =>
    some (.completes (.object members.reverse) rest)
  | .separator, .comma, .array _ :: _ => some (.expects .value)
  | .separator, .comma, .object _ :: _ => some (.expects .key)
  | _, _, _ => none

/-- Gives the key of the next member to the innermost object. -/
def startMember (key : Spelling) : List Pending → List Pending
  | .object members :: rest => .member members key :: rest
  | pending => pending

def assemble : Expected → List Pending → List Token → Option Json
  | _, _, [] => none
  | expected, pending, token :: rest =>
    match token.move expected pending with
    | none => none
    | some (.opens p expected) => assemble expected (p :: pending) rest
    | some (.expects expected) => assemble expected pending rest
    | some (.completes v pending) =>
      match deliver v pending with
      | .inl pending => assemble .separator pending rest
      | .inr v => if rest.isEmpty then some v else none
    | some (.names key) =>
      match rest with
      | .colon :: rest => assemble .value (startMember key pending) rest
      | _ => none

def read (text : String) : Option Json :=
  (scan text.toList).bind (assemble .value [])

end Json
end SetLaws
