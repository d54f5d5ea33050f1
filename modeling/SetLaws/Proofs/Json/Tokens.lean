import SetLaws.Json.Scan
import SetLaws.Proofs.Text.Integer
import SetLaws.Proofs.Text.Ends

/-!
# Tokens read back

A token is split off from the text that spells it, whatever follows.  Only a number needs
something after it that ends numbers.
-/

namespace SetLaws
namespace Json

section Strings

variable {c : Char} {rest : List Char}

theorem scanString_plain (hquote : c ≠ '"') (hslash : c ≠ '\\') (h : 0x20 ≤ c.toNat) :
    scanString (c :: rest) = (scanString rest).map (Prod.map (c.toNat :: ·) id) := by
  rw [scanString.eq_def]
  split
  · next heq => cases heq
  · next heq => exact absurd (List.cons.inj heq).1 hquote
  · next heq => exact absurd (List.cons.inj heq).1 hslash
  · next heq => exact absurd (List.cons.inj heq).1 hslash
  · next heq =>
    obtain ⟨rfl, rfl⟩ := List.cons.inj heq
    rw [if_neg (Nat.not_lt.mpr h)]
    cases scanString rest <;> rfl

theorem scanString_letter {d : Char} (hu : c ≠ 'u') (h : unescape c = some d) :
    scanString ('\\' :: c :: rest) = (scanString rest).map (Prod.map (d.toNat :: ·) id) := by
  rw [scanString]
  · rw [h]
    cases scanString rest <;> rfl
  · intro _ _ _ _ _ heq
    exact absurd heq hu

theorem scanString_unit {a b d e : Char} {n : Nat} (h : hexValue4 a b d e = some n) :
    scanString ('\\' :: 'u' :: a :: b :: d :: e :: rest) =
      (scanString rest).map (Prod.map (n :: ·) id) := by
  rw [scanString, h]
  cases scanString rest <;> rfl

theorem hexValue_hexDigit : ∀ n < 16, hexValue (hexDigit n) = some n := by
  decide

theorem hexValue4_control (h : c.toNat < 0x20) :
    hexValue4 '0' '0' (hexDigit (c.toNat / 16)) (hexDigit (c.toNat % 16)) = some c.toNat := by
  have hzero : hexValue '0' = some 0 := by decide
  rw [hexValue4, hzero, hexValue_hexDigit _ (by omega), hexValue_hexDigit _ (by omega)]
  exact congrArg some (by omega)

/-- A character as written in a string is read as its code. -/
theorem scanString_escape (c : Char) (rest : List Char) :
    scanString (escape c ++ rest) = (scanString rest).map (Prod.map (c.toNat :: ·) id) := by
  -- The cases are those of `escape`, in its order.
  unfold escape
  by_cases hquote : c = '"'
  · rw [if_pos hquote, hquote]
    exact scanString_letter (by decide) rfl
  rw [if_neg hquote]
  by_cases hslash : c = '\\'
  · rw [if_pos hslash, hslash]
    exact scanString_letter (by decide) rfl
  rw [if_neg hslash]
  split
  · next h => rw [h]; exact scanString_letter (by decide) rfl
  split
  · next h => rw [h]; exact scanString_letter (by decide) rfl
  split
  · next h => rw [h]; exact scanString_letter (by decide) rfl
  split
  · next h => rw [h]; exact scanString_letter (by decide) rfl
  split
  · next h => rw [h]; exact scanString_letter (by decide) rfl
  split
  · next h => exact scanString_unit (hexValue4_control h)
  · next h => exact scanString_plain hquote hslash (Nat.le_of_not_lt h)

theorem scanString_flatMap_escape (cs rest : List Char) :
    scanString (cs.flatMap escape ++ '"' :: rest) = some (cs.map Char.toNat, rest) := by
  induction cs with
  | nil => rfl
  | cons c cs ih =>
    rw [List.flatMap_cons, List.append_assoc, scanString_escape, ih]
    rfl

/-- No character is half of a surrogate pair. -/
theorem isSurrogate_toNat (c : Char) :
    isHighSurrogate c.toNat = false ∧ isLowSurrogate c.toNat = false := by
  have hvalid : c.toNat < 55296 ∨ 57343 < c.toNat ∧ c.toNat < 1114112 := c.valid
  simp only [isHighSurrogate, isLowSurrogate, Bool.and_eq_false_iff, decide_eq_false_iff_not]
  omega

theorem unitChars_toNat (cs : List Char) : unitChars (cs.map Char.toNat) = some cs := by
  induction cs with
  | nil => rfl
  | cons c cs ih =>
    obtain ⟨hhigh, hlow⟩ := isSurrogate_toNat c
    cases cs with
    | nil => simp [unitChars, hhigh, hlow]
    | cons d cs =>
      rw [List.map_cons, List.map_cons, unitChars, hhigh, hlow, ← List.map_cons, ih]
      simp

/-- The spelling of a string is read as the string, and as no text where it spells none. -/
theorem scanToken_spell (spelling : Spelling) (rest : List Char) :
    ∃ cs, spell spelling ++ rest = '"' :: cs ∧
      scanToken '"' cs = some (.string spelling, rest) := by
  cases spelling with
  | none => exact ⟨_, rfl, rfl⟩
  | some s =>
    refine ⟨s.toList.flatMap escape ++ '"' :: rest, by simp [spell], ?_⟩
    rw [scanToken, scanString_flatMap_escape, Option.map_some, Json.spelling, unitChars_toNat]
    simp

end Strings

section Numbers

theorem head?_toDigits_ne_zero {n : Nat} (h : 0 < n) : (Nat.toDigits 10 n).head? ≠ some '0' := by
  induction n using Nat.strongRecOn with
  | ind n ih =>
    rcases Nat.lt_or_ge n 10 with hlt | hge
    · have hdigit : ∀ m < 10, 0 < m → m.digitChar ≠ '0' := by decide
      rw [Nat.toDigits_of_lt_base hlt, List.head?_cons]
      exact fun heq => hdigit n hlt h (Option.some.inj heq)
    · have hrest := ih (n / 10) (by omega) (by omega)
      rw [Nat.toDigits_of_base_le (by decide) hge]
      cases hds : Nat.toDigits 10 (n / 10) with
      | nil => exact absurd hds Nat.toDigits_ne_nil
      | cons d ds => rwa [hds] at hrest

theorem isWhole_toDigits (n : Nat) : isWhole (Nat.toDigits 10 n) = true := by
  rcases Nat.eq_zero_or_pos n with rfl | hpos
  · rfl
  · have hhead := head?_toDigits_ne_zero hpos
    have hall := List.all_eq_true.mpr (Text.isDigit_toDigits n)
    rw [isWhole.eq_def]
    split
    · next heq => exact absurd heq Nat.toDigits_ne_nil
    · next heq => rw [heq] at hhead; exact absurd rfl hhead
    · exact hall

theorem readNumber_toDigits (negative : Bool) {n : Nat} (h : negative = true → 0 < n) :
    readNumber negative (Nat.toDigits 10 n) =
      some (.integer (if negative then -(n : Int) else n)) := by
  have htake : (Nat.toDigits 10 n).takeWhile Char.isDigit = Nat.toDigits 10 n :=
    List.takeWhile_eq_self_iff.mpr (Text.isDigit_toDigits n)
  have hdrop : (Nat.toDigits 10 n).dropWhile Char.isDigit = [] :=
    List.dropWhile_eq_nil_iff.mpr (Text.isDigit_toDigits n)
  have hzero : (negative && ((n : Int) == 0)) = false := by
    cases negative with
    | false => rfl
    | true => simpa using Nat.ne_of_gt (h rfl)
  simp only [readNumber, htake, hdrop, isWhole_toDigits, Nat.ofDigitChars_ten_toDigits, hzero]
  rfl

/-- No number that stands before the text goes on in it. -/
def EndsNumber (rest : List Char) : Prop :=
  ∀ c ∈ rest.head?, isNumeric c = false

theorem isNumeric_of_isDigit {c : Char} (h : c.isDigit = true) : isNumeric c = true := by
  simp [isNumeric, h]

theorem isNumeric_toDigits (n : Nat) : ∀ c ∈ Nat.toDigits 10 n, isNumeric c = true :=
  fun c hc => isNumeric_of_isDigit (Text.isDigit_toDigits n c hc)

theorem isSpace_of_isDigit {c : Char} (h : c.isDigit = true) : isSpace c = false := by
  cases hc : isSpace c with
  | false => rfl
  | true =>
    simp only [isSpace, Bool.or_eq_true, decide_eq_true_eq] at hc
    rcases hc with ((rfl | rfl) | rfl) | rfl <;> exact absurd h (by decide)

theorem scanToken_of_isDigit {c : Char} (h : c.isDigit = true) (cs : List Char) :
    scanToken c cs =
      (readNumber false (c :: cs.takeWhile isNumeric)).map (·, cs.dropWhile isNumeric) := by
  unfold scanToken
  split
  case h_12 => rfl
  all_goals exact absurd h (by decide)

theorem scanToken_natural (n : Nat) {rest : List Char} (hrest : EndsNumber rest) :
    ∃ c cs, Nat.toDigits 10 n ++ rest = c :: cs ∧ isSpace c = false ∧
      scanToken c cs = some (.integer n, rest) := by
  have hread := readNumber_toDigits false (n := n) (fun h => absurd h Bool.false_ne_true)
  cases hds : Nat.toDigits 10 n with
  | nil => exact absurd hds Nat.toDigits_ne_nil
  | cons c cs =>
    -- A token is told by its first character, so the first digit stands apart.
    have hc : c.isDigit = true := Text.isDigit_toDigits n c (hds ▸ List.mem_cons_self)
    have hcs : ∀ d ∈ cs, isNumeric d = true := fun d hd =>
      isNumeric_toDigits n d (hds ▸ List.mem_cons_of_mem c hd)
    refine ⟨c, cs ++ rest, rfl, isSpace_of_isDigit hc, ?_⟩
    rw [scanToken_of_isDigit hc, Text.takeWhile_append_eq hcs hrest,
      Text.dropWhile_append_eq hcs hrest, ← hds, hread]
    rfl

theorem scanToken_negative {n : Nat} (h : 0 < n) {rest : List Char} (hrest : EndsNumber rest) :
    scanToken '-' (Nat.toDigits 10 n ++ rest) = some (.integer (-n), rest) := by
  have hdigits := isNumeric_toDigits n
  rw [scanToken, Text.takeWhile_append_eq hdigits hrest, Text.dropWhile_append_eq hdigits hrest,
    readNumber_toDigits true (fun _ => h)]
  rfl

end Numbers

section Scan

theorem scan_of_scanToken {c : Char} {cs rest : List Char} {token : Token}
    (hspace : isSpace c = false) (h : scanToken c cs = some (token, rest)) :
    scan (c :: cs) = (scan rest).map (token :: ·) := by
  rw [scan, if_neg (by simp [hspace])]
  split
  · next heq => rw [h] at heq; cases heq
  · next found heq =>
    rw [h] at heq
    obtain rfl := Option.some.inj heq
    rfl

theorem scan_spell (spelling : Spelling) (rest : List Char) :
    scan (spell spelling ++ rest) = (scan rest).map (.string spelling :: ·) := by
  obtain ⟨cs, hcs, h⟩ := scanToken_spell spelling rest
  rw [hcs, scan_of_scanToken (by decide) h]

theorem scan_integer (n : Int) {rest : List Char} (hrest : EndsNumber rest) :
    scan ((Token.integer n).chars ++ rest) = (scan rest).map (.integer n :: ·) := by
  rw [Token.chars, Int.toString_eq_repr]
  cases n with
  | ofNat n =>
    show scan (n.repr.toList ++ rest) = _
    rw [Nat.toList_repr]
    obtain ⟨c, cs, hcs, hspace, h⟩ := scanToken_natural n hrest
    rw [hcs, scan_of_scanToken hspace h]
    rfl
  | negSucc n =>
    show scan (("-" ++ (n + 1).repr).toList ++ rest) = _
    rw [String.toList_append, Nat.toList_repr]
    exact scan_of_scanToken (by decide) (scanToken_negative (Nat.succ_pos n) hrest)

def Token.isNumber : Token → Bool
  | .integer _ => true
  | .real _ => true
  | _ => false

/-- Every token but a number is split off whatever follows. -/
theorem scan_chars {token : Token} (h : token.isNumber = false) (rest : List Char) :
    scan (token.chars ++ rest) = (scan rest).map (token :: ·) := by
  cases token with
  | openArray | closeArray | openObject | closeObject | comma | colon | null =>
    exact scan_of_scanToken (by decide) rfl
  | string spelling => exact scan_spell spelling rest
  | bool b => cases b <;> exact scan_of_scanToken (by decide) rfl
  | integer n => cases h
  | real literal => cases h

end Scan

end Json
end SetLaws
