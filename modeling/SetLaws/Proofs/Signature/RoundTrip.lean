import SetLaws.Proofs.Signature.Listing
import SetLaws.Proofs.Signature.Operands
import SetLaws.Proofs.Signature.Partition
import SetLaws.Proofs.Text.Ends
import SetLaws.Signature.Text

/-!
# Writing and reading

What is written of a signature reads back as the signature when the names in it can stand
between braces, and no other names are ever read.
-/

namespace SetLaws
namespace Signature

/-- Between braces the name reads back as it is. -/
structure IsReadable (name : String) : Prop where
  ne_empty : name ≠ ""
  no_brace : ∀ c ∈ name.toList, isBrace c = false
  trim_eq : Text.trim name = name

/-! ### What is read -/

section

variable {t : Token} {s : Signature}

theorem Token.of_meaning_eq_operand (h : t.meaning = .operand s) :
    s = .empty ∨ s = .universal ∨ t.kind = .name ∧ s = .set t.lexeme ∨
      t.kind = .braced ∧ unbraced t.lexeme ≠ "" ∧ s = .set (unbraced t.lexeme) := by
  unfold Token.meaning at h
  split at h
  case h_5 =>
    cases h
    exact Or.inl rfl
  case h_6 =>
    cases h
    exact Or.inr (Or.inl rfl)
  case h_7 hkind =>
    cases h
    exact Or.inr (Or.inr (Or.inl ⟨hkind, rfl⟩))
  case h_8 hkind =>
    dsimp only at h
    split at h
    · cases h
    · next hne =>
      cases h
      exact Or.inr (Or.inr (Or.inr ⟨hkind, fun h => hne (String.isEmpty_iff.mpr h), rfl⟩))
  all_goals cases h

variable {start : Nat} {cs : List Char}

theorem isReadable_lexeme (ht : t ∈ split start cs) (hkind : t.kind = .name) :
    IsReadable t.lexeme := by
  obtain ⟨_, _, -, -, hform⟩ := stands_of_mem_split ht
  rw [hkind] at hform
  obtain ⟨⟨c, ds, hlexeme, hc, hds⟩, -⟩ := hform
  have hrest : ∀ d ∈ t.lexeme.toList, isNameRest d = true := by
    rw [hlexeme]
    exact List.forall_mem_cons.mpr ⟨isNameRest_of_isNameStart hc, hds⟩
  constructor
  · intro h
    rw [← String.toList_eq_nil_iff, hlexeme] at h
    cases h
  · exact fun d hd => isBrace_eq_false_of_isNameRest (hrest d hd)
  · have htrim := Text.trimChars_eq_self fun d hd => isBlank_eq_false_of_isNameRest (hrest d hd)
    rw [← String.toList_inj, Text.toList_trim, htrim]

theorem isReadable_unbraced (ht : t ∈ split start cs) (hkind : t.kind = .braced)
    (hne : unbraced t.lexeme ≠ "") : IsReadable (unbraced t.lexeme) := by
  obtain ⟨_, _, -, -, hform⟩ := stands_of_mem_split ht
  rw [hkind] at hform
  obtain ⟨inside, hlexeme, hinside⟩ := hform
  have hname : (unbraced t.lexeme).toList = Text.trimChars inside := by
    rw [unbraced, String.toList_ofList, hlexeme, List.drop_one, List.tail_cons,
      List.dropLast_concat]
  constructor
  · exact hne
  · intro d hd
    rw [hname] at hd
    exact hinside d ((Text.trimChars_sublist inside).mem hd)
  · rw [← String.toList_inj, Text.toList_trim, hname, Text.trimChars_trimChars]

end

/-- Only readable names are listed. -/
theorem Listing.isReadable {s : Signature} {ts : List Token} (h : Listing s ts)
    (hts : ∀ t ∈ ts, ∃ start cs, t ∈ split start cs) : ∀ x ∈ s.operands, IsReadable x := by
  induction h with
  | @operand t s h =>
    obtain ⟨start, cs, ht⟩ := hts t List.mem_cons_self
    rcases Token.of_meaning_eq_operand h with rfl | rfl | ⟨hkind, rfl⟩ | ⟨hkind, hne, rfl⟩
    · rw [operands_empty]
      exact fun x hx => absurd hx List.not_mem_nil
    · rw [operands_universal]
      exact fun x hx => absurd hx List.not_mem_nil
    · intro x hx
      rw [operands_set, List.mem_singleton] at hx
      exact hx ▸ isReadable_lexeme ht hkind
    · intro x hx
      rw [operands_set, List.mem_singleton] at hx
      exact hx ▸ isReadable_unbraced ht hkind hne
  | complement _ _ ih =>
    rw [operands_complement]
    exact ih fun t ht => hts t (List.mem_cons_of_mem _ ht)
  | binary _ _ _ iha ihb =>
    rw [operands_binary, List.forall_mem_append]
    constructor
    · exact iha fun t ht => hts t (List.mem_cons_of_mem _ (List.mem_append_left _ ht))
    · exact ihb fun t ht => hts t (List.mem_cons_of_mem _ (List.mem_append_right _ ht))

theorem isReadable_of_read {text : String} {s : Signature} (h : read text = .ok s) :
    ∀ x ∈ s.operands, IsReadable x := by
  refine (read_eq_ok_iff.mp h).isReadable fun t ht => ?_
  exact ⟨0, text.toList, (List.mem_filter.mp ht).1⟩

/-! ### What is written -/

/-- The text splits into tokens that list the signature, wherever it is followed by the end
or by something that is no part of a word. -/
structure Spells (text : List Char) (s : Signature) : Prop where
  head : ∃ c cs, text = c :: cs ∧ isSeparator c = false
  split : ∀ start rest, (∀ d ∈ rest.head?, isNameRest d = false) →
    ∃ ts stop, split start (text ++ rest) = ts ++ Signature.split stop rest ∧
      Listing s (ts.filter (·.kind ≠ .blank))

/-- A piece of text that scans as one token spells the operand that the token means. -/
theorem spells_operand {c : Char} {cs : List Char} (kind : TokenKind) {s : Signature}
    (hc : isSeparator c = false) (hkind : kind ≠ .blank)
    (hscan : ∀ rest, (∀ d ∈ rest.head?, isNameRest d = false) →
      scan c (cs ++ rest) = (kind, cs.length))
    (hmeaning : ∀ start, Token.meaning ⟨kind, start, String.ofList (c :: cs)⟩ = .operand s) :
    Spells (c :: cs) s where
  head := ⟨c, cs, rfl, hc⟩
  split := by
    intro start rest hrest
    obtain ⟨stop, h⟩ := exists_split_of_scan start (hscan rest hrest)
    refine ⟨[_], stop, h, ?_⟩
    rw [List.filter_cons_of_pos (by simp [hkind]), List.filter_nil]
    exact .operand (hmeaning start)

theorem unbraced_braced {name : String} (h : IsReadable name) :
    unbraced (String.ofList ('\x7b' :: (name.toList ++ ['\x7d']))) = name := by
  rw [unbraced, String.toList_ofList, List.drop_one, List.tail_cons, List.dropLast_concat]
  exact h.trim_eq

theorem spells_set {name : String} (h : IsReadable name) :
    Spells (braced name).toList (.set name) := by
  have htext : (braced name).toList = '\x7b' :: (name.toList ++ ['\x7d']) := by
    rw [braced, String.toList_append, String.toList_append]
    rfl
  have hempty : name.isEmpty = false := by
    cases hname : name.isEmpty with
    | false => rfl
    | true => exact absurd (String.isEmpty_iff.mp hname) h.ne_empty
  rw [htext]
  refine spells_operand .braced rfl (by decide) (fun rest _ => scan_braced h.no_brace) ?_
  intro start
  simp only [Token.meaning, unbraced_braced h, hempty]
  rfl

theorem spells_empty : Spells "VACIO".toList .empty := by
  have hword : ∀ d ∈ ['A', 'C', 'I', 'O'], isNameRest d = true := List.all_eq_true.mp rfl
  exact spells_operand .empty rfl (by decide) (fun _ hrest => scan_word rfl hword hrest)
    fun _ => rfl

theorem spells_universal : Spells "UNIVERSO".toList .universal := by
  have hword : ∀ d ∈ ['N', 'I', 'V', 'E', 'R', 'S', 'O'], isNameRest d = true :=
    List.all_eq_true.mp rfl
  exact spells_operand .universal rfl (by decide) (fun _ hrest => scan_word rfl hword hrest)
    fun _ => rfl

section

variable {text text' : List Char} {s s' : Signature}

/-- A blank in front of an operand is a token of its own. -/
theorem Spells.after_space (h : Spells text s) (start : Nat) {rest : List Char}
    (hrest : ∀ d ∈ rest.head?, isNameRest d = false) :
    ∃ ts stop, Signature.split start (' ' :: (text ++ rest)) = ts ++ Signature.split stop rest ∧
      Listing s (ts.filter (·.kind ≠ .blank)) := by
  obtain ⟨c, cs, rfl, hc⟩ := h.head
  have hscan : scan ' ' (c :: cs ++ rest) = (.blank, 0) := by
    refine scan_space fun d hd => ?_
    cases hd
    exact hc
  obtain ⟨stop, hspace⟩ := exists_split_of_scan_zero start hscan
  obtain ⟨ts, stop', hsplit, hlisting⟩ := h.split stop rest hrest
  refine ⟨⟨.blank, start, String.ofList [' ']⟩ :: ts, stop', ?_, ?_⟩
  · rw [hspace, hsplit, List.cons_append]
  · rw [List.filter_cons_of_neg (by simp)]
    exact hlisting

theorem Spells.complement (h : Spells text s) {gap : List Char} (hgap : gap = [] ∨ gap = [' ']) :
    Spells ('^' :: (gap ++ text)) (.complement s) where
  head := ⟨'^', gap ++ text, rfl, rfl⟩
  split := by
    intro start rest hrest
    have hscan : scan '^' (gap ++ text ++ rest) = (.complement, 0) := rfl
    obtain ⟨stop, hsign⟩ := exists_split_of_scan_zero start hscan
    have hoperand : ∃ ts stop', Signature.split stop (gap ++ text ++ rest) =
        ts ++ Signature.split stop' rest ∧ Listing s (ts.filter (·.kind ≠ .blank)) := by
      rcases hgap with rfl | rfl
      · exact h.split stop rest hrest
      · exact h.after_space stop hrest
    obtain ⟨ts, stop', hsplit, hlisting⟩ := hoperand
    refine ⟨⟨.complement, start, String.ofList ['^']⟩ :: ts, stop', ?_, ?_⟩
    · rw [List.cons_append, hsign, hsplit, List.cons_append]
    · rw [List.filter_cons_of_pos (by simp)]
      exact .complement rfl hlisting

/-- The sign of an operator before a blank is a token of its own. -/
theorem exists_scan_symbol (op : BinaryOp) :
    ∃ c kind, op.symbol.toList = [c] ∧ isSeparator c = false ∧ kind ≠ .blank ∧
      (∀ rest, scan c (' ' :: rest) = (kind, 0)) ∧
      ∀ start, Token.meaning ⟨kind, start, String.ofList [c]⟩ = .operator (.left op) := by
  cases op with
  | union => exact ⟨'U', .union, rfl, rfl, by decide, fun _ => rfl, fun _ => rfl⟩
  | intersection => exact ⟨'&', .intersection, rfl, rfl, by decide, fun _ => rfl, fun _ => rfl⟩
  | difference => exact ⟨'-', .difference, rfl, rfl, by decide, fun _ => rfl, fun _ => rfl⟩

theorem Spells.binary (op : BinaryOp) (h : Spells text s) (h' : Spells text' s') :
    Spells (op.symbol.toList ++ ' ' :: (text ++ ' ' :: text')) (.binary op s s') := by
  obtain ⟨c, kind, hsymbol, hc, hkind, hscan, hmeaning⟩ := exists_scan_symbol op
  rw [hsymbol]
  refine ⟨⟨c, _, rfl, hc⟩, ?_⟩
  intro start rest hrest
  have hspace : ∀ d ∈ (' ' :: (text' ++ rest)).head?, isNameRest d = false := by
    intro d hd
    cases hd
    rfl
  obtain ⟨stop, hsign⟩ := exists_split_of_scan_zero start (hscan (text ++ ' ' :: (text' ++ rest)))
  obtain ⟨ts, stop', hsplit, hlisting⟩ := h.after_space stop hspace
  obtain ⟨us, stop'', hsplit', hlisting'⟩ := h'.after_space stop' hrest
  refine ⟨⟨kind, start, String.ofList [c]⟩ :: (ts ++ us), stop'', ?_, ?_⟩
  · have htext : [c] ++ ' ' :: (text ++ ' ' :: text') ++ rest =
        c :: ' ' :: (text ++ ' ' :: (text' ++ rest)) := by
      simp only [List.cons_append, List.nil_append, List.append_assoc]
    refine (congrArg (Signature.split start) htext).trans ?_
    rw [hsign, hsplit, hsplit', List.cons_append, List.append_assoc]
  · rw [List.filter_cons_of_pos (by simp [hkind]), List.filter_append]
    exact .binary (hmeaning start) hlisting hlisting'

end

/-- Where all names are readable, what is written in the place of an operand spells it. -/
theorem spells_operandText {s : Signature} (hs : ∀ x ∈ s.operands, IsReadable x) :
    Spells s.operandText.toList s := by
  induction s with
  | set name =>
    rw [operands_set] at hs
    exact spells_set (hs name (List.mem_singleton_self name))
  | empty => exact spells_empty
  | universal => exact spells_universal
  | complement s ih =>
    rw [operands_complement] at hs
    have hgap : s.complementGap.toList = [] ∨ s.complementGap.toList = [' '] := by
      cases s with
      | set | empty | universal | complement => exact Or.inl rfl
      | binary =>
        refine Or.inr ?_
        rw [complementGap]
        rfl
    rw [operandText, String.toList_append, String.toList_append, List.append_assoc]
    exact (ih hs).complement hgap
  | binary op s t ihs iht =>
    rw [operands_binary, List.forall_mem_append] at hs
    have htext : (binary op s t).operandText.toList =
        op.symbol.toList ++ ' ' :: (s.operandText.toList ++ ' ' :: t.operandText.toList) := by
      rw [operandText, String.toList_append, String.toList_append, String.toList_append,
        String.toList_append, List.append_assoc, List.append_assoc, List.append_assoc]
      rfl
    rw [htext]
    exact (ihs hs.1).binary op (iht hs.2)

/-- A name that is written bare is one token. -/
theorem listing_of_isBareName {name : String} (h : isBareName name = true) :
    Listing (.set name) (tokenize name) := by
  unfold isBareName at h
  split at h
  · next t ht =>
    have hkind : t.kind = .name := of_decide_eq_true h
    have hlexeme : t.lexeme = name := by
      have htext := flatMap_lexeme_split 0 name.toList
      rw [ht, List.flatMap_singleton] at htext
      exact String.toList_inj.mp htext
    rw [tokenize, ht, List.filter_cons_of_pos (by simp [hkind]), List.filter_nil]
    refine .operand ?_
    rw [Token.meaning, hkind, hlexeme]
  · cases h

/-- What is written of a signature with readable names is read as the signature. -/
theorem read_text {s : Signature} (hs : ∀ x ∈ s.operands, IsReadable x) :
    read s.text = .ok s := by
  -- Only a name by itself is written in another way than in the place of an operand.
  have hoperand : Listing s (tokenize s.operandText) := by
    have hend : ∀ d ∈ ([] : List Char).head?, isNameRest d = false := by
      intro d hd
      cases hd
    obtain ⟨ts, stop, hsplit, hlisting⟩ := (spells_operandText hs).split 0 [] hend
    rw [List.append_nil, split_nil, List.append_nil] at hsplit
    rw [tokenize, hsplit]
    exact hlisting
  rw [read_eq_ok_iff]
  cases s with
  | set name =>
    rw [text]
    by_cases hbare : isBareName name = true
    · rw [if_pos hbare]
      exact listing_of_isBareName hbare
    · rw [if_neg hbare]
      exact hoperand
  | empty | universal | complement | binary => exact hoperand

/-- Writing and reading are inverse to each other on the signatures whose names are readable,
which are those that are read from any text at all. -/
theorem read_text_inverse :
    (∀ s : Signature, read s.text = .ok s ↔ ∀ x ∈ s.operands, IsReadable x) ∧
    (∀ {t : String} {s : Signature}, read t = .ok s →
      (∀ x ∈ s.operands, IsReadable x) ∧ read s.text = .ok s) ∧
    ∀ {s t : Signature}, (∀ x ∈ s.operands, IsReadable x) → (∀ x ∈ t.operands, IsReadable x) →
      s.text = t.text → s = t := by
  refine ⟨?_, ?_, ?_⟩
  · intro s
    exact ⟨isReadable_of_read, read_text⟩
  · intro t s h
    exact ⟨isReadable_of_read h, read_text (isReadable_of_read h)⟩
  · intro s t hs ht htext
    have hread : read t.text = .ok s := htext ▸ read_text hs
    rw [read_text ht] at hread
    exact (Except.ok.inj hread).symm

/-- A keyword in braces is a name. -/
theorem read_text_inverse_keyword :
    (∀ x ∈ (binary .union (set "U") (complement (set "a b"))).operands, IsReadable x) ∧
    (binary .union (set "U") (complement (set "a b"))).text = "U \x7bU\x7d ^\x7ba b\x7d" ∧
    read (binary .union (set "U") (complement (set "a b"))).text =
      .ok (binary .union (set "U") (complement (set "a b"))) := by
  have hread : read "U \x7bU\x7d^ \x7b  a b \x7d" =
      .ok (binary .union (set "U") (complement (set "a b"))) := by decide +kernel
  obtain ⟨hreadable, hback⟩ := read_text_inverse.2.1 hread
  exact ⟨hreadable, by decide +kernel, hback⟩

example : read (set "a\x7d").text = .error (.invalidSignature (.trailing "\x7d" ⟨3, 4⟩)) := by
  decide +kernel

end Signature
end SetLaws
