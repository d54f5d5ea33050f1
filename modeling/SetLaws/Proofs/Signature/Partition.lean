import Mathlib.Data.List.Pairwise
import SetLaws.Proofs.Signature.Tokens

/-!
# How tokens divide a text

The tokens of a text and the blanks between them follow each other without a gap.  Every
token has the form of its kind, and a word, a blank or an unclosed brace goes on as far as
it can.
-/

namespace SetLaws
namespace Signature

def reserved : List (List Char) :=
  ["U".toList, "VACIO".toList, "UNIVERSO".toList]

/-- A letter or an underscore, and then letters, digits and underscores. -/
def IsWord (cs : List Char) : Prop :=
  ∃ c ds, cs = c :: ds ∧ isNameStart c = true ∧ ∀ d ∈ ds, isNameRest d = true

/-- No letter, digit or underscore comes first. -/
def EndsWord (after : List Char) : Prop :=
  ∀ d ∈ after.head?, isNameRest d = false

/-- A brace with all that comes after it up to the next brace, which does not close it. -/
def IsUnclosed (lexeme after : List Char) : Prop :=
  ∃ inside, lexeme = '\x7b' :: inside ∧ (∀ d ∈ inside, isBrace d = false) ∧
    ∀ d ∈ after.head?, d = '\x7b'

/-- The form of a token of each kind, before the text that comes after it. -/
def HasForm (lexeme after : List Char) : TokenKind → Prop
  | .blank => ∀ d ∈ lexeme, isSeparator d = true
  | .union => lexeme = "U".toList ∧ EndsWord after
  | .intersection => lexeme = ['&']
  | .difference => lexeme = ['-']
  | .complement => lexeme = ['^']
  | .empty => lexeme = "VACIO".toList ∧ EndsWord after
  | .universal => lexeme = "UNIVERSO".toList ∧ EndsWord after
  | .braced => ∃ inside, lexeme = '\x7b' :: (inside ++ ['\x7d']) ∧ ∀ d ∈ inside, isBrace d = false
  | .name => IsWord lexeme ∧ EndsWord after ∧ lexeme ∉ reserved
  | .symbol =>
    (∃ c, lexeme = [c] ∧ isSeparator c = false ∧ isNameStart c = false ∧
      c ∉ ['\x7b', '&', '-', '^']) ∨ IsUnclosed lexeme after

/-- The byte belongs to the token. -/
def Token.Covers (t : Token) (p : Nat) : Prop :=
  t.start ≤ p ∧ p < t.stop

/-- A token in braces, or one that starts with a brace that is not closed. -/
def Token.Encloses (t : Token) : Prop :=
  t.kind = .braced ∨ t.kind = .symbol ∧ ∃ inside, t.lexeme.toList = '\x7b' :: inside

theorem hasForm_wordKind {lexeme after : List Char} (h : IsWord lexeme) (hafter : EndsWord after) :
    HasForm lexeme after (wordKind lexeme) := by
  unfold wordKind
  split
  · next hword => exact ⟨hword, hafter⟩
  · next hunion =>
    split
    · next hword => exact ⟨hword, hafter⟩
    · next hempty =>
      split
      · next hword => exact ⟨hword, hafter⟩
      · next huniversal =>
        refine ⟨h, hafter, fun hmem => ?_⟩
        simp only [reserved, List.mem_cons, List.not_mem_nil, or_false] at hmem
        rcases hmem with hword | hword | hword
        · exact hunion hword
        · exact hempty hword
        · exact huniversal hword

theorem hasForm_scan_word {c : Char} (hstart : isNameStart c = true) (cs : List Char) :
    HasForm (c :: cs.take (scan c cs).2) (cs.drop (scan c cs).2) (scan c cs).1 := by
  rw [scan, if_neg (by simp [isSeparator_eq_false_of_isNameStart hstart]), if_pos hstart]
  dsimp only
  rw [Text.take_length_takeWhile]
  refine hasForm_wordKind ⟨c, _, rfl, hstart, fun d hd => List.mem_takeWhile_imp hd⟩ ?_
  exact Text.head?_drop_length_takeWhile cs isNameRest

theorem hasForm_scan_brace (cs : List Char) :
    HasForm ('\x7b' :: cs.take (scan '\x7b' cs).2) (cs.drop (scan '\x7b' cs).2)
      (scan '\x7b' cs).1 := by
  have hinside : ∀ d ∈ cs.takeWhile (fun d => !isBrace d), isBrace d = false := by
    intro d hd
    simpa using List.mem_takeWhile_imp hd
  rw [scan, if_neg (by decide), if_neg (by decide), if_pos rfl]
  dsimp only
  split
  · next hclosed =>
    refine ⟨cs.takeWhile fun d => !isBrace d, ?_, hinside⟩
    rw [List.take_add_one, ← List.head?_drop, hclosed, Text.take_length_takeWhile]
    rfl
  · next hopen =>
    dsimp only
    rw [Text.take_length_takeWhile]
    refine Or.inr ⟨_, rfl, hinside, fun d hd => ?_⟩
    -- The brace that ends the token does not close it, so it opens another one.
    have hnot := Text.head?_drop_length_takeWhile cs (fun d => !isBrace d) d hd
    simp only [isBrace, Bool.not_eq_false', Bool.or_eq_true, decide_eq_true_eq] at hnot
    rcases hnot with rfl | rfl
    · rfl
    · exact absurd hd hopen

theorem hasForm_scan (c : Char) (cs : List Char) :
    HasForm (c :: cs.take (scan c cs).2) (cs.drop (scan c cs).2) (scan c cs).1 := by
  by_cases hseparator : isSeparator c = true
  · rw [scan, if_pos hseparator]
    dsimp only
    rw [Text.take_length_takeWhile]
    exact List.forall_mem_cons.mpr ⟨hseparator, fun d hd => List.mem_takeWhile_imp hd⟩
  · by_cases hstart : isNameStart c = true
    · exact hasForm_scan_word hstart cs
    · by_cases hbrace : c = '\x7b'
      · subst hbrace
        exact hasForm_scan_brace cs
      · rw [scan, if_neg hseparator, if_neg hstart, if_neg hbrace]
        repeat' split
        · next h => exact congrArg (· :: []) h
        · next h => exact congrArg (· :: []) h
        · next h => exact congrArg (· :: []) h
        · next hand hminus hcaret =>
          refine Or.inl ⟨c, rfl, by simpa using hseparator, by simpa using hstart, ?_⟩
          simp only [List.mem_cons, hbrace, hand, hminus, hcaret, List.not_mem_nil, or_false,
            not_false_eq_true]

section Form

variable {lexeme after : List Char} {kind : TokenKind}

/-- A word is reserved as a whole, or it is a name. -/
theorem kind_eq_wordKind (h : HasForm lexeme after kind) (hword : IsWord lexeme) :
    kind = wordKind lexeme := by
  obtain ⟨c, ds, hlexeme, hstart, -⟩ := hword
  cases kind with
  | blank =>
    have hseparator := h c (hlexeme ▸ List.mem_cons_self)
    rw [isSeparator_eq_false_of_isNameStart hstart] at hseparator
    cases hseparator
  | union => rw [h.1]; rfl
  | empty => rw [h.1]; rfl
  | universal => rw [h.1]; rfl
  | intersection | difference | complement =>
    obtain ⟨rfl, -⟩ := List.cons.inj (hlexeme.symm.trans h)
    exact absurd hstart (by decide)
  | braced =>
    obtain ⟨inside, hbraced, -⟩ := h
    obtain ⟨rfl, -⟩ := List.cons.inj (hlexeme.symm.trans hbraced)
    exact absurd hstart (by decide)
  | name =>
    have hfree := h.2.2
    simp only [reserved, List.mem_cons, List.not_mem_nil, or_false, not_or] at hfree
    exact ((if_neg hfree.1).trans ((if_neg hfree.2.1).trans (if_neg hfree.2.2))).symm
  | symbol =>
    rcases h with ⟨d, hsingle, -, hnot, -⟩ | ⟨inside, hopen, -⟩
    · obtain ⟨rfl, -⟩ := List.cons.inj (hlexeme.symm.trans hsingle)
      rw [hstart] at hnot
      cases hnot
    · obtain ⟨rfl, -⟩ := List.cons.inj (hlexeme.symm.trans hopen)
      exact absurd hstart (by decide)

theorem isWord_of_mem_reserved (h : lexeme ∈ reserved) : IsWord lexeme := by
  simp only [reserved, List.mem_cons, List.not_mem_nil, or_false] at h
  rcases h with rfl | rfl | rfl
  · exact ⟨'U', [], rfl, rfl, List.all_eq_true.mp rfl⟩
  · exact ⟨'V', ['A', 'C', 'I', 'O'], rfl, rfl, List.all_eq_true.mp rfl⟩
  · exact ⟨'U', ['N', 'I', 'V', 'E', 'R', 'S', 'O'], rfl, rfl, List.all_eq_true.mp rfl⟩

/-- A reserved word is never read as anything else, and nothing else is read as one. -/
theorem kind_eq_wordKind_iff (h : HasForm lexeme after kind) (word : List Char)
    (hword : word ∈ reserved) : kind = wordKind word ↔ lexeme = word := by
  constructor
  · rintro rfl
    simp only [reserved, List.mem_cons, List.not_mem_nil, or_false] at hword
    rcases hword with rfl | rfl | rfl
    · exact h.1
    · exact h.1
    · exact h.1
  · rintro rfl
    exact kind_eq_wordKind h (isWord_of_mem_reserved hword)

theorem isSeparator_eq_false_of_isWord (hword : IsWord lexeme) :
    ∀ d ∈ lexeme, isSeparator d = false := by
  obtain ⟨c, ds, rfl, hstart, hrest⟩ := hword
  refine List.forall_mem_cons.mpr ⟨isSeparator_eq_false_of_isNameStart hstart, fun d hd => ?_⟩
  exact isSeparator_eq_false_of_isNameRest (hrest d hd)

/-- Blanks inside of tokens stand behind an opening brace. -/
theorem encloses_of_isSeparator {t : Token} (h : HasForm t.lexeme.toList after t.kind)
    (hkind : t.kind ≠ .blank) {d : Char} (hd : d ∈ t.lexeme.toList)
    (hseparator : isSeparator d = true) : t.Encloses := by
  have hfree (hall : ∀ d ∈ t.lexeme.toList, isSeparator d = false) : t.Encloses := by
    rw [hall d hd] at hseparator
    cases hseparator
  have hreserved (hmem : t.lexeme.toList ∈ reserved) : t.Encloses :=
    hfree (isSeparator_eq_false_of_isWord (isWord_of_mem_reserved hmem))
  cases hk : t.kind with rw [hk] at h hkind
  | blank => exact absurd rfl hkind
  | union => exact hreserved (h.1 ▸ .head _)
  | empty => exact hreserved (h.1 ▸ .tail _ (.head _))
  | universal => exact hreserved (h.1 ▸ .tail _ (.tail _ (.head _)))
  | intersection | difference | complement =>
    exact hfree (by rw [h]; exact List.forall_mem_singleton.mpr rfl)
  | braced => exact Or.inl hk
  | name => exact hfree (isSeparator_eq_false_of_isWord h.1)
  | symbol =>
    rcases h with ⟨c, hsingle, hnot, -⟩ | ⟨inside, hopen, -⟩
    · exact hfree (by rw [hsingle]; exact List.forall_mem_singleton.mpr hnot)
    · exact Or.inr ⟨hk, inside, hopen⟩

end Form

section Split

variable {start : Nat} {cs : List Char}

/-- A token stands in the text, in front of what it was scanned with. -/
theorem stands_of_mem_split {t : Token} (h : t ∈ split start cs) :
    ∃ before after : String, String.ofList cs = before ++ t.lexeme ++ after ∧
      t.start = start + before.utf8ByteSize ∧ HasForm t.lexeme.toList after.toList t.kind := by
  fun_induction split start cs with
  | case1 => exact absurd h List.not_mem_nil
  | case2 start c cs found token ih =>
    have htext : String.ofList (c :: cs) = token.lexeme ++ String.ofList (cs.drop found.2) := by
      show _ = String.ofList _ ++ _
      rw [← String.ofList_append, List.cons_append, List.take_append_drop]
    rcases List.mem_cons.mp h with rfl | h
    · refine ⟨"", String.ofList (cs.drop found.2), ?_, rfl, ?_⟩
      · rw [htext, String.empty_append]
      · rw [String.toList_ofList, String.toList_ofList]
        exact hasForm_scan c cs
    · obtain ⟨before, after, hrest, hstart, hform⟩ := ih h
      refine ⟨token.lexeme ++ before, after, ?_, ?_, hform⟩
      · rw [htext, hrest, String.append_assoc, String.append_assoc, String.append_assoc]
      · rw [hstart, String.utf8ByteSize_append, ← Nat.add_assoc]
        rfl

theorem start_le_of_mem_split {t : Token} (h : t ∈ split start cs) : start ≤ t.start := by
  obtain ⟨before, _, _, hstart, _⟩ := stands_of_mem_split h
  exact hstart ▸ Nat.le_add_right start _

theorem pairwise_split : (split start cs).Pairwise fun t u => t.stop ≤ u.start := by
  fun_induction split start cs with
  | case1 => exact .nil
  | case2 start c cs found token ih =>
    exact List.pairwise_cons.mpr ⟨fun u hu => start_le_of_mem_split hu, ih⟩

/-- The bytes of the first characters. -/
def size (cs : List Char) : Nat :=
  (String.ofList cs).utf8ByteSize

theorem size_append (cs ds : List Char) : size (cs ++ ds) = size cs + size ds := by
  rw [size, String.ofList_append, String.utf8ByteSize_append]
  rfl

theorem size_cons (c : Char) (cs : List Char) : size (c :: cs) = c.utf8Size + size cs := by
  rw [← List.singleton_append, size_append, size]
  congr 1
  exact String.utf8ByteSize_singleton

/-- A token reaches over the bytes of each of its characters. -/
theorem Token.size_le {t : Token} {before after : List Char} {c : Char}
    (h : t.lexeme.toList = before ++ c :: after) :
    t.start + size before + c.utf8Size ≤ t.stop := by
  have hsize : t.lexeme.utf8ByteSize = size before + (c.utf8Size + size after) := by
    rw [← size_cons, ← size_append, ← h, size, String.ofList_toList]
  rw [Token.stop, hsize]
  omega

/-- Every character of the text belongs to a token, with all its bytes. -/
theorem exists_mem_split (start : Nat) (before : List Char) (c : Char) (after : List Char)
    (h : cs = before ++ c :: after) :
    ∃ t ∈ split start cs, c ∈ t.lexeme.toList ∧ t.start ≤ start + size before ∧
      start + size before + c.utf8Size ≤ t.stop := by
  fun_induction split start cs generalizing before with
  | case1 => exact absurd h.symm (by simp)
  | case2 start d cs found token ih =>
    have hsplit : token.lexeme.toList ++ cs.drop found.2 = before ++ c :: after := by
      rw [← h, String.toList_ofList, List.cons_append, List.take_append_drop]
    have hplace :
        (∃ gap, before = token.lexeme.toList ++ gap ∧ cs.drop found.2 = gap ++ c :: after) ∨
        ∃ tail, token.lexeme.toList = before ++ c :: tail := by
      rcases List.append_eq_append_iff.mp hsplit with hgap | ⟨tail, hlexeme, hrest⟩
      · exact Or.inl hgap
      · cases tail with
        | nil => exact Or.inl ⟨[], by rw [hlexeme, List.append_nil, List.append_nil], hrest.symm⟩
        | cons d tail =>
          obtain ⟨rfl, -⟩ := List.cons.inj hrest
          exact Or.inr ⟨tail, hlexeme⟩
    rcases hplace with ⟨gap, rfl, hrest⟩ | ⟨tail, hlexeme⟩
    · obtain ⟨t, ht, hc, hle, hge⟩ := ih gap hrest
      have hstop : token.stop = start + size token.lexeme.toList := by
        rw [size, String.ofList_toList]
        rfl
      rw [size_append, ← Nat.add_assoc, ← hstop]
      exact ⟨t, List.mem_cons_of_mem _ ht, hc, hle, hge⟩
    · refine ⟨token, List.mem_cons_self, ?_, Nat.le_add_right start _, Token.size_le hlexeme⟩
      rw [hlexeme]
      exact List.mem_append_right _ List.mem_cons_self

theorem eq_of_covers {t u : Token} {p : Nat} (ht : t ∈ split start cs) (hu : u ∈ split start cs)
    (htp : t.Covers p) (hup : u.Covers p) : t = u := by
  have : Std.Symm fun t u : Token => t.Covers p → u.Covers p → t = u :=
    ⟨fun t u h hup htp => (h htp hup).symm⟩
  have hpairwise : (split start cs).Pairwise fun t u => t.Covers p → u.Covers p → t = u :=
    pairwise_split.imp fun hstop htp hup => absurd (htp.2.trans_le hstop) (Nat.not_lt.mpr hup.1)
  exact hpairwise.forall_of_forall (fun _ _ _ _ => rfl) ht hu htp hup

end Split

/-- Tokens that stand in a text one after another and leave out nothing but blanks. -/
structure Partition (text : String) (tokens : List Token) : Prop where
  stands : ∀ t ∈ tokens, ∃ before after : String, text = before ++ t.lexeme ++ after ∧
    t.start = before.utf8ByteSize ∧ t.kind ≠ .blank ∧ HasForm t.lexeme.toList after.toList t.kind
  inside : ∀ t ∈ tokens, t.start < t.stop ∧ t.stop ≤ text.utf8ByteSize
  ordered : tokens.Pairwise fun t u => t.stop ≤ u.start
  union : ∀ t ∈ tokens, t.kind = .union ↔ t.lexeme = "U"
  empty : ∀ t ∈ tokens, t.kind = .empty ↔ t.lexeme = "VACIO"
  universal : ∀ t ∈ tokens, t.kind = .universal ↔ t.lexeme = "UNIVERSO"
  /-- No token covers a byte of a character just where the character is a blank and no brace
  encloses it. -/
  covered : ∀ (before after : String) (c : Char), text = before ++ String.singleton c ++ after →
    ∀ p, before.utf8ByteSize ≤ p → p < before.utf8ByteSize + c.utf8Size →
      ((∃ t ∈ tokens, t.Covers p) ↔
        isSeparator c = false ∨ ∃ t ∈ tokens, t.Encloses ∧ t.Covers p)

section Tokenize

variable {text : String} {t : Token}

theorem mem_tokenize : t ∈ tokenize text ↔ t ∈ split 0 text.toList ∧ t.kind ≠ .blank := by
  rw [tokenize, List.mem_filter, decide_eq_true_eq]

theorem stands_of_mem_tokenize (h : t ∈ tokenize text) :
    ∃ before after : String, text = before ++ t.lexeme ++ after ∧
      t.start = before.utf8ByteSize ∧ t.kind ≠ .blank ∧
      HasForm t.lexeme.toList after.toList t.kind := by
  obtain ⟨hsplit, hkind⟩ := mem_tokenize.mp h
  obtain ⟨before, after, htext, hstart, hform⟩ := stands_of_mem_split hsplit
  rw [String.ofList_toList] at htext
  rw [Nat.zero_add] at hstart
  exact ⟨before, after, htext, hstart, hkind, hform⟩

theorem inside_of_mem_tokenize (h : t ∈ tokenize text) :
    t.start < t.stop ∧ t.stop ≤ text.utf8ByteSize := by
  obtain ⟨before, after, rfl, hstart, -⟩ := stands_of_mem_tokenize h
  obtain ⟨c, ds, -, hlexeme⟩ := exists_scan_of_mem_split (mem_tokenize.mp h).1
  have hsize : t.lexeme.utf8ByteSize = c.utf8Size + size (ds.take (scan c ds).2) := by
    rw [hlexeme, ← size_cons, size]
  have hpos := c.utf8Size_pos
  rw [String.utf8ByteSize_append, String.utf8ByteSize_append, Token.stop]
  omega

/-- Blanks aside, every character is in a token. -/
theorem covers_tokenize_iff {before after : String} {c : Char} {p : Nat}
    (htext : text = before ++ String.singleton c ++ after) (hle : before.utf8ByteSize ≤ p)
    (hlt : p < before.utf8ByteSize + c.utf8Size) :
    (∃ t ∈ tokenize text, t.Covers p) ↔
      isSeparator c = false ∨ ∃ t ∈ tokenize text, t.Encloses ∧ t.Covers p := by
  have hlist : text.toList = before.toList ++ c :: after.toList := by
    rw [htext, String.toList_append, String.toList_append, String.toList_singleton,
      List.append_assoc, List.singleton_append]
  obtain ⟨u, hu, hc, hstart, hstop⟩ := exists_mem_split 0 before.toList c after.toList hlist
  rw [size, String.ofList_toList, Nat.zero_add] at hstart hstop
  have hup : u.Covers p := ⟨hstart.trans hle, hlt.trans_le hstop⟩
  obtain ⟨_, _, -, -, hform⟩ := stands_of_mem_split hu
  constructor
  · rintro ⟨t, ht, htp⟩
    obtain rfl := eq_of_covers (mem_tokenize.mp ht).1 hu htp hup
    cases hseparator : isSeparator c with
    | false => exact Or.inl rfl
    | true =>
      have hencloses := encloses_of_isSeparator hform (mem_tokenize.mp ht).2 hc hseparator
      exact Or.inr ⟨t, ht, hencloses, htp⟩
  · rintro (hseparator | ⟨t, ht, -, htp⟩)
    · refine ⟨u, mem_tokenize.mpr ⟨hu, fun hblank => ?_⟩, hup⟩
      rw [hblank] at hform
      rw [hform c hc] at hseparator
      cases hseparator
    · exact ⟨t, ht, htp⟩

/-- What is not a blank is in one of the tokens, which stand in the text in their order, each
of them in the form of its kind. -/
theorem tokenize_partition (text : String) : Partition text (tokenize text) where
  stands _ ht := stands_of_mem_tokenize ht
  inside _ ht := inside_of_mem_tokenize ht
  ordered := pairwise_split.filter _
  union t ht := by
    obtain ⟨_, _, -, -, -, hform⟩ := stands_of_mem_tokenize ht
    exact (kind_eq_wordKind_iff hform "U".toList (by decide)).trans String.toList_inj
  empty t ht := by
    obtain ⟨_, _, -, -, -, hform⟩ := stands_of_mem_tokenize ht
    exact (kind_eq_wordKind_iff hform "VACIO".toList (by decide)).trans String.toList_inj
  universal t ht := by
    obtain ⟨_, _, -, -, -, hform⟩ := stands_of_mem_tokenize ht
    exact (kind_eq_wordKind_iff hform "UNIVERSO".toList (by decide)).trans String.toList_inj
  covered _ _ _ htext _ hle hlt := covers_tokenize_iff htext hle hlt

example : (tokenize "^\x7bA \x7dUno |\x7bx \x7bB\x7d").map (fun t => (t.kind, t.lexeme)) =
    [(.complement, "^"), (.braced, "\x7bA \x7d"), (.name, "Uno"), (.symbol, "|"),
      (.symbol, "\x7bx "), (.braced, "\x7bB\x7d")] := by
  decide +kernel

end Tokenize

end Signature
end SetLaws
