import SetLaws.Signature.Parser

/-!
# What reading accepts

The tokens of a signature list its operators and its operands, each operator in front of
its operands.  Reading with a stack of waiting operators gives a signature exactly when the
tokens list it.
-/

namespace SetLaws
namespace Signature

/-- The tokens list the signature in prefix order. -/
inductive Listing : Signature → List Token → Prop where
  | operand {t : Token} {s : Signature} (h : t.meaning = .operand s) : Listing s [t]
  | complement {t : Token} {s : Signature} {ts : List Token}
      (h : t.meaning = .operator .complement) (hs : Listing s ts) :
      Listing (.complement s) (t :: ts)
  | binary {t : Token} {op : BinaryOp} {a b : Signature} {ts us : List Token}
      (h : t.meaning = .operator (.left op)) (ha : Listing a ts) (hb : Listing b us) :
      Listing (.binary op a b) (t :: (ts ++ us))

/-- How reading goes on when an operand is complete. -/
def resume (waiting : List Waiting) (s : Signature) (rest : List Token) :
    Except SignatureFault Signature :=
  match supply waiting s with
  | .inl waiting => readTokens waiting rest
  | .inr s =>
    match rest with
    | [] => .ok s
    | extra :: _ => .error (.trailing extra.lexeme extra.extent)

section

variable {waiting : List Waiting} {t : Token} {a b s : Signature} {ts rest : List Token}

theorem resume_complement :
    resume (.complement :: waiting) s rest = resume waiting (.complement s) rest := rfl

theorem resume_left {op : BinaryOp} :
    resume (.left op :: waiting) a rest = readTokens (.right op a :: waiting) rest := rfl

theorem resume_right {op : BinaryOp} :
    resume (.right op a :: waiting) b rest = resume waiting (.binary op a b) rest := rfl

theorem resume_nil_eq_ok (h : resume [] a rest = .ok s) : rest = [] ∧ a = s := by
  cases rest with
  | nil =>
    cases h
    exact ⟨rfl, rfl⟩
  | cons extra rest => cases h

theorem readTokens_operand (h : t.meaning = .operand s) :
    readTokens waiting (t :: rest) = resume waiting s rest := by
  rw [readTokens, h]
  rfl

theorem readTokens_operator {w : Waiting} (h : t.meaning = .operator w) :
    readTokens waiting (t :: rest) = readTokens (w :: waiting) rest := by
  rw [readTokens, h]

/-- Listed tokens are read as the signature they list, whatever waits for it. -/
theorem Listing.readTokens_append (h : Listing s ts) :
    readTokens waiting (ts ++ rest) = resume waiting s rest := by
  induction h generalizing waiting rest with
  | operand h => exact readTokens_operand h
  | complement h _ ih =>
    rw [List.cons_append, readTokens_operator h, ih, resume_complement]
  | binary h _ _ iha ihb =>
    rw [List.cons_append, readTokens_operator h, List.append_assoc, iha, resume_left, ihb,
      resume_right]

/-- No token stands for an operator that has its first operand already. -/
theorem Token.eq_of_meaning_eq_operator {w : Waiting} (h : t.meaning = .operator w) :
    w = .complement ∨ ∃ op, w = .left op := by
  unfold Token.meaning at h
  split at h
  case h_1 | h_2 | h_3 =>
    cases h
    exact Or.inr ⟨_, rfl⟩
  case h_4 =>
    cases h
    exact Or.inl rfl
  case h_8 =>
    dsimp only at h
    split at h <;> cases h
  all_goals cases h

end

/-- Tokens that are read begin with those of an operand for the innermost waiting operator. -/
theorem exists_listing_of_readTokens {waiting : List Waiting} {s : Signature} :
    (tokens : List Token) → readTokens waiting tokens = .ok s →
    ∃ a ts rest, tokens = ts ++ rest ∧ Listing a ts ∧ resume waiting a rest = .ok s
  | [], h => by
    rw [readTokens] at h
    cases h
  | t :: tokens, h => by
    cases hmeaning : t.meaning with
    | fault cause =>
      rw [readTokens, hmeaning] at h
      cases h
    | operand a =>
      rw [readTokens_operand hmeaning] at h
      exact ⟨a, [t], tokens, rfl, .operand hmeaning, h⟩
    | operator w =>
      rw [readTokens_operator hmeaning] at h
      obtain ⟨a, ts, rest, htokens, ha, h⟩ := exists_listing_of_readTokens tokens h
      rcases Token.eq_of_meaning_eq_operator hmeaning with rfl | ⟨op, rfl⟩
      · rw [resume_complement] at h
        refine ⟨.complement a, t :: ts, rest, ?_, .complement hmeaning ha, h⟩
        rw [htokens, List.cons_append]
      · rw [resume_left] at h
        -- The tokens of the second operand come after those of the first, not after `t`.
        have hlength : rest.length < (t :: tokens).length := by
          rw [htokens, List.length_cons, List.length_append]
          omega
        obtain ⟨b, us, rest', hrest, hb, h⟩ := exists_listing_of_readTokens rest h
        rw [resume_right] at h
        refine ⟨.binary op a b, t :: (ts ++ us), rest', ?_, .binary hmeaning ha hb, h⟩
        rw [htokens, hrest, List.cons_append, List.append_assoc]
termination_by tokens => tokens.length
decreasing_by
  · exact Nat.lt_succ_self _
  · assumption

/-- Exactly the listed tokens are read. -/
theorem readTokens_eq_ok_iff {tokens : List Token} {s : Signature} :
    readTokens [] tokens = .ok s ↔ Listing s tokens := by
  constructor
  · intro h
    obtain ⟨a, ts, rest, rfl, ha, h⟩ := exists_listing_of_readTokens tokens h
    obtain ⟨rfl, rfl⟩ := resume_nil_eq_ok h
    rw [List.append_nil]
    exact ha
  · intro h
    rw [← List.append_nil tokens, h.readTokens_append]
    rfl

theorem read_eq_ok_iff {text : String} {s : Signature} :
    read text = .ok s ↔ Listing s (tokenize text) := by
  rw [← readTokens_eq_ok_iff, read]
  cases readTokens [] (tokenize text) with
  | ok a =>
    constructor
    · intro h
      cases h
      rfl
    · intro h
      cases h
      rfl
  | error cause =>
    constructor
    · intro h
      cases h
    · intro h
      cases h

end Signature
end SetLaws
