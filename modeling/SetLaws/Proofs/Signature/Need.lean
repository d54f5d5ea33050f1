import SetLaws.Proofs.Signature.Listing
import SetLaws.Proofs.Text.Ends

/-!
# Counting the operands that are needed

Whether tokens make up a signature can be told without building it: one operand is needed
at first, an operator on two sets needs one more, and a set needs one less.  The tokens are
a signature when the last of them is the one after which nothing is needed.  Otherwise the
count also tells which token is at fault.
-/

namespace SetLaws

/-- What a signature in prefix form is made of. -/
inductive Item where
  | operator (op : Operator)
  | empty
  | universal
  | set (name : String)
deriving DecidableEq, Repr

namespace Item

/-- The operands needed after the item, where `n + 1` are needed before it. -/
def needAfter (n : Nat) : Item → Nat
  | .operator (.binary _) => n + 2
  | .operator .complement => n + 1
  | .empty => n
  | .universal => n
  | .set _ => n

/-- What a token means that is written for the item. -/
def meaning : Item → Signature.Meaning
  | .operator (.binary op) => .operator (.left op)
  | .operator .complement => .operator .complement
  | .empty => .operand .empty
  | .universal => .operand .universal
  | .set name => .operand (.set name)

theorem meaning_injective {i j : Item} (h : i.meaning = j.meaning) : i = j := by
  cases i with
  | operator op =>
    cases j with
    | operator op' =>
      cases op <;> cases op' <;> cases h <;> rfl
    | empty | universal | set => cases op <;> cases h
  | empty | universal | set =>
    cases j with
    | operator op => cases op <;> cases h
    | empty | universal | set => cases h <;> rfl

end Item

namespace Signature

/-- The items of the signature in prefix order. -/
def items : Signature → List Item
  | .set name => [.set name]
  | .empty => [.empty]
  | .universal => [.universal]
  | .complement s => .operator .complement :: s.items
  | .binary op a b => .operator (.binary op) :: (a.items ++ b.items)

/-- An operand that is read from one token is the item of that token. -/
theorem items_of_meaning {i : Item} {s : Signature} (h : i.meaning = .operand s) :
    s.items = [i] := by
  cases i with
  | operator op => cases op <;> cases h
  | empty | universal | set name =>
    cases h
    rfl

theorem length_items (s : Signature) : s.items.length = s.tokenCount := by
  induction s with
  | set | empty | universal => rfl
  | complement s ih => rw [items, List.length_cons, ih, tokenCount, Nat.add_comm]
  | binary op a b iha ihb =>
    rw [items, List.length_cons, List.length_append, iha, ihb, tokenCount]
    omega

namespace Token

/-- What stands between the first and the last character. -/
def inside (t : Token) : List Char :=
  (t.lexeme.toList.drop 1).dropLast

/-- The item that a token is written for.  Blanks, symbols and braces around nothing but
blanks are written for none. -/
def item? (t : Token) : Option Item :=
  match t.kind with
  | .union => some (.operator (.binary .union))
  | .intersection => some (.operator (.binary .intersection))
  | .difference => some (.operator (.binary .difference))
  | .complement => some (.operator .complement)
  | .empty => some .empty
  | .universal => some .universal
  | .name => some (.set t.lexeme)
  | .braced =>
    if t.inside.all Text.isBlank then none else some (.set (Text.trim (String.ofList t.inside)))
  | .blank => none
  | .symbol => none

/-- What is wrong with a token that is written for no item. -/
def refusal (t : Token) : SignatureFault :=
  if t.kind = .braced then .blankName t.extent else .unexpected t.lexeme t.extent

theorem unbraced_lexeme (t : Token) :
    unbraced t.lexeme = Text.trim (String.ofList t.inside) := by
  rw [unbraced, Text.trim, String.toList_ofList, inside]

/-- A token is read as the item that it is written for. -/
theorem meaning_eq (t : Token) :
    t.meaning = (t.item?.map Item.meaning).getD (.fault t.refusal) := by
  cases hkind : t.kind with
  | braced =>
    simp only [meaning, item?, refusal, hkind, unbraced_lexeme, Text.isEmpty_trim_ofList, if_true]
    split <;> rfl
  | _ => simp only [meaning, item?, refusal, hkind]; rfl

theorem meaning_of_item? {t : Token} {i : Item} (h : t.item? = some i) :
    t.meaning = i.meaning := by
  rw [meaning_eq, h]
  rfl

theorem meaning_of_item?_eq_none {t : Token} (h : t.item? = none) :
    t.meaning = .fault t.refusal := by
  rw [meaning_eq, h]
  rfl

theorem item?_of_meaning {t : Token} {i : Item} (h : t.meaning = i.meaning) :
    t.item? = some i := by
  cases hitem : t.item? with
  | none =>
    rw [meaning_of_item?_eq_none hitem] at h
    cases i with
    | operator op => cases op <;> cases h
    | empty | universal | set => cases h
  | some j =>
    rw [meaning_of_item? hitem] at h
    rw [Item.meaning_injective h]

/-- The fault of a token at which `need` operands are needed. -/
inductive Refused (t : Token) : Nat → SignatureFault → Prop where
  | symbol {m : Nat} (kind : t.kind = .symbol) : t.Refused (m + 1) (.unexpected t.lexeme t.extent)
  | blankName {m : Nat} (kind : t.kind = .braced)
      (inside : ∀ c ∈ t.inside, Text.isBlank c = true) : t.Refused (m + 1) (.blankName t.extent)
  | trailing : t.Refused 0 (.trailing t.lexeme t.extent)

section

variable {t : Token} {m : Nat} {cause : SignatureFault}

theorem refused_zero_iff : t.Refused 0 cause ↔ cause = .trailing t.lexeme t.extent := by
  constructor
  · intro h
    cases h
    rfl
  · intro h
    subst h
    exact .trailing

theorem item?_eq_none_of_refused (h : t.Refused (m + 1) cause) : t.item? = none := by
  cases h with
  | symbol kind => simp only [item?, kind]
  | blankName kind inside => simp only [item?, kind, List.all_eq_true.mpr inside, if_true]

theorem refused_succ_iff (h : t.item? = none) (hblank : t.kind ≠ .blank) :
    t.Refused (m + 1) cause ↔ cause = t.refusal := by
  cases hkind : t.kind with
  | symbol =>
    have hrefusal : t.refusal = .unexpected t.lexeme t.extent := by
      simp only [refusal, hkind, reduceCtorEq, if_false]
    rw [hrefusal]
    constructor
    · intro hrefused
      cases hrefused with
      | symbol => rfl
      | blankName kind => exact absurd (hkind.symm.trans kind) (by decide)
    · intro hcause
      subst hcause
      exact .symbol hkind
  | braced =>
    have hrefusal : t.refusal = .blankName t.extent := by
      simp only [refusal, hkind, if_true]
    have hinside : ∀ c ∈ t.inside, Text.isBlank c = true := by
      by_contra hne
      have hall : t.inside.all Text.isBlank ≠ true := fun hall => hne (List.all_eq_true.mp hall)
      simp only [item?, hkind, if_neg hall, reduceCtorEq] at h
    rw [hrefusal]
    constructor
    · intro hrefused
      cases hrefused with
      | symbol kind => exact absurd (hkind.symm.trans kind) (by decide)
      | blankName => rfl
    · intro hcause
      subst hcause
      exact .blankName hkind hinside
  | blank => exact absurd hkind hblank
  | _ => simp only [item?, hkind, reduceCtorEq] at h

end

end Token

/-- The operands needed after the tokens, where `n` are needed before them.  There is no
answer when a token is written for no item, or comes when nothing is needed. -/
def needAfter : Nat → List Token → Option Nat
  | n, [] => some n
  | 0, _ :: _ => none
  | n + 1, t :: ts => t.item?.bind fun i => needAfter (i.needAfter n) ts

/-- The first fault of the tokens, where `n` operands are needed before them. -/
inductive Obstacle (n : Nat) (tokens : List Token) : SignatureFault → Prop where
  | token {before after : List Token} {t : Token} {m : Nat} {cause : SignatureFault}
      (split : tokens = before ++ t :: after) (need : needAfter n before = some m)
      (refused : t.Refused m cause) : Obstacle n tokens cause
  | ending {m : Nat} (need : needAfter n tokens = some (m + 1)) : Obstacle n tokens .unexpectedEnd

section

variable {n m : Nat} {t : Token} {ts : List Token} {i : Item} {cause : SignatureFault}

theorem needAfter_cons (h : t.item? = some i) :
    needAfter (n + 1) (t :: ts) = needAfter (i.needAfter n) ts := by
  rw [needAfter, h, Option.bind_some]

theorem needAfter_cons_eq_some (h : needAfter n (t :: ts) = some m) :
    ∃ k i, n = k + 1 ∧ t.item? = some i ∧ needAfter (i.needAfter k) ts = some m := by
  cases n with
  | zero => exact absurd h (Option.some_ne_none m).symm
  | succ k =>
    obtain ⟨i, hitem, hneed⟩ := Option.bind_eq_some_iff.mp h
    exact ⟨k, i, rfl, hitem, hneed⟩

theorem obstacle_nil_iff : Obstacle n [] cause ↔ 0 < n ∧ cause = .unexpectedEnd := by
  constructor
  · intro h
    cases h with
    | token split => exact absurd (List.append_eq_nil_iff.mp split.symm).2 (List.cons_ne_nil _ _)
    | @ending m need =>
      have hn : n = m + 1 := Option.some.inj need
      exact ⟨by omega, rfl⟩
  · intro h
    obtain ⟨hn, rfl⟩ := h
    have hneed : needAfter n [] = some (n - 1 + 1) := congrArg some (by omega)
    exact .ending hneed

/-- The first fault is that of the first token, or else one of the tokens after it. -/
theorem obstacle_cons_iff : Obstacle n (t :: ts) cause ↔
    t.Refused n cause ∨
      ∃ k i, n = k + 1 ∧ t.item? = some i ∧ Obstacle (i.needAfter k) ts cause := by
  constructor
  · intro h
    cases h with
    | token split need refused =>
      rcases List.cons_eq_append_iff.mp split with ⟨rfl, hhead⟩ | ⟨before, rfl, htail⟩
      · obtain ⟨rfl, _⟩ := List.cons.inj hhead
        obtain rfl := Option.some.inj need
        exact Or.inl refused
      · obtain ⟨k, i, hn, hitem, hneed⟩ := needAfter_cons_eq_some need
        exact Or.inr ⟨k, i, hn, hitem, .token htail hneed refused⟩
    | ending need =>
      obtain ⟨k, i, hn, hitem, hneed⟩ := needAfter_cons_eq_some need
      exact Or.inr ⟨k, i, hn, hitem, .ending hneed⟩
  · intro h
    rcases h with hrefused | ⟨k, i, rfl, hitem, h⟩
    · have hfirst : t :: ts = [] ++ t :: ts := rfl
      exact .token hfirst rfl hrefused
    · cases h with
      | token split need refused =>
        rw [← needAfter_cons hitem] at need
        exact .token (congrArg (List.cons t) split) need refused
      | ending need =>
        rw [← needAfter_cons hitem] at need
        exact .ending need

theorem obstacle_cons (h : t.item? = some i) :
    Obstacle (n + 1) (t :: ts) cause ↔ Obstacle (i.needAfter n) ts cause := by
  rw [obstacle_cons_iff]
  constructor
  · intro hobstacle
    rcases hobstacle with hrefused | ⟨k, j, hk, hitem, hobstacle⟩
    · rw [Token.item?_eq_none_of_refused hrefused] at h
      cases h
    · obtain rfl := Nat.succ.inj hk
      obtain rfl := Option.some.inj (h.symm.trans hitem)
      exact hobstacle
  · intro hobstacle
    exact Or.inr ⟨n, i, rfl, h, hobstacle⟩

theorem obstacle_cons_of_item?_eq_none (h : t.item? = none) (hblank : t.kind ≠ .blank) :
    Obstacle (n + 1) (t :: ts) cause ↔ cause = t.refusal := by
  rw [obstacle_cons_iff, Token.refused_succ_iff h hblank]
  simp only [h, reduceCtorEq, false_and, and_false, exists_false, or_false]

theorem obstacle_zero_cons_iff :
    Obstacle 0 (t :: ts) cause ↔ cause = .trailing t.lexeme t.extent := by
  rw [obstacle_cons_iff, Token.refused_zero_iff]
  simp only [reduceCtorEq, false_and, exists_false, or_false]

end

/-! ### Reading counts -/

/-- How many of the waiting operators have two operands missing. -/
def bareCount : List Waiting → Nat
  | [] => 0
  | .complement :: rest => bareCount rest
  | .left _ :: rest => bareCount rest + 1
  | .right _ _ :: rest => bareCount rest

/-- An operand takes its place beside the innermost operator that has none yet. -/
theorem bareCount_supply (waiting : List Waiting) (s : Signature) :
    match supply waiting s with
    | .inl waiting' => bareCount waiting = bareCount waiting' + 1
    | .inr _ => bareCount waiting = 0 := by
  fun_induction supply waiting s with
  | case1 => rfl
  | case2 s rest ih => exact ih
  | case3 => rfl
  | case4 s op lhs rest ih => exact ih

/-- The tokens are accepted when nothing is needed behind the last one, and otherwise refused
for their first obstacle. -/
def Counts (n : Nat) (tokens : List Token) (result : Except SignatureFault Signature) : Prop :=
  ((∃ s, result = .ok s) ↔ needAfter n tokens = some 0) ∧
  ∀ cause, result = .error cause ↔ Obstacle n tokens cause

section

variable {n : Nat} {tokens : List Token} {result : Except SignatureFault Signature}

theorem counts_ok {s : Signature} (hneed : needAfter n tokens = some 0)
    (hnone : ∀ cause, ¬ Obstacle n tokens cause) : Counts n tokens (.ok s) := by
  constructor
  · exact iff_of_true ⟨s, rfl⟩ hneed
  · intro cause
    exact iff_of_false (fun h => nomatch h) (hnone cause)

theorem counts_error {fault : SignatureFault} (hneed : needAfter n tokens ≠ some 0)
    (h : ∀ cause, Obstacle n tokens cause ↔ cause = fault) : Counts n tokens (.error fault) := by
  constructor
  · refine iff_of_false ?_ hneed
    intro hok
    obtain ⟨s, hs⟩ := hok
    cases hs
  · intro cause
    rw [h cause, Except.error.injEq]
    exact eq_comm

theorem counts_cons {t : Token} {i : Item} (h : t.item? = some i)
    (hcounts : Counts (i.needAfter n) tokens result) : Counts (n + 1) (t :: tokens) result := by
  rw [Counts, needAfter_cons h]
  refine ⟨hcounts.1, fun cause => ?_⟩
  rw [obstacle_cons h]
  exact hcounts.2 cause

end

theorem counts_resume {waiting : List Waiting} {rest : List Token} (s : Signature)
    (ih : ∀ waiting, Counts (bareCount waiting + 1) rest (readTokens waiting rest)) :
    Counts (bareCount waiting) rest (resume waiting s rest) := by
  have hsupply := bareCount_supply waiting s
  unfold resume
  cases hcase : supply waiting s with
  | inl waiting' =>
    -- The operand was one of those that were needed.
    rw [hcase] at hsupply
    rw [hsupply]
    exact ih waiting'
  | inr s' =>
    -- The signature is complete, and a token that is left over is the obstacle.
    rw [hcase] at hsupply
    rw [hsupply]
    cases rest with
    | nil => exact counts_ok rfl fun cause h => absurd (obstacle_nil_iff.mp h).1 (Nat.lt_irrefl 0)
    | cons extra rest =>
      exact counts_error (Option.some_ne_none 0).symm fun cause => obstacle_zero_cons_iff

/-- With waiting operators, the operands needed are those of the bare ones and one more, which
is read next. -/
theorem counts_readTokens {tokens : List Token} (h : ∀ t ∈ tokens, t.kind ≠ .blank)
    (waiting : List Waiting) :
    Counts (bareCount waiting + 1) tokens (readTokens waiting tokens) := by
  -- Each token changes what waits, so the count has to be right for anything that waits.
  induction tokens generalizing waiting with
  | nil =>
    refine counts_error (fun hneed => Nat.succ_ne_zero _ (Option.some.inj hneed)) fun cause => ?_
    rw [obstacle_nil_iff]
    exact and_iff_right (Nat.succ_pos _)
  | cons t rest ih =>
    obtain ⟨ht, hrest⟩ := List.forall_mem_cons.mp h
    cases hitem : t.item? with
    | none =>
      rw [readTokens, Token.meaning_of_item?_eq_none hitem]
      refine counts_error ?_ fun cause => obstacle_cons_of_item?_eq_none hitem ht
      rw [needAfter, hitem, Option.bind_none]
      exact (Option.some_ne_none 0).symm
    | some i =>
      have hmeaning := Token.meaning_of_item? hitem
      refine counts_cons hitem ?_
      cases i with
      | operator op =>
        cases op with
        | complement =>
          rw [readTokens_operator hmeaning]
          exact ih hrest (.complement :: waiting)
        | binary op =>
          rw [readTokens_operator hmeaning]
          exact ih hrest (.left op :: waiting)
      | empty | universal | set name =>
        rw [readTokens_operand hmeaning]
        exact counts_resume _ (ih hrest)

/-- Listed tokens are written for the items of the signature that they list. -/
theorem Listing.map_item? {s : Signature} {ts : List Token} (h : Listing s ts) :
    ts.map Token.item? = s.items.map some := by
  induction h with
  | @operand t s h =>
    cases hitem : t.item? with
    | none =>
      rw [Token.meaning_of_item?_eq_none hitem] at h
      cases h
    | some i =>
      rw [Token.meaning_of_item? hitem] at h
      rw [items_of_meaning h, List.map_singleton, List.map_singleton, hitem]
  | complement h _ ih =>
    have hitem := Token.item?_of_meaning (i := .operator .complement) h
    rw [items, List.map_cons, List.map_cons, hitem, ih]
  | @binary t op a b ts us h _ _ iha ihb =>
    have hitem := Token.item?_of_meaning (i := .operator (.binary op)) h
    rw [items, List.map_cons, List.map_cons, List.map_append, List.map_append, hitem, iha, ihb]

theorem kind_ne_blank_of_mem_tokenize (text : String) :
    ∀ t ∈ tokenize text, t.kind ≠ .blank := by
  intro t ht
  exact of_decide_eq_true (List.mem_filter.mp ht).2

theorem read_eq_error_iff {text : String} {fault : Fault} : read text = .error fault ↔
    ∃ cause, fault = .invalidSignature cause ∧ readTokens [] (tokenize text) = .error cause := by
  rw [read]
  cases readTokens [] (tokenize text) with
  | ok s =>
    simp only [Except.mapError, reduceCtorEq, and_false, exists_false]
  | error cause =>
    simp only [Except.mapError, Except.error.injEq, exists_eq_right']
    exact eq_comm

/-- A text is read as a signature when nothing is needed behind its last token, and then its
tokens are written for the items of the signature.  Any other text is refused for the first
obstacle. -/
theorem read_need (text : String) :
    ((∃ s, read text = .ok s) ↔ needAfter 1 (tokenize text) = some 0) ∧
    (∀ s, read text = .ok s →
      (tokenize text).map Token.item? = s.items.map some ∧
      s.tokenCount = (tokenize text).length) ∧
    ∀ fault, read text = .error fault ↔
      ∃ cause, fault = .invalidSignature cause ∧ Obstacle 1 (tokenize text) cause := by
  obtain ⟨hok, herror⟩ := counts_readTokens (kind_ne_blank_of_mem_tokenize text) []
  refine ⟨?_, ?_, ?_⟩
  · simp only [read_eq_ok_iff, ← readTokens_eq_ok_iff]
    exact hok
  · intro s hs
    have hitems := (read_eq_ok_iff.mp hs).map_item?
    have hlength := congrArg List.length hitems
    rw [List.length_map, List.length_map, length_items] at hlength
    exact ⟨hitems, hlength.symm⟩
  · intro fault
    rw [read_eq_error_iff]
    exact exists_congr fun cause => and_congr_right fun _ => herror cause

/-- A blank name is met before the end, and a symbol behind the end is not met as a symbol. -/
theorem read_need_obstacles :
    (∃ s, read "- ^ \x7b a \x7d U VACIO b" = .ok s ∧ s.tokenCount = 6) ∧
    Obstacle 1 (tokenize "& \x7bA\x7d \x7b \x7d |") (.blankName ⟨6, 9⟩) ∧
    Obstacle 1 (tokenize "^ A |") (.trailing "|" ⟨4, 5⟩) := by
  have hread : read "- ^ \x7b a \x7d U VACIO b" = .ok
      (.binary .difference (.complement (.set "a")) (.binary .union .empty (.set "b"))) := by
    decide +kernel
  have hblank : read "& \x7bA\x7d \x7b \x7d |" =
      .error (.invalidSignature (.blankName ⟨6, 9⟩)) := by decide +kernel
  have htrailing : read "^ A |" = .error (.invalidSignature (.trailing "|" ⟨4, 5⟩)) := by
    decide +kernel
  refine ⟨⟨_, hread, ?_⟩, ?_, ?_⟩
  · rw [((read_need _).2.1 _ hread).2]
    decide +kernel
  · obtain ⟨cause, hcause, hobstacle⟩ := ((read_need _).2.2 _).mp hblank
    cases hcause
    exact hobstacle
  · obtain ⟨cause, hcause, hobstacle⟩ := ((read_need _).2.2 _).mp htrailing
    cases hcause
    exact hobstacle

end Signature
end SetLaws
