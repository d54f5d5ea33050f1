import SetLaws.Proofs.Evaluation.Effect
import SetLaws.Proofs.Evaluation.Literal

/-!
# Ranges

A range is evaluated when both of its bounds are single elements with codes, and these are in
order.  Its value is the part of the universal set between the codes.  Otherwise the first bound
goes wrong before the last one, and their order is looked at in the end.
-/

namespace SetLaws

/-- The element is a character or an integer with a code from `a` to `b`. -/
inductive Element.LiesBetween (a b : Int64) : Element → Prop where
  | char {c : Char} (hfirst : a.toInt ≤ c.toNat) (hlast : c.toNat ≤ b.toInt) :
      LiesBetween a b (.char c)
  | int {n : Int64} (hfirst : a ≤ n) (hlast : n ≤ b) : LiesBetween a b (.int n)

/-- A text lies nowhere, as it has no code. -/
theorem Element.liesBetween_iff {a b : Int64} {x : Element} :
    x.LiesBetween a b ↔ ∃ code, x.ordinal = some code ∧ a ≤ code ∧ code ≤ b := by
  cases x with
  | char c =>
    have hcode : (Int64.ofNat c.toNat).toInt = c.toNat := by
      have := c.val.toNat_lt
      exact Int64.toInt_ofNat_of_lt (by show c.val.toNat < _; omega)
    simp only [ordinal, Option.some.injEq, exists_eq_left', Int64.le_iff_toInt_le, hcode]
    refine ⟨fun h => ?_, fun h => .char h.1 h.2⟩
    cases h with
    | char hfirst hlast => exact ⟨hfirst, hlast⟩
  | int n =>
    simp only [ordinal, Option.some.injEq, exists_eq_left']
    refine ⟨fun h => ?_, fun h => .int h.1 h.2⟩
    cases h with
    | int hfirst hlast => exact ⟨hfirst, hlast⟩
  | text s =>
    refine iff_of_false nofun ?_
    rintro ⟨code, h, -⟩
    cases h

namespace Expr

open Evaluator

/-- What an expression comes to as a bound of a range: the code of a single element, or what is
wrong with it. -/
inductive EndsAsBound (env : Environment) (e : Expr) : Except Diagnostic Int64 → Prop where
  | code {x : Element} {code : Int64} {t : Evaluation.State}
      (h : e.evaluate.start env = .ok (.element x) t) (hx : x.ordinal = some code) :
      EndsAsBound env e (.ok code)
  | fault {d : Diagnostic} {t : Evaluation.State} (h : e.evaluate.start env = .error d t) :
      EndsAsBound env e (.error d)
  | noCode {x : Element} {t : Evaluation.State} (h : e.evaluate.start env = .ok (.element x) t)
      (hx : x.ordinal = none) :
      EndsAsBound env e (.error (.single e.span (.invalidRange (.noCode x))))
  | notSingle {v : Value} {t : Evaluation.State} (h : e.evaluate.start env = .ok v t)
      (hv : v.kind ≠ .element) :
      EndsAsBound env e (.error (.single e.span (.invalidRange (.notSingle v.kind))))

/-- What a range comes to: what is wrong with its first bound, or else with the last one, or else
with their order, or else the members of the universal set between them. -/
inductive EndsAsRange (env : Environment) (first last : Expr) : Except Diagnostic Value → Prop where
  | first {d : Diagnostic} (h : first.EndsAsBound env (.error d)) :
      EndsAsRange env first last (.error d)
  | last {a : Int64} {d : Diagnostic} (ha : first.EndsAsBound env (.ok a))
      (h : last.EndsAsBound env (.error d)) : EndsAsRange env first last (.error d)
  | reversed {a b : Int64} (ha : first.EndsAsBound env (.ok a)) (hb : last.EndsAsBound env (.ok b))
      (h : b < a) :
      EndsAsRange env first last
        (.error ⟨[first.span, last.span], .invalidRange (.reversed a b)⟩)
  | members {a b : Int64} {members : ElementSet} (ha : first.EndsAsBound env (.ok a))
      (hb : last.EndsAsBound env (.ok b)) (h : a ≤ b)
      (hmem : ∀ x, x ∈ members.toList ↔ x ∈ env.universal.toList ∧ x.LiesBetween a b) :
      EndsAsRange env first last (.ok (.range members))

section

variable {env : Environment} {e first last : Expr}

theorem EndsAsBound.unique {r r' : Except Diagnostic Int64} (h : e.EndsAsBound env r)
    (h' : e.EndsAsBound env r') : r = r' := by
  cases h with
  | code heval hx =>
    cases h' with
    | code heval' hx' =>
      cases heval.symm.trans heval'
      rw [Option.some.inj (hx.symm.trans hx')]
    | fault heval' => cases heval.symm.trans heval'
    | noCode heval' hx' =>
      cases heval.symm.trans heval'
      cases hx.symm.trans hx'
    | notSingle heval' hv =>
      cases heval.symm.trans heval'
      exact absurd rfl hv
  | fault heval =>
    cases h' with
    | fault heval' =>
      cases heval.symm.trans heval'
      rfl
    | code heval' | noCode heval' | notSingle heval' => cases heval.symm.trans heval'
  | noCode heval hx =>
    cases h' with
    | code heval' hx' =>
      cases heval.symm.trans heval'
      cases hx.symm.trans hx'
    | fault heval' => cases heval.symm.trans heval'
    | noCode heval' =>
      cases heval.symm.trans heval'
      rfl
    | notSingle heval' hv =>
      cases heval.symm.trans heval'
      exact absurd rfl hv
  | notSingle heval hv =>
    cases h' with
    | fault heval' => cases heval.symm.trans heval'
    | code heval' | noCode heval' =>
      cases heval.symm.trans heval'
      exact absurd rfl hv
    | notSingle heval' =>
      cases heval.symm.trans heval'
      rfl

theorem EndsAsRange.unique {r r' : Except Diagnostic Value} (h : EndsAsRange env first last r)
    (h' : EndsAsRange env first last r') : r = r' := by
  cases h with
  | first h =>
    cases h' with
    | first h' =>
      cases h.unique h'
      rfl
    | last ha' | reversed ha' | members ha' => cases h.unique ha'
  | last ha h =>
    cases h' with
    | first h' => cases ha.unique h'
    | last _ h' =>
      cases h.unique h'
      rfl
    | reversed _ hb' | members _ hb' => cases h.unique hb'
  | reversed ha hb h =>
    cases h' with
    | first h' => cases ha.unique h'
    | last _ h' => cases hb.unique h'
    | reversed ha' hb' =>
      cases ha.unique ha'
      cases hb.unique hb'
      rfl
    | members ha' hb' h' =>
      cases ha.unique ha'
      cases hb.unique hb'
      exact absurd h (Int64.not_lt.mpr h')
  | members ha hb h hmem =>
    cases h' with
    | first h' => cases ha.unique h'
    | last _ h' => cases hb.unique h'
    | reversed ha' hb' h' =>
      cases ha.unique ha'
      cases hb.unique hb'
      exact absurd h' (Int64.not_lt.mpr h)
    | members ha' hb' _ hmem' =>
      cases ha.unique ha'
      cases hb.unique hb'
      refine congrArg (Except.ok ∘ Value.range) (ElementSet.members_injective ?_)
      ext x
      rw [ElementSet.mem_members_iff, ElementSet.mem_members_iff, hmem, hmem']

/-- Evaluating a bound is evaluating its expression, with nothing recorded. -/
theorem exists_endsAsBound (env : Environment) (e : Expr) : ∃ ending n,
    HasEffect env (e.evaluate.quietly >>= bound e.span) ⟨ending, n, []⟩ ∧
      e.EndsAsBound env ending := by
  obtain ⟨⟨ending, n, records⟩, hx, -⟩ := e.uniform_evaluate env
  have hstart : e.evaluate.start env = _ := hx.eq_on .empty
  cases ending with
  | error d => exact ⟨_, n, hx.quietly.bind_error, .fault hstart⟩
  | ok v =>
    cases v with
    | element x =>
      cases hcode : x.ordinal with
      | some code =>
        have hbound : HasEffect env (bound e.span (.element x)) ⟨.ok code, 0, []⟩ := by
          rw [bound, hcode]
          exact .pure code
        exact ⟨_, n, hx.quietly.bind hbound, .code hstart hcode⟩
      | none =>
        have hbound : HasEffect env (bound e.span (.element x))
            ⟨.error (.single e.span (.invalidRange (.noCode x))), 0, []⟩ := by
          rw [bound, hcode]
          exact .throw _
        exact ⟨_, n, hx.quietly.bind hbound, .noCode hstart hcode⟩
    | set members signature =>
      have hbound : HasEffect env (bound e.span (.set members signature)) _ := .throw _
      exact ⟨_, n, hx.quietly.bind hbound, .notSingle hstart fun h => by cases h⟩
    | range members =>
      have hbound : HasEffect env (bound e.span (.range members)) _ := .throw _
      exact ⟨_, n, hx.quietly.bind hbound, .notSingle hstart fun h => by cases h⟩
    | list elements =>
      have hbound : HasEffect env (bound e.span (.list elements)) _ := .throw _
      exact ⟨_, n, hx.quietly.bind hbound, .notSingle hstart fun h => by cases h⟩

/-- The members of the universal set between two codes, and nothing counted. -/
theorem exists_between (env : Environment) (a b : Int64) : ∃ members,
    HasEffect env (between a b) ⟨.ok (.range members), 0, []⟩ ∧
      ∀ x, x ∈ members.toList ↔ x ∈ env.universal.toList ∧ x.LiesBetween a b := by
  obtain ⟨within, hwithin, hbetween⟩ : ∃ within : Element → Bool,
      (∀ x, within x = true ↔ ∃ code, x.ordinal = some code ∧ a ≤ code ∧ code ≤ b) ∧
        ∀ s, between a b s = .ok (.range (s.env.universal.filter within)) s := by
    refine ⟨_, fun x => ?_, fun _ => rfl⟩
    cases x.ordinal <;> simp
  refine ⟨env.universal.filter within, fun n trace => ?_, fun x => ?_⟩
  · rw [hbetween, Evaluation.Effect.on, Evaluation.Effect.next, List.append_nil]
    rfl
  · rw [ElementSet.filter, List.mem_filter, hwithin, Element.liesBetween_iff]

/-- The end of a range with two codes, which have to be in order. -/
def inOrder (first last : Expr) (a b : Int64) : Evaluator Value :=
  if b < a then throw ⟨[first.span, last.span], .invalidRange (.reversed a b)⟩ else between a b

theorem evaluate_range_eq (first last : Expr) (span : Span) :
    (range first last span).evaluate =
      (first.evaluate.quietly >>= bound first.span) >>= fun a =>
        (last.evaluate.quietly >>= bound last.span) >>= inOrder first last a := by
  rw [evaluate]
  simp only [bind_assoc]
  rfl

theorem exists_inOrder {a b : Int64} (ha : first.EndsAsBound env (.ok a))
    (hb : last.EndsAsBound env (.ok b)) : ∃ ending,
      HasEffect env (inOrder first last a b) ⟨ending, 0, []⟩ ∧
        EndsAsRange env first last ending := by
  by_cases hab : b < a
  · rw [inOrder, if_pos hab]
    exact ⟨_, .throw _, .reversed ha hb hab⟩
  · obtain ⟨members, hbetween, hmem⟩ := exists_between env a b
    rw [inOrder, if_neg hab]
    exact ⟨_, hbetween, .members ha hb (Int64.not_lt.mp hab) hmem⟩

theorem exists_endsAsRange (env : Environment) (first last : Expr) (span : Span) :
    ∃ ending n, HasEffect env (range first last span).evaluate ⟨ending, n, []⟩ ∧
      EndsAsRange env first last ending := by
  obtain ⟨a?, m, hfirst, ha⟩ := exists_endsAsBound env first
  obtain ⟨b?, n, hlast, hb⟩ := exists_endsAsBound env last
  rw [evaluate_range_eq]
  cases a? with
  | error d => exact ⟨_, m, hfirst.bind_error, .first ha⟩
  | ok a =>
    cases b? with
    | error d =>
      have hrest : HasEffect env
          ((last.evaluate.quietly >>= bound last.span) >>= inOrder first last a) _ :=
        hlast.bind_error
      exact ⟨_, m + n, hfirst.bind (f := fun a => _ >>= inOrder first last a) hrest, .last ha hb⟩
    | ok b =>
      obtain ⟨ending, horder, hends⟩ := exists_inOrder ha hb
      have hrest : HasEffect env
          ((last.evaluate.quietly >>= bound last.span) >>= inOrder first last a) _ :=
        hlast.bind horder
      exact ⟨_, m + n, hfirst.bind (f := fun a => _ >>= inOrder first last a) hrest, hends⟩

variable (env first last)

theorem evaluate_range_ok_iff (trace : Trace) (span : Span) (v : Value) :
    (∃ t, (range first last span).evaluate ⟨env, trace⟩ = .ok v t) ↔
      EndsAsRange env first last (.ok v) := by
  obtain ⟨ending, n, heffect, hends⟩ := exists_endsAsRange env first last span
  rw [heffect.ok_iff trace v]
  exact ⟨fun h => h ▸ hends, fun h => hends.unique h⟩

theorem evaluate_range_error_iff (trace : Trace) (span : Span) (d : Diagnostic) :
    (∃ t, (range first last span).evaluate ⟨env, trace⟩ = .error d t) ↔
      EndsAsRange env first last (.error d) := by
  obtain ⟨ending, n, heffect, hends⟩ := exists_endsAsRange env first last span
  rw [heffect.error_iff trace d]
  exact ⟨fun h => h ▸ hends, fun h => hends.unique h⟩

theorem exists_endsAsRange_ok_iff : (∃ v, EndsAsRange env first last (.ok v)) ↔
    ∃ a b, first.EndsAsBound env (.ok a) ∧ last.EndsAsBound env (.ok b) ∧ a ≤ b := by
  constructor
  · rintro ⟨v, h⟩
    cases h with
    | members ha hb hab => exact ⟨_, _, ha, hb, hab⟩
  · rintro ⟨a, b, ha, hb, hab⟩
    obtain ⟨members, -, hmem⟩ := exists_between env a b
    exact ⟨_, .members ha hb hab hmem⟩

end

/-- A range has a value when both of its bounds have codes and these are in order.  The value and
the fault are those of `EndsAsRange`, whatever has been counted and recorded before, and nothing
but operations is counted on the way. -/
theorem evaluate_range (env : Environment) (trace : Trace) (first last : Expr) (span : Span) :
    let result := (range first last span).evaluate ⟨env, trace⟩
    ((∃ v t, result = .ok v t) ↔
      ∃ a b, first.EndsAsBound env (.ok a) ∧ last.EndsAsBound env (.ok b) ∧ a ≤ b) ∧
    (∀ v, (∃ t, result = .ok v t) ↔ EndsAsRange env first last (.ok v)) ∧
    (∀ d, (∃ t, result = .error d t) ↔ EndsAsRange env first last (.error d)) ∧
    ∃ n, (∃ v, result = .ok v ⟨env.countedBy n, trace⟩) ∨
      ∃ d, result = .error d ⟨env.countedBy n, trace⟩ := by
  intro result
  refine ⟨?_, evaluate_range_ok_iff env first last trace span,
    evaluate_range_error_iff env first last trace span, ?_⟩
  · rw [← exists_endsAsRange_ok_iff]
    exact exists_congr fun v => evaluate_range_ok_iff env first last trace span v
  · obtain ⟨ending, n, heffect, -⟩ := exists_endsAsRange env first last span
    have hresult : result = _ := heffect.eq_on trace
    rw [Evaluation.Effect.on, Evaluation.Effect.next, List.append_nil] at hresult
    refine ⟨n, ?_⟩
    cases ending with
    | ok v => exact Or.inl ⟨v, hresult⟩
    | error d => exact Or.inr ⟨d, hresult⟩

-- The codes of integers lie among those of characters, so a range can have members of both kinds.
example :
    let env := Environment.initial.extendUniversal [.int 100, .text "no code"]
    ∃ members, (range (letter 'c') (int 101) .nowhere).evaluate.start env =
        .ok (.range members) ⟨env, .empty⟩ ∧
      members.toList = [.int 100, .char 'c', .char 'd', .char 'e'] :=
  ⟨_, rfl, by decide +kernel⟩

end Expr

/-! ### Integers as bounds -/

/-- The code of an integer as a bound.  An integer of one digit is a character and has its code. -/
def Element.codeOfInt (n : Int64) : Int64 :=
  if 0 ≤ n ∧ n ≤ 9 then n + 48 else n

theorem Element.ordinal_ofInt (n : Int64) : (ofInt n).ordinal = some (codeOfInt n) := by
  by_cases h : 0 ≤ n ∧ n ≤ 9
  · have hdigits : ∀ k < 10,
        (char (digit (Int64.ofNat k))).ordinal = some (Int64.ofNat k + 48) := by decide
    have hlow : 0 ≤ n.toInt := Int64.le_iff_toInt_le.mp h.1
    have hhigh : n.toInt ≤ 9 := Int64.le_iff_toInt_le.mp h.2
    have hn : Int64.ofNat n.toInt.toNat = n := by
      rw [← Int64.toInt_inj, Int64.toInt_ofNat_of_lt (by omega)]
      omega
    have hcode := hdigits n.toInt.toNat (by omega)
    rw [hn] at hcode
    rw [ofInt, codeOfInt, if_pos h, if_pos h, hcode]
  · rw [ofInt, codeOfInt, if_neg h, if_neg h]
    rfl

theorem Element.toInt_codeOfInt (n : Int64) : (codeOfInt n).toInt =
    if 0 ≤ n.toInt ∧ n.toInt ≤ 9 then n.toInt + 48 else n.toInt := by
  have hdigit : (0 ≤ n ∧ n ≤ 9) ↔ 0 ≤ n.toInt ∧ n.toInt ≤ 9 :=
    and_congr Int64.le_iff_toInt_le Int64.le_iff_toInt_le
  by_cases h : 0 ≤ n ∧ n ≤ 9
  · obtain ⟨hlow, hhigh⟩ := hdigit.mp h
    have h48 : (48 : Int64).toInt = 48 := rfl
    rw [codeOfInt, if_pos h, if_pos (hdigit.mp h), Int64.toInt_add, h48]
    exact Int.bmod_eq_of_le (by omega) (by omega)
  · rw [codeOfInt, if_neg h, if_neg (mt hdigit.mpr h)]

namespace Expr

open Element

theorem endsAsBound_int (env : Environment) (n : Int64) :
    (int n).EndsAsBound env (.ok (codeOfInt n)) := by
  have hvalue : (int n).evaluate.start env = .ok (.element (ofInt n)) ⟨env, .empty⟩ :=
    evaluate_int n ⟨env, .empty⟩
  exact .code hvalue (ordinal_ofInt n)

section

variable {env : Environment} {a b : Int64}

theorem endsAsRange_int_iff {members : ElementSet} :
    EndsAsRange env (int a) (int b) (.ok (.range members)) ↔ codeOfInt a ≤ codeOfInt b ∧
      ∀ x, x ∈ members.toList ↔
        x ∈ env.universal.toList ∧ x.LiesBetween (codeOfInt a) (codeOfInt b) := by
  constructor
  · intro h
    cases h with
    | members ha hb hab hmem =>
      cases ha.unique (endsAsBound_int env a)
      cases hb.unique (endsAsBound_int env b)
      exact ⟨hab, hmem⟩
  · rintro ⟨hab, hmem⟩
    exact .members (endsAsBound_int env a) (endsAsBound_int env b) hab hmem

theorem exists_endsAsRange_int_iff :
    (∃ v, EndsAsRange env (int a) (int b) (.ok v)) ↔ codeOfInt a ≤ codeOfInt b := by
  constructor
  · rintro ⟨v, h⟩
    cases h with
    | members ha hb hab hmem => exact (endsAsRange_int_iff.mp (.members ha hb hab hmem)).1
  · intro hab
    obtain ⟨members, -, hmem⟩ := exists_between env (codeOfInt a) (codeOfInt b)
    exact ⟨_, endsAsRange_int_iff.mpr ⟨hab, hmem⟩⟩

/-- Codes are in the order of the integers, unless only the first one is that of a character. -/
theorem codeOfInt_le_codeOfInt (hab : a ≤ b) (h : ¬ (0 ≤ a ∧ a ≤ 9 ∧ 9 < b)) :
    codeOfInt a ≤ codeOfInt b := by
  have hnine : (9 : Int64).toInt = 9 := rfl
  have hzero : (0 : Int64).toInt = 0 := rfl
  rw [Int64.le_iff_toInt_le] at hab
  simp only [Int64.le_iff_toInt_le, Int64.lt_iff_toInt_lt, hnine, hzero] at h
  rw [Int64.le_iff_toInt_le, toInt_codeOfInt, toInt_codeOfInt]
  split <;> split <;> omega

/-- An integer of more than one digit between two others has a code between theirs. -/
theorem liesBetween_codeOfInt {n : Int64} (hn : (Element.int n).IsNormal) (hfirst : a ≤ n)
    (hlast : n ≤ b) (h : ¬ (0 ≤ a ∧ a ≤ 9 ∧ 9 < b)) :
    (Element.int n).LiesBetween (codeOfInt a) (codeOfInt b) := by
  have hdigit : ¬ (0 ≤ n ∧ n ≤ 9) := by
    intro hdigit
    have hnormal : ofInt n = .int n := hn
    rw [ofInt, if_pos hdigit] at hnormal
    cases hnormal
  have hcode : codeOfInt n = n := if_neg hdigit
  have hbelow := codeOfInt_le_codeOfInt hfirst fun h' =>
    h ⟨h'.1, h'.2.1, Int64.lt_of_lt_of_le h'.2.2 hlast⟩
  have habove := codeOfInt_le_codeOfInt hlast fun h' => hdigit ⟨h'.1, h'.2.1⟩
  rw [hcode] at hbelow habove
  exact .int hbelow habove

end

/-- Unless its first bound has one digit and its last bound more, a range of integers in order has
a value, and all integers of the universal set between them are in it.  Otherwise the code of the
digit counts as the first integer. -/
theorem evaluate_range_int {env : Environment} (henv : env.Reachable) (trace : Trace)
    {a b : Int64} (hab : a ≤ b) (span : Span) :
    let result := (range (int a) (int b) span).evaluate ⟨env, trace⟩
    (¬ (0 ≤ a ∧ a ≤ 9 ∧ 9 < b) → ∃ members t, result = .ok (.range members) t ∧
      ∀ n, .int n ∈ env.universal.toList → a ≤ n → n ≤ b → .int n ∈ members.toList) ∧
    (0 ≤ a ∧ a ≤ 9 ∧ 9 < b →
      ((∃ v t, result = .ok v t) ↔ a + 48 ≤ b) ∧
      ∀ members t, result = .ok (.range members) t →
        ∀ n, .int n ∈ members.toList ↔ .int n ∈ env.universal.toList ∧ a + 48 ≤ n ∧ n ≤ b) := by
  intro result
  constructor
  · intro h
    obtain ⟨members, -, hmem⟩ := exists_between env (codeOfInt a) (codeOfInt b)
    have hends := endsAsRange_int_iff.mpr ⟨codeOfInt_le_codeOfInt hab h, hmem⟩
    obtain ⟨t, ht⟩ := (evaluate_range_ok_iff env (int a) (int b) trace span _).mpr hends
    refine ⟨members, t, ht, fun n hn hfirst hlast => (hmem _).mpr ⟨hn, ?_⟩⟩
    exact liesBetween_codeOfInt (henv.isNormal.universal _ hn) hfirst hlast h
  · rintro ⟨hzero, hnine, hlast⟩
    have ha : codeOfInt a = a + 48 := if_pos ⟨hzero, hnine⟩
    have hb : codeOfInt b = b := if_neg fun h => absurd h.2 (Int64.not_le.mpr hlast)
    constructor
    · have hvalue : (∃ v t, result = .ok v t) ↔
          ∃ v, EndsAsRange env (int a) (int b) (.ok v) :=
        exists_congr fun v => evaluate_range_ok_iff env (int a) (int b) trace span v
      rw [hvalue, exists_endsAsRange_int_iff, ha, hb]
    · intro members t ht n
      have hends := (evaluate_range_ok_iff env (int a) (int b) trace span _).mp ⟨t, ht⟩
      rw [(endsAsRange_int_iff.mp hends).2, ha, hb]
      refine and_congr_right fun _ => ⟨fun h => ?_, fun h => .int h.1 h.2⟩
      cases h with
      | int hfirst hlast => exact ⟨hfirst, hlast⟩

/-- From below the digits all integers of the universal set are met.  From five on only those are
that are not smaller than the code of the character. -/
theorem evaluate_range_int_universal :
    let env := Environment.initial.extendUniversal [.int 60, .text "-3", .int 40]
    let long := (range (int (-5)) (int 100) .nowhere).evaluate ⟨env, .empty⟩
    let short := (range (int 5) (int 100) .nowhere).evaluate ⟨env, .empty⟩
    (∃ members t, long = .ok (.range members) t ∧
      ∀ n ∈ [-3, 40, 60], .int n ∈ members.toList) ∧
    ∃ members t, short = .ok (.range members) t ∧
      .int 60 ∈ members.toList ∧ .int 40 ∉ members.toList := by
  intro env long short
  have henv : env.Reachable := .extendUniversal .initial _
  have hstored : ∀ e ∈ [Element.int (-3), .int 40, .int 60], e ∈ env.universal.toList := by
    decide +kernel
  constructor
  · obtain ⟨members, t, hok, hmem⟩ :=
      (evaluate_range_int henv .empty (by decide : (-5 : Int64) ≤ 100) .nowhere).1 (by decide)
    refine ⟨members, t, hok, fun n hn => ?_⟩
    simp only [List.mem_cons, List.not_mem_nil, or_false] at hn
    rcases hn with rfl | rfl | rfl <;> exact hmem _ (hstored _ (by decide)) (by decide) (by decide)
  · obtain ⟨_, hmem⟩ :=
      (evaluate_range_int henv .empty (by decide : (5 : Int64) ≤ 100) .nowhere).2 (by decide)
    have hshort : short = .ok (.range _) ⟨env, .empty⟩ := rfl
    refine ⟨_, _, hshort, (hmem _ _ hshort 60).mpr ⟨hstored _ (by decide), by decide⟩, fun h => ?_⟩
    exact absurd ((hmem _ _ hshort 40).mp h).2.1 (by decide)

/-- Five is taken for the character `5`, whose code is greater than ten. -/
theorem not_forall_evaluate_range_int :
    ¬ ∀ (env : Environment) (a b : Int64), env.Reachable → a ≤ b →
      ∃ members t, (range (int a) (int b) .nowhere).evaluate.start env = .ok (.range members) t ∧
        ∀ n, .int n ∈ env.universal.toList → a ≤ n → n ≤ b → .int n ∈ members.toList := by
  intro h
  let env := Environment.initial.extendUniversal [.int 10]
  obtain ⟨members, t, hok, _⟩ := h env 5 10 (.extendUniversal .initial _) (by decide)
  have herror : (range (int 5) (int 10) .nowhere).evaluate.start env =
      .error ⟨[.nowhere, .nowhere], .invalidRange (.reversed 53 10)⟩ ⟨env, .empty⟩ := rfl
  rw [herror] at hok
  cases hok

end Expr
end SetLaws
