import SetLaws.Proofs.Element.Normal
import SetLaws.Proofs.Text.Bytes

/-!
# The order of normal forms

Comparing, hashing and taking codes all look at normal forms.  So they agree on which
elements are the same, in whatever way these are spelled, and the order of elements is the
one of integers, of codes and of bytes.
-/

namespace SetLaws
namespace Element

/-- The order of normal forms: integers by value, then characters by code, then texts by their
bytes. -/
inductive Precedes : Element → Element → Prop where
  | ints {m n : Int64} (h : m.toInt < n.toInt) : Precedes (.int m) (.int n)
  | chars {c d : Char} (h : c.toNat < d.toNat) : Precedes (.char c) (.char d)
  | texts {s t : String} (h : Text.bytes s < Text.bytes t) : Precedes (.text s) (.text t)
  | int_char (n : Int64) (c : Char) : Precedes (.int n) (.char c)
  | int_text (n : Int64) (s : String) : Precedes (.int n) (.text s)
  | char_text (c : Char) (s : String) : Precedes (.char c) (.text s)

theorem compareSpelled_eq_lt_iff {a b : Element} : compareSpelled a b = .lt ↔ Precedes a b := by
  constructor
  · intro h
    cases a with
    | int m =>
      cases b with
      | int n => exact .ints (Int64.lt_iff_toInt_lt.mp (Std.compare_eq_lt.mp h))
      | char c => exact .int_char m c
      | text s => exact .int_text m s
    | char c =>
      cases b with
      | int n => cases h
      | char d =>
        have hcd : c < d := compare_lt_iff_lt.mp h
        exact .chars hcd
      | text s => exact .char_text c s
    | text s =>
      cases b with
      | int n => cases h
      | char c => cases h
      | text t => exact .texts (Text.bytes_lt_bytes_iff.mpr (compare_lt_iff_lt.mp h))
  · intro h
    cases h with
    | ints h => exact Std.compare_eq_lt.mpr (Int64.lt_iff_toInt_lt.mpr h)
    | @chars c d h =>
      have hcd : c < d := h
      exact compare_lt_iff_lt.mpr hcd
    | texts h => exact compare_lt_iff_lt.mpr (Text.bytes_lt_bytes_iff.mp h)
    | int_char | int_text | char_text => rfl

/-- A comparison that puts all elements into one total order, that of their normal forms. -/
structure Orders (cmp : Element → Element → Ordering) : Prop where
  antisymm {a b : Element} (hab : (cmp a b).isLE = true) (hba : (cmp b a).isLE = true) :
    a.same b = true
  trans {a b c : Element} (hab : (cmp a b).isLE = true) (hbc : (cmp b c).isLE = true) :
    (cmp a c).isLE = true
  total (a b : Element) : (cmp a b).isLE = true ∨ (cmp b a).isLE = true
  swap (a b : Element) : cmp a b = (cmp b a).swap
  eq_iff (a b : Element) : cmp a b = .eq ↔ a.same b = true
  lt_iff (a b : Element) : cmp a b = .lt ↔ Precedes a.normalized b.normalized

theorem orders_compare : Orders compare where
  antisymm {a b} hab hba := by
    have heq : compare a b = .eq := Std.OrientedCmp.isLE_antisymm hab hba
    rw [same, heq, beq_self_eq_true]
  trans hab hbc := Std.TransCmp.isLE_trans hab hbc
  total a b := by
    have hswap : compare b a = (compare a b).swap := Std.OrientedCmp.eq_swap
    rw [hswap]
    cases compare a b with
    | lt | eq => exact Or.inl rfl
    | gt => exact Or.inr rfl
  swap a b := Std.OrientedCmp.eq_swap
  eq_iff a b := beq_iff_eq.symm
  lt_iff a b := compareSpelled_eq_lt_iff

/-- Rank and payload together tell how an element is spelled. -/
theorem eq_of_payload_eq {a b : Element} (hrank : a.rank = b.rank)
    (hpayload : a.payload = b.payload) : a = b := by
  cases a with
  | int m =>
    cases b with
    | int n =>
      have hword : m.toUInt64 = n.toUInt64 := UInt64.toNat_inj.mp (List.singleton_inj.mp hpayload)
      exact congrArg (int ∘ Int64.ofUInt64) hword
    | char d => cases hrank
    | text t => cases hrank
  | char c =>
    cases b with
    | int n => cases hrank
    | char d => exact congrArg char (Char.toNat_inj.mp (List.singleton_inj.mp hpayload))
    | text t => cases hrank
  | text s =>
    cases b with
    | int n => cases hrank
    | char d => cases hrank
    | text t =>
      have hbytes := List.append_cancel_right hpayload
      have hinjective : Function.Injective UInt8.toNat := fun _ _ => UInt8.toNat_inj.mp
      exact congrArg text (Text.bytes_injective (hinjective.list_map hbytes))

theorem hashWords_eq_iff {a b : Element} :
    a.hashWords = b.hashWords ↔ a.normalized = b.normalized := by
  constructor
  · intro h
    obtain ⟨hrank, hpayload⟩ := List.cons.inj h
    exact eq_of_payload_eq hrank hpayload
  · intro h
    rw [hashWords, hashWords, h]

/-- Normalizing an element twice is normalizing it once, and what is made of a character, of an
integer or of a text is normal; so is every character and every integer of more than one digit.
Two elements are the same when their normal forms are spelled alike.  The comparison of elements
is a total order whose equality this is, the one of normal forms.  The same elements, and no
others, give the same words to a hash function, and the normal forms of the same elements have
the same code. -/
theorem order_of_normal_forms :
    (∀ e : Element, e.normalized.normalized = e.normalized) ∧
    ((∀ c, (char c).normalized = char c) ∧ (∀ n, (ofInt n).normalized = ofInt n) ∧
      (∀ s, (ofText s).normalized = ofText s) ∧
      ∀ n, ¬ (0 ≤ n ∧ n ≤ 9) → (int n).normalized = int n) ∧
    (∀ a b : Element, a.same b = true ↔ a.normalized = b.normalized) ∧
    Orders compare ∧
    (∀ a b : Element, a.same b = true ↔ a.hashWords = b.hashWords) ∧
    ∀ a b : Element, a.same b = true → a.normalized.ordinal = b.normalized.ordinal := by
  refine ⟨normalized_normalized, ⟨isNormal_char, normalized_ofInt, normalized_ofText, ?_⟩,
    fun a b => same_iff, orders_compare, ?_, ?_⟩
  · intro n hn
    exact if_neg hn
  · intro a b
    rw [same_iff, hashWords_eq_iff]
  · intro a b h
    rw [same_iff.mp h]

/-- A digit as an integer, with a sign, with a zero in front, and as a character are one element;
the least word of 64 bits is an integer, and the number below it a text. -/
theorem order_of_normal_forms_spellings :
    let least : Element := .text "-9223372036854775808"
    let below : Element := .text "-9223372036854775809"
    (text "+7").same (int 7) = true ∧ (text "+7").normalized.ordinal = some 55 ∧
      (text "07").hashWords = (char '7').hashWords ∧
      (int 10).normalized = int 10 ∧
      (compare least (char 'ñ')).isLE = true ∧ (compare (char 'ñ') below).isLE = true ∧
      (compare least below).isLE = true ∧
      compare (text "az") (text "añ") = .lt := by
  intro least below
  obtain ⟨_, ⟨_, _, _, hint⟩, _, horders, hhash, hordinal⟩ := order_of_normal_forms
  have hseven : (text "+7").same (int 7) = true :=
    horders.antisymm (by decide +kernel) (by decide +kernel)
  have hfirst : (compare least (char 'ñ')).isLE = true := by decide +kernel
  have hlast : (compare (char 'ñ') below).isLE = true := by decide +kernel
  have hbytes : Text.bytes "az" < Text.bytes "añ" := by decide +kernel
  refine ⟨hseven, hordinal _ _ hseven, (hhash _ _).mp (by decide +kernel), hint 10 (by decide),
    hfirst, hlast, horders.trans hfirst hlast, (horders.lt_iff _ _).mpr ?_⟩
  exact .texts hbytes

end Element
end SetLaws
