import Mathlib.Data.List.Sort
import SetLaws.ElementSet
import SetLaws.Proofs.Element.Order
import SetLaws.Proofs.ElementSet.Normal

/-!
# The order in which a set is shown

Integers are shown by value and other members by text, and the two lists are merged by text.
The merged list is sorted by neither key, so what is said of it is said of pairs: two integers
stand by value, two others by text, and another member stands before an integer exactly when its
text is below the decimal text of that integer or of a smaller one.
-/

namespace SetLaws
namespace Element

/-- The first element stands in the list, and the second stands at a later place. -/
def Before (es : List Element) (a b : Element) : Prop :=
  [a, b].Sublist es

theorem before_cons_iff {x a b : Element} {es : List Element} :
    Before (x :: es) a b ↔ Before es a b ∨ a = x ∧ b ∈ es := by
  rw [Before, List.cons_sublist_cons', List.singleton_sublist]
  rfl

theorem before_cons_self {a b : Element} {es : List Element} (h : b ∈ es) :
    Before (a :: es) a b :=
  before_cons_iff.mpr (.inr ⟨rfl, h⟩)

theorem before_cons_of_ne {x a b : Element} {es : List Element} (h : a ≠ x) :
    Before (x :: es) a b ↔ Before es a b := by
  simp [before_cons_iff, h]

theorem Before.mem_right {es : List Element} {a b : Element} (h : Before es a b) : b ∈ es :=
  h.subset (by simp)

theorem before_or_before {es : List Element} {a b : Element} (ha : a ∈ es) (hb : b ∈ es)
    (hne : a ≠ b) : Before es a b ∨ Before es b a := by
  induction es with
  | nil => simp at ha
  | cons x es ih =>
    simp only [before_cons_iff]
    by_cases hax : a = x
    · have hbes : b ∈ es := (List.mem_cons.mp hb).resolve_left fun hbx => hne (hax.trans hbx.symm)
      exact .inl (.inr ⟨hax, hbes⟩)
    · have haes : a ∈ es := (List.mem_cons.mp ha).resolve_left hax
      by_cases hbx : b = x
      · exact .inr (.inr ⟨hbx, haes⟩)
      · exact (ih haes ((List.mem_cons.mp hb).resolve_left hbx)).imp .inl .inl

/-- In a list that increases strictly, elements stand in the order of its relation. -/
theorem before_iff_of_pairwise {r : Element → Element → Prop} {es : List Element}
    {a b : Element} (hes : es.Pairwise r) (hasymm : ∀ x ∈ es, ∀ y ∈ es, r x y → ¬ r y x)
    (ha : a ∈ es) (hb : b ∈ es) : Before es a b ↔ r a b := by
  have hforall {x y : Element} (h : Before es x y) : r x y :=
    List.pairwise_iff_forall_sublist.mp hes h
  constructor
  · exact hforall
  · intro h
    have hne : a ≠ b := by
      rintro rfl
      exact hasymm a ha a ha h h
    have hnot : ¬ Before es b a := fun hba => hasymm a ha b hb h (hforall hba)
    exact (before_or_before ha hb hne).resolve_right hnot

theorem before_filter_iff {p : Element → Bool} {es : List Element} {a b : Element}
    (ha : p a = true) (hb : p b = true) : Before (es.filter p) a b ↔ Before es a b := by
  constructor
  · intro h
    exact h.trans List.filter_sublist
  · intro h
    have hfilter : [a, b].filter p = [a, b] := by simp [ha, hb]
    have hsub := List.Sublist.filter p h
    rwa [hfilter] at hsub

/-- What is taken out of a merge by a test that no two elements of different lists pass. -/
theorem filter_merge {p : Element → Bool} {le : Element → Element → Bool}
    {xs ys : List Element} (h : ∀ x ∈ xs, ∀ y ∈ ys, p x = true → p y = false) :
    (xs.merge ys le).filter p = xs.filter p ++ ys.filter p := by
  induction xs generalizing ys with
  | nil => simp
  | cons x xs ihx =>
    induction ys with
    | nil => simp
    | cons y ys ihy =>
      rw [List.cons_merge_cons]
      split
      · have hrest := ihx fun a ha => h a (List.mem_cons_of_mem x ha)
        rw [List.filter_cons, hrest]
        split <;> simp [List.filter_cons, *]
      · have hrest := ihy fun a ha b hb => h a ha b (List.mem_cons_of_mem y hb)
        rw [List.filter_cons, hrest]
        by_cases hy : p y = true
        · have hnil : (x :: xs).filter p = [] := by
            rw [List.filter_eq_nil_iff]
            intro a ha hpa
            have hpy := h a ha y List.mem_cons_self hpa
            rw [hy] at hpy
            cases hpy
          simp [hy, hnil]
        · simp [List.filter_cons, hy]

theorem compare_head_ne_lt {x i : Element} {xs : List Element}
    (h : (x :: xs).Pairwise fun a b => compare a b = .lt) (hi : i ∈ x :: xs) :
    compare i x ≠ .lt := by
  rcases List.mem_cons.mp hi with rfl | hi
  · rw [Std.ReflOrd.compare_self]
    decide
  · exact Std.OrientedCmp.not_lt_of_lt (List.rel_of_pairwise_cons h hi)

/-- The merge takes one of the others as soon as its text is below that of the next integer. -/
theorem before_merge_iff {ints others : List Element} {o i : Element}
    (hints : ints.Pairwise fun a b => compare a b = .lt)
    (hothers : others.Pairwise fun a b => a.unquoted ≤ b.unquoted)
    (hdisjoint : ∀ a ∈ ints, a ∉ others) (ho : o ∈ others) (hi : i ∈ ints) :
    Before (ints.merge others fun a b => a.unquoted ≤ b.unquoted) o i ↔
      ∃ j ∈ ints, compare i j ≠ .lt ∧ o.unquoted < j.unquoted := by
  induction ints generalizing others with
  | nil => simp at hi
  | cons x ints ihi =>
    induction others with
    | nil => simp at ho
    | cons y others iho =>
      rw [List.cons_merge_cons]
      by_cases hle : x.unquoted ≤ y.unquoted
      · -- The first integer goes out, and no text that is left is below it.
        have hox : o ≠ x := fun h => hdisjoint x List.mem_cons_self (h ▸ ho)
        have hyo : y.unquoted ≤ o.unquoted := by
          rcases List.mem_cons.mp ho with h | h
          · rw [h]
          · exact List.rel_of_pairwise_cons hothers h
        have hxo : ¬ o.unquoted < x.unquoted := String.not_lt.mpr (String.le_trans hle hyo)
        rw [if_pos (decide_eq_true hle), before_cons_of_ne hox, List.exists_mem_cons_iff,
          or_iff_right fun h => hxo h.2]
        by_cases hmem : i ∈ ints
        · exact ihi hints.tail hothers (fun a ha => hdisjoint a (List.mem_cons_of_mem x ha)) ho hmem
        · have hix : i = x := (List.mem_cons.mp hi).resolve_right hmem
          refine iff_of_false (fun h => ?_) ?_
          · exact (List.mem_merge.mp h.mem_right).elim hmem (hdisjoint i hi)
          · rintro ⟨j, hj, hij, -⟩
            rw [hix] at hij
            exact hij (List.rel_of_pairwise_cons hints hj)
      · have hlt : y.unquoted < x.unquoted := String.not_le.mp hle
        rw [if_neg (by rwa [decide_eq_true_eq])]
        by_cases hoy : o = y
        · -- It goes out before all integers that are left, and is below the least of them.
          rw [hoy]
          exact iff_of_true (before_cons_self (List.mem_merge.mpr (.inl hi)))
            ⟨x, List.mem_cons_self, compare_head_ne_lt hints hi, hlt⟩
        · have hmem : o ∈ others := (List.mem_cons.mp ho).resolve_left hoy
          rw [before_cons_of_ne hoy]
          exact iho hothers.tail (fun a ha h => hdisjoint a ha (List.mem_cons_of_mem y h)) hmem

theorem IsNormal.compare_eq_lt_iff {a b : Element} (ha : a.IsNormal) (hb : b.IsNormal) :
    compare a b = .lt ↔ Precedes a b := by
  rw [orders_compare.lt_iff, ha, hb]

theorem precedes_int_iff {m n : Int64} : Precedes (.int m) (.int n) ↔ m.toInt < n.toInt := by
  constructor
  · intro h
    cases h with
    | ints h => exact h
  · exact .ints

theorem not_isNormal_text_toString (c : Char) : ¬ (text c.toString).IsNormal := by
  intro h
  have hof : ofText c.toString = char c := by simp [ofText]
  have heq : char c = text c.toString := hof.symm.trans h
  cases heq

/-- A normal element that is no integer is told by its text. -/
theorem IsNormal.eq_of_unquoted_eq {a b : Element} (ha : a.IsNormal) (hb : b.IsNormal)
    (hai : a.isInt = false) (hbi : b.isInt = false) (h : a.unquoted = b.unquoted) : a = b := by
  cases a with
  | int m => cases hai
  | char c =>
    cases b with
    | int n => cases hbi
    | char d => exact congrArg char (by simpa [unquoted] using h)
    | text t =>
      have ht : c.toString = t := h
      exact absurd (ht ▸ hb) (not_isNormal_text_toString c)
  | text s =>
    cases b with
    | int n => cases hbi
    | char d =>
      have hs : s = d.toString := h
      exact absurd (hs ▸ ha) (not_isNormal_text_toString d)
    | text t => exact congrArg text h

/-- What stands on both sides of an element where it is shown: quotes for a character, and nothing
for the others. -/
def quotes : Element → String
  | char _ => "'"
  | _ => ""

theorem display_eq (e : Element) : e.display = e.quotes ++ e.unquoted ++ e.quotes := by
  cases e with
  | char c => rfl
  | int | text => simp [display, quotes]

end Element

namespace ElementSet

open Element (Before)

/-- The list shows the set: each member stands in it once, integers by value, others by text, and
one of the others before an integer when its text is below that of the integer or of a smaller
one. -/
structure Lists (s : ElementSet) (es : List Element) : Prop where
  nodup : es.Nodup
  mem_iff {e : Element} : e ∈ es ↔ e ∈ s.toList
  ints {m n : Int64} (hm : .int m ∈ s.toList) (hn : .int n ∈ s.toList) :
    Before es (.int m) (.int n) ↔ m.toInt < n.toInt
  others {o p : Element} (ho : o ∈ s.toList) (hp : p ∈ s.toList) (hoi : o.isInt = false)
    (hpi : p.isInt = false) : Before es o p ↔ o.unquoted < p.unquoted
  mixed {o : Element} {n : Int64} (ho : o ∈ s.toList) (hn : .int n ∈ s.toList)
    (hoi : o.isInt = false) : Before es o (.int n) ↔
      ∃ m : Int64, .int m ∈ s.toList ∧ m.toInt ≤ n.toInt ∧ o.unquoted < toString m.toInt

def ints (s : ElementSet) : List Element :=
  s.toList.filter Element.isInt

def othersByText (s : ElementSet) : List Element :=
  (s.toList.filter fun e => !e.isInt).mergeSort fun a b => a.unquoted ≤ b.unquoted

theorem displayOrder_eq (s : ElementSet) :
    s.displayOrder = s.ints.merge s.othersByText fun a b => a.unquoted ≤ b.unquoted := by
  rw [displayOrder, List.partition_eq_filter_filter]
  rfl

theorem mem_ints_iff {s : ElementSet} {e : Element} :
    e ∈ s.ints ↔ e ∈ s.toList ∧ e.isInt = true :=
  List.mem_filter

theorem mem_othersByText_iff {s : ElementSet} {e : Element} :
    e ∈ s.othersByText ↔ e ∈ s.toList ∧ e.isInt = false := by
  rw [othersByText, List.mem_mergeSort, List.mem_filter, Bool.not_eq_true']

theorem displayOrder_perm (s : ElementSet) : s.displayOrder.Perm s.toList := by
  have hsort : s.othersByText.Perm (s.toList.filter fun e => !e.isInt) :=
    List.mergeSort_perm _ _
  rw [displayOrder_eq]
  exact (List.merge_perm_append _).trans
    ((hsort.append_left s.ints).trans (List.filter_append_perm _ _))

theorem filter_displayOrder (s : ElementSet) :
    s.displayOrder.filter Element.isInt = s.ints ∧
      (s.displayOrder.filter fun e => !e.isInt) = s.othersByText := by
  have hints : ∀ e ∈ s.ints, e.isInt = true := fun e he => (mem_ints_iff.mp he).2
  have hothers : ∀ e ∈ s.othersByText, e.isInt = false :=
    fun e he => (mem_othersByText_iff.mp he).2
  rw [displayOrder_eq]
  constructor
  · rw [Element.filter_merge fun _ _ e he _ => hothers e he, List.filter_eq_self.mpr hints,
      List.filter_eq_nil_iff.mpr fun e he => by simp [hothers e he], List.append_nil]
  · rw [Element.filter_merge fun e he _ _ h => by simp [hints e he] at h,
      List.filter_eq_nil_iff.mpr fun e he => by simp [hints e he],
      List.filter_eq_self.mpr fun e he => by simp [hothers e he], List.nil_append]

theorem nodup_toList (s : ElementSet) : s.toList.Nodup := by
  refine s.increasing.imp fun {a b} hlt heq => ?_
  rw [heq, Std.ReflOrd.compare_self] at hlt
  cases hlt

theorem pairwise_ints (s : ElementSet) : s.ints.Pairwise fun a b => compare a b = .lt :=
  s.increasing.filter _

theorem pairwise_le_othersByText (s : ElementSet) :
    s.othersByText.Pairwise fun a b => a.unquoted ≤ b.unquoted :=
  Text.pairwise_mergeSort Element.unquoted _

theorem IsNormal.pairwise_lt_othersByText {s : ElementSet} (hs : s.IsNormal) :
    s.othersByText.Pairwise fun a b => a.unquoted < b.unquoted := by
  have hnodup : s.othersByText.Nodup :=
    (List.mergeSort_perm _ _).nodup_iff.mpr (s.nodup_toList.filter _)
  refine (s.pairwise_le_othersByText.and hnodup).imp_of_mem fun {a b} ha hb h => ?_
  obtain ⟨hamem, hai⟩ := mem_othersByText_iff.mp ha
  obtain ⟨hbmem, hbi⟩ := mem_othersByText_iff.mp hb
  have hne : a.unquoted ≠ b.unquoted := fun heq =>
    h.2 ((hs a hamem).eq_of_unquoted_eq (hs b hbmem) hai hbi heq)
  exact lt_of_le_of_ne h.1 hne

theorem IsNormal.compare_int_eq_lt_iff {s : ElementSet} (hs : s.IsNormal) {m n : Int64}
    (hm : .int m ∈ s.toList) (hn : .int n ∈ s.toList) :
    compare (Element.int m) (.int n) = .lt ↔ m.toInt < n.toInt := by
  rw [(hs _ hm).compare_eq_lt_iff (hs _ hn), Element.precedes_int_iff]

theorem IsNormal.lists_displayOrder {s : ElementSet} (hs : s.IsNormal) :
    s.Lists s.displayOrder where
  nodup := s.displayOrder_perm.nodup_iff.mpr s.nodup_toList
  mem_iff := s.displayOrder_perm.mem_iff
  ints {m n} hm hn := by
    have hmi : .int m ∈ s.ints := mem_ints_iff.mpr ⟨hm, rfl⟩
    have hni : .int n ∈ s.ints := mem_ints_iff.mpr ⟨hn, rfl⟩
    rw [← Element.before_filter_iff (p := Element.isInt) rfl rfl, s.filter_displayOrder.1,
      Element.before_iff_of_pairwise s.pairwise_ints ?_ hmi hni,
      hs.compare_int_eq_lt_iff hm hn]
    intro x _ y _ hxy
    exact Std.OrientedCmp.not_lt_of_lt hxy
  others {o p} ho hp hoi hpi := by
    have hot : o ∈ s.othersByText := mem_othersByText_iff.mpr ⟨ho, hoi⟩
    have hpt : p ∈ s.othersByText := mem_othersByText_iff.mpr ⟨hp, hpi⟩
    rw [← Element.before_filter_iff (p := fun e => !e.isInt) (by rw [hoi]; rfl) (by rw [hpi]; rfl),
      s.filter_displayOrder.2,
      Element.before_iff_of_pairwise hs.pairwise_lt_othersByText ?_ hot hpt]
    intro x _ y _ hxy
    exact String.lt_asymm hxy
  mixed {o n} ho hn hoi := by
    have hot : o ∈ s.othersByText := mem_othersByText_iff.mpr ⟨ho, hoi⟩
    have hni : .int n ∈ s.ints := mem_ints_iff.mpr ⟨hn, rfl⟩
    have hdisjoint : ∀ e ∈ s.ints, e ∉ s.othersByText := by
      intro e he heo
      have hint := (mem_ints_iff.mp he).2
      rw [(mem_othersByText_iff.mp heo).2] at hint
      cases hint
    rw [displayOrder_eq, Element.before_merge_iff s.pairwise_ints s.pairwise_le_othersByText
      hdisjoint hot hni]
    constructor
    · rintro ⟨j, hj, hle, hlt⟩
      obtain ⟨hjmem, hji⟩ := mem_ints_iff.mp hj
      cases j with
      | int m =>
        rw [Ne, hs.compare_int_eq_lt_iff hn hjmem, not_lt] at hle
        exact ⟨m, hjmem, hle, hlt⟩
      | char c => cases hji
      | text t => cases hji
    · rintro ⟨m, hm, hle, hlt⟩
      refine ⟨.int m, mem_ints_iff.mpr ⟨hm, rfl⟩, ?_, hlt⟩
      rwa [Ne, hs.compare_int_eq_lt_iff hn hm, not_lt]

/-- The text between braces for a list of elements: a character between quotes, and any other
element as it is written. -/
def braced (es : List Element) : String :=
  "\x7b" ++ ", ".intercalate (es.map fun e => e.quotes ++ e.unquoted ++ e.quotes) ++ "\x7d"

theorem braced_ne_empty (es : List Element) : braced es ≠ "∅" := by
  intro h
  have hlist : (braced es).toList = ['∅'] := congrArg String.toList h
  rw [braced, String.toList_append, String.toList_append] at hlist
  have hhead : '\x7b' = '∅' := (List.cons.inj hlist).1
  exact absurd hhead (by decide)

theorem display_eq (s : ElementSet) :
    s.display = if s.toList = [] then "∅" else braced s.displayOrder := by
  rw [display, braced, List.map_congr_left fun e _ => e.display_eq]
  simp only [List.isEmpty_iff]

/-- A set of normal elements is shown as `∅` exactly when it is empty, and otherwise as a list in
braces.  Each member stands in the list once: integers by value, characters and texts by their
text, and one of these before an integer exactly when its text is below the decimal text of that
integer or of a smaller one. -/
theorem IsNormal.display_lists {s : ElementSet} (hs : s.IsNormal) :
    (s.display = "∅" ↔ s.toList = []) ∧
      ∃ es, s.Lists es ∧ (s.toList ≠ [] → s.display = braced es) := by
  refine ⟨?_, s.displayOrder, hs.lists_displayOrder, ?_⟩
  · rw [display_eq]
    by_cases h : s.toList = []
    · rw [if_pos h]
      exact iff_of_true rfl h
    · rw [if_neg h]
      exact iff_of_false (braced_ne_empty _) h
  · intro h
    rw [display_eq, if_neg h]

/-- The text `1a` is above the text of 100, but it is below that of 20, so it stands before both. -/
theorem IsNormal.display_lists_mixed :
    let s := ofList [.int 100, .text "1a", .int 20]
    s.IsNormal ∧ s.display ≠ "∅" ∧ ∃ es, s.display = braced es ∧ "100" < "1a" ∧
      Before es (.int 20) (.int 100) ∧ Before es (.text "1a") (.int 100) := by
  intro s
  have hs : ∀ e ∈ s.toList, e.normalized = e := by decide +kernel
  have hmem : s.toList = [.int 20, .int 100, .text "1a"] := by decide +kernel
  obtain ⟨hempty, es, hes, hshown⟩ := IsNormal.display_lists hs
  have hne : s.toList ≠ [] := by simp [hmem]
  refine ⟨hs, fun h => hne (hempty.mp h), es, hshown hne, by decide +kernel, ?_, ?_⟩
  · exact (hes.ints (by simp [hmem]) (by simp [hmem])).mpr (by decide)
  · refine (hes.mixed (by simp [hmem]) (by simp [hmem]) rfl).mpr ⟨20, ?_, ?_, ?_⟩
    · simp [hmem]
    · decide
    · decide +kernel

end ElementSet
end SetLaws
