import Mathlib.Data.List.Forall2
import Mathlib.Data.List.Nodup
import SetLaws.Program.Decode
import SetLaws.Proofs.Json.RoundTrip

/-!
# Records

A record may be written as an object, whose members come in any order and some of which may
be left out, or as an array of all its fields.  The fields are found in every such spelling.
-/

namespace SetLaws
namespace Json

mutual

/-- The number of arrays and objects that are nested in the value. -/
def depth : Json → Nat
  | .array items => 1 + itemsDepth items
  | .object members => 1 + membersDepth members
  | _ => 0

def itemsDepth : List Json → Nat
  | [] => 0
  | item :: items => max item.depth (itemsDepth items)

def membersDepth : List (Spelling × Json) → Nat
  | [] => 0
  | (_, value) :: members => max value.depth (membersDepth members)

end

/-- A field of a record, and the value that it is written with. -/
structure Field where
  name : String
  value : Json
  /-- Whether the field may be left out. -/
  optional : Bool

def Field.required (name : String) (value : Json) : Field := ⟨name, value, false⟩

@[simp]
theorem Field.value_required (name : String) (value : Json) : (required name value).value = value :=
  rfl

def Field.member (f : Field) : String × Json := (f.name, f.value)

/-- The values that spell the record with the given fields. -/
inductive Records (fs : List Field) : Json → Prop where
  /-- Members in any order, without some of those that may be left out. -/
  | members {kept dropped : List Field} (hperm : (kept ++ dropped).Perm fs)
      (hdropped : ∀ f ∈ dropped, f.optional = true) : Records fs (.record (kept.map Field.member))
  | items : Records fs (.array (fs.map Field.value))

/-- What may be found where a field is looked up. -/
def Field.Yields (f : Field) (found : Option Json) : Prop :=
  found = some f.value ∨ found = none ∧ f.optional = true

section Records

variable {fs kept : List Field} {f : Field} {v : Json}

theorem records_record (fs : List Field) : Records fs (.record (fs.map Field.member)) :=
  @Records.members fs fs [] (by rw [List.append_nil]) (fun _ h => absurd h List.not_mem_nil)

theorem Field.Yields.eq_some {name : String} {found : Option Json}
    (h : (Field.required name v).Yields found) : found = some v := by
  rcases h with h | ⟨_, h⟩
  · exact h
  · cases h

theorem keys_record (members : List (String × Json)) :
    keys (members.map fun (key, value) => (some key, value)) = some (members.map Prod.fst) := by
  induction members with
  | nil => rfl
  | cons m members ih =>
    rw [keys] at ih
    rw [keys, List.map_cons, List.mapM_cons, ih]
    rfl

theorem lookup_member (hnodup : (kept.map Field.name).Nodup) (h : f ∈ kept) :
    ((kept.map Field.member).map fun (key, value) => (some key, value)).lookup (some f.name) =
      some f.value := by
  induction kept with
  | nil => cases h
  | cons g kept ih =>
    rw [List.map_cons, List.nodup_cons] at hnodup
    rw [List.map_cons, List.map_cons, List.lookup_cons]
    rcases List.mem_cons.mp h with rfl | h
    · simp [Field.member]
    · have hne : f.name ≠ g.name := fun heq =>
        hnodup.1 (heq ▸ List.mem_map_of_mem h)
      have hbeq : (some f.name == some g.name) = false := by simpa using hne
      simp only [Field.member, hbeq]
      exact ih hnodup.2 h

theorem lookup_member_eq_none (h : f.name ∉ kept.map Field.name) :
    ((kept.map Field.member).map fun (key, value) => (some key, value)).lookup (some f.name) =
      none := by
  rw [List.lookup_eq_none_iff]
  intro m hm
  simp only [List.map_map, List.mem_map, Function.comp_apply] at hm
  obtain ⟨g, hg, rfl⟩ := hm
  have hne : f.name ≠ g.name := fun heq => h (heq ▸ List.mem_map_of_mem hg)
  simpa [Field.member] using hne

theorem fields_record {names : List String} {members : List (String × Json)}
    (h : (members.map Prod.fst).Nodup) :
    (record members).fields names = some (names.map fun name =>
      (members.map fun (key, value) => (some key, value)).lookup (some name)) := by
  have hcount : (names.all fun name => (members.map Prod.fst).count name ≤ 1) = true := by
    rw [List.all_eq_true]
    exact fun name _ => decide_eq_true (List.nodup_iff_count_le_one.mp h name)
  simp only [record, fields, keys_record, hcount, if_true]

/-- In every spelling of a record its fields are found, in their order. -/
theorem Records.fields_eq (h : Records fs v) (names : List String)
    (hnames : fs.map Field.name = names) (hnodup : names.Nodup) :
    ∃ found, v.fields names = some found ∧ List.Forall₂ Field.Yields fs found := by
  subst hnames
  cases h with
  | @members kept dropped hperm hdropped =>
    have hnames : ((kept ++ dropped).map Field.name).Nodup :=
      (hperm.map Field.name).nodup_iff.mpr hnodup
    rw [List.map_append, List.nodup_append] at hnames
    obtain ⟨hkept, -, hdisjoint⟩ := hnames
    have hfst : (kept.map Field.member).map Prod.fst = kept.map Field.name := by
      rw [List.map_map]
      rfl
    refine ⟨_, fields_record (hfst ▸ hkept), ?_⟩
    rw [List.map_map, List.forall₂_map_right_iff, List.forall₂_same]
    intro f hf
    rcases List.mem_append.mp (hperm.mem_iff.mpr hf) with hf | hf
    · exact .inl (lookup_member hkept hf)
    · refine .inr ⟨lookup_member_eq_none fun hname => ?_, hdropped f hf⟩
      exact hdisjoint _ hname _ (List.mem_map_of_mem hf) rfl
  | items =>
    refine ⟨(fs.map Field.value).map some, ?_, ?_⟩
    · rw [fields, if_pos (by simp), List.length_map, List.length_map, Nat.sub_self]
      simp
    · rw [List.map_map, List.forall₂_map_right_iff, List.forall₂_same]
      exact fun f _ => .inl rfl

/-- The spellings of a record are as plain as its fields. -/
theorem Records.plain (h : Records fs v) (hfs : ∀ f ∈ fs, f.value.Plain) : v.Plain := by
  cases h with
  | @members kept dropped hperm hdropped =>
    refine .object fun m hm => ?_
    simp only [List.map_map, List.mem_map, Function.comp_apply] at hm
    obtain ⟨f, hf, rfl⟩ := hm
    exact hfs f (hperm.mem_iff.mp (List.mem_append_left _ hf))
  | items =>
    refine .array fun v hv => ?_
    obtain ⟨f, hf, rfl⟩ := List.mem_map.mp hv
    exact hfs f hf

end Records

end Json
end SetLaws
