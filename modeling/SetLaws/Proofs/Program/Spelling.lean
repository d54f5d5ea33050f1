import SetLaws.Proofs.Json.Records

/-!
# Spellings of programs

Every record in a program may be written as an object or as an array, its members may come in
any order, and a span without source, a missing right operand and a missing source may be
left out.  The way in which a program is written out is one of these spellings.
-/

namespace SetLaws

open Json (Records Field)

/-! ## What may be written -/

/-- An object with the name of a variant as its only key. -/
def Json.tagged (name : String) (v : Json) : Json :=
  .object [(some name, v)]

def Span.words (s : Span) : List Field :=
  [.required "start" (.natural s.start.toNat), .required "end" (.natural s.stop.toNat)]

/-- The span is an object with both of its words, or an array of them. -/
def Span.Spelled (s : Span) (v : Json) : Prop :=
  Records s.words v

/-- The field for a span, which may be left out where there is no source. -/
def Span.field (s : Span) (place : Json) : Field :=
  ⟨"span", place, s = .nowhere⟩

@[simp]
theorem Span.value_field (s : Span) (place : Json) : (s.field place).value = place := rfl

namespace Expr

mutual

/-- The values that spell an expression.  A right operand that is missing is null, and may be
left out. -/
inductive Spelled : Expr → Json → Prop where
  | primitive (value : String) (kind : LiteralKind) {span : Span} {place v : Json}
      (hspan : span.Spelled place)
      (h : Records [.required "value" (.text value), .required "kind" (.text kind.name),
        span.field place] v) :
      Spelled (.primitive value kind span) (.tagged "Primitive" v)
  | range {first last : Expr} {span : Span} {start stop place v : Json}
      (hfirst : Spelled first start) (hlast : Spelled last stop) (hspan : span.Spelled place)
      (h : Records [.required "start" start, .required "end" stop, span.field place] v) :
      Spelled (.range first last span) (.tagged "Range" v)
  | reference (name : String) {span : Span} {place v : Json} (hspan : span.Spelled place)
      (h : Records [.required "name" (.text name), span.field place] v) :
      Spelled (.reference name span) (.tagged "Reference" v)
  | list {elements : List Expr} {span : Span} {items : List Json} {place v : Json}
      (helements : SpelledAll elements items) (hspan : span.Spelled place)
      (h : Records [.required "elements" (.array items), span.field place] v) :
      Spelled (.list elements span) (.tagged "List" v)
  | one (op : Operator) {lhs : Expr} {span : Span} {left place v : Json}
      (hlhs : Spelled lhs left) (hspan : span.Spelled place)
      (h : Records [.required "op" (.text op.symbol), .required "lhs" left,
        ⟨"rhs", .null, true⟩, span.field place] v) :
      Spelled (.operation op lhs none span) (.tagged "Operation" v)
  | both (op : Operator) {lhs rhs : Expr} {span : Span} {left right place v : Json}
      (hlhs : Spelled lhs left) (hrhs : Spelled rhs right) (hspan : span.Spelled place)
      (h : Records [.required "op" (.text op.symbol), .required "lhs" left,
        .required "rhs" right, span.field place] v) :
      Spelled (.operation op lhs (some rhs) span) (.tagged "Operation" v)

inductive SpelledAll : List Expr → List Json → Prop where
  | nil : SpelledAll [] []
  | cons {e : Expr} {es : List Expr} {v : Json} {vs : List Json} (h : Spelled e v)
      (hs : SpelledAll es vs) : SpelledAll (e :: es) (v :: vs)

end

end Expr

inductive Instruction.Spelled : Instruction → Json → Prop where
  | define (name : String) {expr : Expr} {span : Span} {w place v : Json}
      (hexpr : expr.Spelled w) (hspan : span.Spelled place)
      (h : Records [.required "name" (.text name), .required "expr" w, span.field place] v) :
      Spelled (.define name expr span) (.tagged "DefineSet" v)
  | operate (name : String) {expr : Expr} {span : Span} {w place v : Json}
      (hexpr : expr.Spelled w) (hspan : span.Spelled place)
      (h : Records [.required "name" (.text name), .required "expr" w, span.field place] v) :
      Spelled (.operate name expr span) (.tagged "OperateSet" v)
  | evaluate {elements : List Expr} (operation : String) {span : Span} {items : List Json}
      {place v : Json} (helements : Expr.SpelledAll elements items) (hspan : span.Spelled place)
      (h : Records [.required "elements" (.array items),
        .required "operation" (.text operation), span.field place] v) :
      Spelled (.evaluate elements operation span) (.tagged "EvaluateSet" v)

namespace Program

/-- The field for the source, which may be left out where it is not known. -/
def sourceField : Option String → Field
  | some source => .required "source" (.text source)
  | none => ⟨"source", .null, true⟩

inductive Spelled (p : Program) : Json → Prop where
  | mk {items : List Json} {v : Json}
      (hitems : List.Forall₂ Instruction.Spelled p.instructions items)
      (h : Records [sourceField p.source, .required "instructions" (.array items)] v) :
      Spelled p v

end Program

/-! ## Writing out -/

theorem Span.spelled_toJson (s : Span) : s.Spelled s.toJson :=
  Json.records_record s.words

namespace Expr

mutual

theorem spelled_toJson : ∀ e : Expr, e.Spelled e.toJson
  | .primitive value kind span => .primitive value kind span.spelled_toJson (Json.records_record _)
  | .range first last span =>
    .range first.spelled_toJson last.spelled_toJson span.spelled_toJson (Json.records_record _)
  | .reference name span => .reference name span.spelled_toJson (Json.records_record _)
  | .list elements span =>
    .list (spelledAll_listToJson elements) span.spelled_toJson (Json.records_record _)
  | .operation op lhs none span =>
    .one op lhs.spelled_toJson span.spelled_toJson (Json.records_record _)
  | .operation op lhs (some rhs) span =>
    .both op lhs.spelled_toJson rhs.spelled_toJson span.spelled_toJson (Json.records_record _)

theorem spelledAll_listToJson : ∀ es : List Expr, SpelledAll es (listToJson es)
  | [] => .nil
  | e :: es => .cons e.spelled_toJson (spelledAll_listToJson es)

end

end Expr

theorem Instruction.spelled_toJson : ∀ i : Instruction, i.Spelled i.toJson
  | .define name expr span =>
    .define name expr.spelled_toJson span.spelled_toJson (Json.records_record _)
  | .operate name expr span =>
    .operate name expr.spelled_toJson span.spelled_toJson (Json.records_record _)
  | .evaluate elements operation span =>
    .evaluate operation (Expr.spelledAll_listToJson elements) span.spelled_toJson
      (Json.records_record _)

theorem Program.spelled_toJson (p : Program) : p.Spelled p.toJson := by
  have hitems : List.Forall₂ Instruction.Spelled p.instructions
      (p.instructions.map Instruction.toJson) := by
    rw [List.forall₂_map_right_iff, List.forall₂_same]
    exact fun i _ => i.spelled_toJson
  refine .mk hitems ?_
  obtain ⟨_ | source, instructions⟩ := p <;> exact Json.records_record _

/-! ## Plainness -/

theorem Json.plain_tagged {name : String} {v : Json} (h : v.Plain) : (tagged name v).Plain :=
  .object fun _ hm => List.mem_singleton.mp hm ▸ h

theorem Span.Spelled.plain {s : Span} {v : Json} (h : s.Spelled v) : v.Plain :=
  Records.plain h (by simp [words])

namespace Expr

mutual

theorem Spelled.plain : ∀ {e : Expr} {v : Json}, e.Spelled v → v.Plain
  | _, _, .primitive _ _ hspan h => Json.plain_tagged (h.plain (by simp [hspan.plain]))
  | _, _, .range hfirst hlast hspan h =>
    Json.plain_tagged (h.plain (by simp [hfirst.plain, hlast.plain, hspan.plain]))
  | _, _, .reference _ hspan h => Json.plain_tagged (h.plain (by simp [hspan.plain]))
  | _, _, .list helements hspan h =>
    Json.plain_tagged (h.plain (by simp [Json.Plain.array helements.plain, hspan.plain]))
  | _, _, .one _ hlhs hspan h =>
    Json.plain_tagged (h.plain (by simp [hlhs.plain, hspan.plain]))
  | _, _, .both _ hlhs hrhs hspan h =>
    Json.plain_tagged (h.plain (by simp [hlhs.plain, hrhs.plain, hspan.plain]))

theorem SpelledAll.plain : ∀ {es : List Expr} {vs : List Json}, SpelledAll es vs →
    ∀ v ∈ vs, v.Plain
  | _, _, .nil => fun _ hv => absurd hv List.not_mem_nil
  | _, _, .cons h hs => List.forall_mem_cons.mpr ⟨h.plain, hs.plain⟩

end

end Expr

namespace Instruction

theorem Spelled.plain {i : Instruction} {v : Json} (h : i.Spelled v) : v.Plain := by
  cases h with
  | define _ hexpr hspan h
  | operate _ hexpr hspan h =>
    exact Json.plain_tagged (h.plain (by simp [hexpr.plain, hspan.plain]))
  | evaluate _ helements hspan h =>
    exact Json.plain_tagged (h.plain (by simp [Json.Plain.array helements.plain, hspan.plain]))

theorem plain_of_spelled {is : List Instruction} {items : List Json}
    (h : List.Forall₂ Spelled is items) : ∀ v ∈ items, v.Plain := by
  induction h with
  | nil => exact fun _ hv => absurd hv List.not_mem_nil
  | cons h _ ih => exact List.forall_mem_cons.mpr ⟨h.plain, ih⟩

end Instruction

namespace Program

theorem plain_sourceField (source : Option String) : (sourceField source).value.Plain := by
  cases source with
  | none => exact .null
  | some source => exact .string _

theorem Spelled.plain {p : Program} {v : Json} (h : p.Spelled v) : v.Plain := by
  obtain ⟨hitems, h⟩ := h
  have hinstructions := Json.Plain.array (Instruction.plain_of_spelled hitems)
  exact h.plain (by simp [plain_sourceField, hinstructions])

end Program
end SetLaws
