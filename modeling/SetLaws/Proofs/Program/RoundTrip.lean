import Mathlib.Data.List.Permutation
import SetLaws.Proofs.Program.Spelling

/-!
# Programs read back

A program is read from every spelling of it, as long as not too many arrays and objects are
nested in it.
-/

namespace SetLaws

open Json (Records Field)

/-! ## Texts, spans, kinds and operators -/

@[simp]
theorem Json.text?_text (s : String) : (text s).text? = some s := rfl

@[simp]
theorem Json.constant?_text (levels : Nat) (s : String) : (text s).constant? levels = some s := rfl

theorem Json.word?_natural (n : UInt64) : (natural n.toNat).word? = some n := by
  have hbounds : (0 : Int) ≤ n.toNat ∧ (n.toNat : Int) < UInt64.size :=
    ⟨Int.natCast_nonneg _, by exact_mod_cast n.toNat_lt_size⟩
  rw [natural, word?, if_pos hbounds, Int.toNat_natCast, UInt64.ofNat_toNat]

namespace Span

variable {s : Span} {v place : Json} {levels : Nat}

theorem Spelled.exists_fields? (h : s.Spelled v) :
    ∃ start stop, fields? v = some (start, stop) ∧ start.word? = some s.start ∧
      stop.word? = some s.stop := by
  refine ⟨_, _, ?_, Json.word?_natural s.start, Json.word?_natural s.stop⟩
  cases h with
  | @members kept dropped hperm hdropped =>
    -- Neither word may be left out, so only their order is free.
    have hnil : dropped = [] := by
      rw [List.eq_nil_iff_forall_not_mem]
      intro f hf
      have hmem := hperm.mem_iff.mp (List.mem_append_right kept hf)
      have hoptional := hdropped f hf
      simp only [words, List.mem_cons, List.not_mem_nil, or_false] at hmem
      rcases hmem with rfl | rfl <;> cases hoptional
    rw [hnil, List.append_nil, words, List.perm_pair] at hperm
    rcases hperm with rfl | rfl <;> rfl
  | items => rfl

theorem Spelled.ofJson?_eq (h : s.Spelled v) (hlevels : 0 < levels) :
    ofJson? levels v = some s := by
  obtain ⟨start, stop, hfields, hstart, hstop⟩ := h.exists_fields?
  rw [ofJson?, if_neg (Nat.ne_of_gt hlevels), hfields]
  dsimp only
  rw [hstart, hstop]

theorem Spelled.ofField?_eq {found : Option Json} (h : s.Spelled place) (hlevels : 0 < levels)
    (hfound : (s.field place).Yields found) : ofField? levels found = some s := by
  rcases hfound with rfl | ⟨rfl, hnowhere⟩
  · exact h.ofJson?_eq hlevels
  · exact congrArg some (of_decide_eq_true hnowhere).symm

end Span

@[simp]
theorem LiteralKind.ofName?_name (kind : LiteralKind) : ofName? kind.name = some kind := by
  cases kind <;> decide

@[simp]
theorem Operator.ofSymbol?_symbol (op : Operator) : ofSymbol? op.symbol = some op := by
  obtain (_ | _ | _) | _ := op <;> decide

/-! ## Expressions -/

namespace Expr

/-- The arrays and objects of an expression, part by part. -/
theorem depth_toJson (e : Expr) :
    e.toJson.depth = match e with
      | .primitive _ _ _ => 3
      | .range first last _ => 2 + max first.toJson.depth (max last.toJson.depth 1)
      | .reference _ _ => 3
      | .list elements _ => 3 + Json.itemsDepth (listToJson elements)
      | .operation _ lhs none _ => 2 + max lhs.toJson.depth 1
      | .operation _ lhs (some rhs) _ => 2 + max lhs.toJson.depth (max rhs.toJson.depth 1) := by
  obtain _ | _ | _ | _ | ⟨op, lhs, _ | rhs, span⟩ := e <;>
    simp [toJson, Json.variant, Json.record, Span.toJson, Json.depth, Json.membersDepth, Json.text,
      Json.natural] <;> omega

theorem exists_levels {e : Expr} {levels : Nat} (h : e.toJson.depth ≤ levels) :
    ∃ n, levels = n + 3 := by
  refine Nat.exists_eq_add_of_le' (Nat.le_trans ?_ h)
  rw [depth_toJson]
  split <;> omega

theorem Spelled.exists_members {e : Expr} {v : Json} (h : e.Spelled v) :
    ∃ members, v = .object members := by
  cases h <;> exact ⟨_, rfl⟩

-- One level goes to the variant and one to its record.  What is left suffices for the parts,
-- since the words of a span are nested as deep in every expression.

mutual

theorem Spelled.ofJson?_eq : ∀ {e : Expr} {v : Json}, e.Spelled v →
    ∀ levels, e.toJson.depth ≤ levels → ofJson? levels v = some e
  | _, _, .primitive value kind hspan h, levels, hdepth => by
    obtain ⟨levels, rfl⟩ := exists_levels hdepth
    obtain ⟨_, hfields, _ | ⟨hvalue, _ | ⟨hkind, _ | ⟨hplace, _ | _⟩⟩⟩⟩ :=
      h.fields_eq ["value", "kind", "span"] rfl (by decide)
    rw [Json.tagged, ofJson?, hfields, hvalue.eq_some, hkind.eq_some]
    simp [hspan.ofField?_eq (Nat.succ_pos levels) hplace]
  | _, _, .range hfirst hlast hspan h, levels, hdepth => by
    obtain ⟨levels, rfl⟩ := exists_levels hdepth
    rw [depth_toJson] at hdepth
    dsimp only at hdepth
    obtain ⟨_, hfields, _ | ⟨hstart, _ | ⟨hstop, _ | ⟨hplace, _ | _⟩⟩⟩⟩ :=
      h.fields_eq ["start", "end", "span"] rfl (by decide)
    rw [Json.tagged, ofJson?, hfields, hstart.eq_some, hstop.eq_some]
    simp [hspan.ofField?_eq (Nat.succ_pos levels) hplace, hfirst.ofJson?_eq (levels + 1) (by omega),
      hlast.ofJson?_eq (levels + 1) (by omega)]
  | _, _, .reference name hspan h, levels, hdepth => by
    obtain ⟨levels, rfl⟩ := exists_levels hdepth
    obtain ⟨_, hfields, _ | ⟨hname, _ | ⟨hplace, _ | _⟩⟩⟩ :=
      h.fields_eq ["name", "span"] rfl (by decide)
    rw [Json.tagged, ofJson?, hfields, hname.eq_some]
    simp [hspan.ofField?_eq (Nat.succ_pos levels) hplace]
  | _, _, .list helements hspan h, levels, hdepth => by
    obtain ⟨levels, rfl⟩ := exists_levels hdepth
    rw [depth_toJson] at hdepth
    dsimp only at hdepth
    obtain ⟨_, hfields, _ | ⟨hitems, _ | ⟨hplace, _ | _⟩⟩⟩ :=
      h.fields_eq ["elements", "span"] rfl (by decide)
    rw [Json.tagged, ofJson?, hfields, hitems.eq_some]
    simp [hspan.ofField?_eq (Nat.succ_pos levels) hplace,
      helements.mapM_ofJson?_eq levels (by omega)]
  | _, _, .one op hlhs hspan h, levels, hdepth => by
    obtain ⟨levels, rfl⟩ := exists_levels hdepth
    rw [depth_toJson] at hdepth
    dsimp only at hdepth
    obtain ⟨_, hfields, _ | ⟨hop, _ | ⟨hleft, _ | ⟨hright, _ | ⟨hplace, _ | _⟩⟩⟩⟩⟩ :=
      h.fields_eq ["op", "lhs", "rhs", "span"] rfl (by decide)
    rw [Json.tagged, ofJson?, hfields, hop.eq_some, hleft.eq_some]
    rcases hright with rfl | ⟨rfl, -⟩ <;>
      simp [hspan.ofField?_eq (Nat.succ_pos levels) hplace,
        hlhs.ofJson?_eq (levels + 1) (by omega)]
  | _, _, .both op hlhs hrhs hspan h, levels, hdepth => by
    obtain ⟨levels, rfl⟩ := exists_levels hdepth
    rw [depth_toJson] at hdepth
    dsimp only at hdepth
    obtain ⟨_, hfields, _ | ⟨hop, _ | ⟨hleft, _ | ⟨hright, _ | ⟨hplace, _ | _⟩⟩⟩⟩⟩ :=
      h.fields_eq ["op", "lhs", "rhs", "span"] rfl (by decide)
    have hread := hrhs.ofJson?_eq (levels + 1) (by omega)
    -- The operand is not null, so it is not taken for a missing one.
    obtain ⟨_, rfl⟩ := hrhs.exists_members
    rw [Json.tagged, ofJson?, hfields, hop.eq_some, hleft.eq_some, hright.eq_some]
    simp [hspan.ofField?_eq (Nat.succ_pos levels) hplace, hlhs.ofJson?_eq (levels + 1) (by omega),
      hread]

theorem SpelledAll.mapM_ofJson?_eq : ∀ {es : List Expr} {vs : List Json}, SpelledAll es vs →
    ∀ levels, Json.itemsDepth (listToJson es) ≤ levels → vs.mapM (ofJson? levels) = some es
  | _, _, .nil, _, _ => rfl
  | _, _, .cons h hs, levels, hdepth => by
    rw [listToJson, Json.itemsDepth, Nat.max_le] at hdepth
    rw [List.mapM_cons, h.ofJson?_eq levels hdepth.1, hs.mapM_ofJson?_eq levels hdepth.2]
    rfl

end

end Expr

/-! ## Instructions and programs -/

namespace Instruction

theorem depth_toJson (i : Instruction) :
    i.toJson.depth = match i with
      | .define _ expr _ => 2 + max expr.toJson.depth 1
      | .operate _ expr _ => 2 + max expr.toJson.depth 1
      | .evaluate elements _ _ => 3 + Json.itemsDepth (Expr.listToJson elements) := by
  cases i <;>
    simp [toJson, Json.variant, Json.record, Span.toJson, Json.depth, Json.membersDepth, Json.text,
      Json.natural] <;> omega

theorem exists_levels {i : Instruction} {levels : Nat} (h : i.toJson.depth ≤ levels) :
    ∃ n, levels = n + 3 := by
  refine Nat.exists_eq_add_of_le' (Nat.le_trans ?_ h)
  rw [depth_toJson]
  split <;> omega

theorem Spelled.ofJson?_eq {i : Instruction} {v : Json} (h : i.Spelled v) {levels : Nat}
    (hdepth : i.toJson.depth ≤ levels) : ofJson? levels v = some i := by
  obtain ⟨levels, rfl⟩ := exists_levels hdepth
  rw [depth_toJson] at hdepth
  cases h with
  | define name hexpr hspan h
  | operate name hexpr hspan h =>
    dsimp only at hdepth
    obtain ⟨_, hfields, _ | ⟨hname, _ | ⟨hw, _ | ⟨hplace, _ | _⟩⟩⟩⟩ :=
      h.fields_eq ["name", "expr", "span"] rfl (by decide)
    rw [Json.tagged, ofJson?, hfields, hname.eq_some, hw.eq_some]
    simp [hspan.ofField?_eq (Nat.succ_pos levels) hplace,
      hexpr.ofJson?_eq (levels + 1) (by omega)]
  | evaluate operation helements hspan h =>
    dsimp only at hdepth
    obtain ⟨_, hfields, _ | ⟨hitems, _ | ⟨hname, _ | ⟨hplace, _ | _⟩⟩⟩⟩ :=
      h.fields_eq ["elements", "operation", "span"] rfl (by decide)
    rw [Json.tagged, ofJson?, hfields, hitems.eq_some, hname.eq_some]
    simp [hspan.ofField?_eq (Nat.succ_pos levels) hplace,
      helements.mapM_ofJson?_eq levels (by omega)]

theorem mapM_ofJson?_eq {is : List Instruction} {items : List Json}
    (h : List.Forall₂ Spelled is items) (levels : Nat)
    (hdepth : Json.itemsDepth (is.map toJson) ≤ levels) :
    items.mapM (ofJson? levels) = some is := by
  induction h with
  | nil => rfl
  | cons h _ ih =>
    rw [List.map_cons, Json.itemsDepth, Nat.max_le] at hdepth
    rw [List.mapM_cons, h.ofJson?_eq hdepth.1, ih hdepth.2]
    rfl

end Instruction

namespace Program

theorem depth_toJson (p : Program) :
    p.toJson.depth = 2 + Json.itemsDepth (p.instructions.map Instruction.toJson) := by
  obtain ⟨_ | source, instructions⟩ := p <;>
    simp [toJson, Json.record, Json.depth, Json.membersDepth, Json.text] <;> omega

theorem optionalText?_sourceField {source : Option String} {found : Option Json}
    (h : (sourceField source).Yields found) : Json.optionalText? found = some source := by
  cases source with
  | none => rcases h with rfl | ⟨rfl, -⟩ <;> rfl
  | some source => rw [h.eq_some]; rfl

theorem Spelled.ofJson?_eq {p : Program} {v : Json} (h : p.Spelled v) {levels : Nat}
    (hdepth : p.toJson.depth ≤ levels) : ofJson? levels v = some p := by
  rw [depth_toJson] at hdepth
  obtain ⟨levels, rfl⟩ : ∃ n, levels = n + 2 := Nat.exists_eq_add_of_le' (by omega)
  obtain ⟨hitems, h⟩ := h
  obtain ⟨_, hfields, _ | ⟨hsource, _ | ⟨hinstructions, _ | _⟩⟩⟩ :=
    h.fields_eq ["source", "instructions"] (by cases p.source <;> rfl) (by decide)
  rw [ofJson?, hfields, hinstructions.eq_some]
  simp [optionalText?_sourceField hsource, Instruction.mapM_ofJson?_eq hitems levels (by omega)]

theorem Spelled.read_compact {p : Program} {v : Json} (h : p.Spelled v)
    (hdepth : p.toJson.depth ≤ maxLevels) : read v.compact = some p := by
  rw [read, h.plain.read_compact, Option.bind_some, h.ofJson?_eq hdepth]

/-- A program with at most 127 arrays and objects nested in it is read back from the text that
it is written out as, and from every other spelling of it. -/
theorem read_spelled {p : Program} (hdepth : p.toJson.depth ≤ 127) :
    read p.write = some p ∧ ∀ v, p.Spelled v → read v.compact = some p :=
  ⟨p.spelled_toJson.read_compact hdepth, fun _ h => h.read_compact hdepth⟩

/-- Members in the other order, words in arrays, and nothing that may be left out. -/
theorem read_spelled_complement :
    read (Json.compact (.record [("instructions", .array [.tagged "OperateSet" (.record [
      ("span", .array [.natural 0, .natural 7]),
      ("expr", .tagged "Operation" (.record [
        ("lhs", .tagged "Reference" (.array [.text "A", .array [.natural 6, .natural 7]])),
        ("op", .text "^")])),
      ("name", .text "X")])])])) =
      some ⟨none, [.operate "X"
        (.operation .complement (.reference "A" ⟨6, 7⟩) none .nowhere) ⟨0, 7⟩]⟩ := by
  have hlhs : (Expr.reference "A" ⟨6, 7⟩).Spelled
      (.tagged "Reference" (.array [.text "A", .array [.natural 6, .natural 7]])) :=
    .reference "A" .items .items
  have hexpr := Expr.Spelled.one .complement hlhs (Span.spelled_toJson .nowhere)
    (@Records.members _ [_, _] [_, _] (.swap _ _ _) (by simp [Span.field]))
  have hitem := Instruction.Spelled.operate "X" hexpr (@Records.items (Span.words ⟨0, 7⟩))
    (@Records.members [_, _, _] [_, _, _] [] (List.reverse_perm [_, _, _]) (by simp))
  exact (read_spelled (by decide)).2 _
    (.mk (.cons hitem .nil) (@Records.members _ [_] [_] (.swap _ _ _) (by simp [sourceField])))

end Program
end SetLaws
