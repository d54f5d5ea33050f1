import SetLaws.Json.Read
import SetLaws.Proofs.Json.Tokens

/-!
# Values read back

A value whose numbers are integers is read from the text that it is written as, on one line or on
several.  The text falls into the tokens of the value; the tokens of a part of it are put together
to that part, whatever waits around it and whatever follows.
-/

namespace SetLaws
namespace Json

/-- Values without numbers that have a fraction or an exponent. -/
inductive Plain : Json → Prop where
  | null : Plain .null
  | bool (b : Bool) : Plain (.bool b)
  | integer (n : Int) : Plain (.integer n)
  | string (spelling : Spelling) : Plain (.string spelling)
  | array {items : List Json} (h : ∀ v ∈ items, Plain v) : Plain (.array items)
  | object {members : List (Spelling × Json)} (h : ∀ m ∈ members, Plain m.2) :
      Plain (.object members)

attribute [simp] Plain.null

@[simp]
theorem plain_text (s : String) : (text s).Plain := .string (some s)

@[simp]
theorem plain_natural (n : Nat) : (natural n).Plain := .integer n

theorem plain_record {members : List (String × Json)} (h : ∀ m ∈ members, m.2.Plain) :
    (record members).Plain := by
  refine .object fun m hm => ?_
  obtain ⟨m', hm', rfl⟩ := List.mem_map.mp hm
  exact h m' hm'

/-! ## Splitting -/

/-- The characters are split into the tokens, whatever follows in which no number goes on. -/
def Spells (cs : List Char) (ts : List Token) : Prop :=
  ∀ rest, EndsNumber rest → scan (cs ++ rest) = (scan rest).map (ts ++ ·)

section Spells

variable {cs ds gap : List Char} {ts us : List Token} {depth : Nat}

theorem spells_nil : Spells [] [] := by
  intro rest _
  exact Option.map_id'.symm

theorem Spells.cons (hcs : Spells cs ts) (token : Token) (h : token.isNumber = false) :
    Spells (token.chars ++ cs) (token :: ts) := by
  intro rest hrest
  rw [List.append_assoc, scan_chars h, hcs rest hrest, Option.map_map]
  rfl

/-- Tokens that come first must be followed by one that is not a number. -/
theorem Spells.append (hcs : Spells cs ts) (hds : Spells ds us)
    (hends : ∀ rest, EndsNumber (ds ++ rest)) : Spells (cs ++ ds) (ts ++ us) := by
  intro rest hrest
  rw [List.append_assoc, hcs _ (hends rest), hds rest hrest, Option.map_map]
  congr 1
  funext vs
  exact (List.append_assoc ts us vs).symm

/-- Blanks in front of a token belong to none. -/
theorem Spells.behind (hgap : ∀ c ∈ gap, isSpace c = true) (hcs : Spells cs ts) :
    Spells (gap ++ cs) ts := by
  induction gap with
  | nil => exact hcs
  | cons c gap ih =>
    obtain ⟨hc, hgap⟩ := List.forall_mem_cons.mp hgap
    intro rest hrest
    rw [List.cons_append, List.cons_append, scan, if_pos hc]
    exact ih hgap rest hrest

theorem spells_token (token : Token) (h : token.isNumber = false) : Spells token.chars [token] := by
  have hone := spells_nil.cons token h
  rwa [List.append_nil] at hone

theorem spells_integer (n : Int) : Spells (Token.integer n).chars [.integer n] := by
  intro rest hrest
  rw [scan_integer n hrest]
  rfl

variable {items : List Json} {members : List (Spelling × Json)}

/-! ### On one line -/

theorem endsNumber_itemTokens (items : List Json) (rest : List Char) :
    EndsNumber ((itemTokens items).flatMap Token.chars ++ rest) := by
  cases items <;> (intro c hc; cases hc; rfl)

theorem endsNumber_memberTokens (members : List (Spelling × Json)) (rest : List Char) :
    EndsNumber ((memberTokens members).flatMap Token.chars ++ rest) := by
  obtain - | ⟨⟨key, v⟩, members⟩ := members <;> (intro c hc; cases hc; rfl)

/-- The tokens of the value spelled one after the other. -/
def SpellsCompact (v : Json) : Prop :=
  Spells (v.tokens.flatMap Token.chars) v.tokens

theorem spells_itemTokens (h : ∀ v ∈ items, v.SpellsCompact) :
    Spells ((itemTokens items).flatMap Token.chars) (itemTokens items) := by
  induction items with
  | nil => exact spells_nil.cons .closeArray rfl
  | cons item items ih =>
    obtain ⟨hitem, hitems⟩ := List.forall_mem_cons.mp h
    rw [itemTokens, List.flatMap_cons, List.flatMap_append]
    exact (hitem.append (ih hitems) (endsNumber_itemTokens items)).cons .comma rfl

theorem spells_memberTokens (h : ∀ m ∈ members, m.2.SpellsCompact) :
    Spells ((memberTokens members).flatMap Token.chars) (memberTokens members) := by
  induction members with
  | nil => exact spells_nil.cons .closeObject rfl
  | cons m members ih =>
    obtain ⟨hm, hmembers⟩ := List.forall_mem_cons.mp h
    have hvalue := hm.append (ih hmembers) (endsNumber_memberTokens members)
    rw [memberTokens, List.flatMap_cons, List.flatMap_cons, List.flatMap_cons, List.flatMap_append]
    exact ((hvalue.cons .colon rfl).cons (.string m.1) rfl).cons .comma rfl

theorem Plain.spellsCompact {v : Json} (h : v.Plain) : v.SpellsCompact := by
  rw [SpellsCompact]
  induction h with
  | null => exact spells_nil.cons .null rfl
  | bool b => exact spells_nil.cons (.bool b) rfl
  | integer n =>
    rw [tokens, List.flatMap_singleton]
    exact spells_integer n
  | string spelling => exact spells_nil.cons (.string spelling) rfl
  | @array items _ ih =>
    cases items with
    | nil => exact (spells_nil.cons .closeArray rfl).cons .openArray rfl
    | cons item items =>
      obtain ⟨hitem, hitems⟩ := List.forall_mem_cons.mp ih
      rw [tokens, List.flatMap_cons, List.flatMap_append]
      have hrest := hitem.append (spells_itemTokens hitems) (endsNumber_itemTokens items)
      exact hrest.cons .openArray rfl
  | @object members _ ih =>
    cases members with
    | nil => exact (spells_nil.cons .closeObject rfl).cons .openObject rfl
    | cons m members =>
      obtain ⟨hm, hmembers⟩ := List.forall_mem_cons.mp ih
      have hvalue := hm.append (spells_memberTokens hmembers) (endsNumber_memberTokens members)
      rw [tokens, List.flatMap_cons, List.flatMap_cons, List.flatMap_cons, List.flatMap_append]
      exact ((hvalue.cons .colon rfl).cons (.string m.1) rfl).cons .openObject rfl

/-! ### On several lines -/

theorem isSpace_of_mem_lineBreak {c : Char} (h : c ∈ lineBreak depth) : isSpace c = true := by
  rcases List.mem_cons.mp h with rfl | h
  · rfl
  · rw [List.eq_of_mem_replicate h]
    rfl

theorem endsNumber_prettyItems (depth : Nat) (items : List Json) (rest : List Char) :
    EndsNumber (prettyItems depth items ++ rest) := by
  cases items <;> (intro c hc; cases hc; rfl)

theorem endsNumber_prettyMembers (depth : Nat) (members : List (Spelling × Json))
    (rest : List Char) : EndsNumber (prettyMembers depth members ++ rest) := by
  obtain - | ⟨⟨key, v⟩, members⟩ := members <;> (intro c hc; cases hc; rfl)

/-- The tokens of the value with line breaks between them, at any depth. -/
def SpellsPretty (v : Json) : Prop :=
  ∀ depth, Spells (v.prettyChars depth) v.tokens

/-- An item or a member stands on a line of its own. -/
theorem Spells.onLine (h : Spells cs ts) : Spells (lineBreak depth ++ cs) ts :=
  h.behind fun _ => isSpace_of_mem_lineBreak

/-- A blank stands between the colon of a member and its value. -/
theorem Spells.member (key : Spelling) (h : Spells cs ts) :
    Spells (lineBreak depth ++ spell key ++ [':', ' '] ++ cs) (.string key :: .colon :: ts) := by
  have hvalue : Spells ([' '] ++ cs) ts := h.behind (by simp [isSpace])
  have hmember : Spells (spell key ++ ([':'] ++ ([' '] ++ cs))) (.string key :: .colon :: ts) :=
    (hvalue.cons .colon rfl).cons (.string key) rfl
  have hline : Spells (lineBreak depth ++ _) _ := hmember.onLine
  simpa only [List.append_assoc, List.cons_append, List.nil_append] using hline

theorem spells_prettyItems (h : ∀ v ∈ items, v.SpellsPretty) :
    Spells (prettyItems depth items) (itemTokens items) := by
  induction items with
  | nil => exact (spells_token .closeArray rfl).onLine
  | cons item items ih =>
    obtain ⟨hitem, hitems⟩ := List.forall_mem_cons.mp h
    have hrest := (hitem (depth + 1)).append (ih hitems) (endsNumber_prettyItems depth items)
    rw [prettyItems, itemTokens, List.append_assoc]
    exact hrest.onLine.cons .comma rfl

theorem spells_prettyMembers (h : ∀ m ∈ members, m.2.SpellsPretty) :
    Spells (prettyMembers depth members) (memberTokens members) := by
  induction members with
  | nil => exact (spells_token .closeObject rfl).onLine
  | cons m members ih =>
    obtain ⟨hm, hmembers⟩ := List.forall_mem_cons.mp h
    have hrest := (hm (depth + 1)).append (ih hmembers) (endsNumber_prettyMembers depth members)
    rw [prettyMembers, memberTokens, List.append_assoc]
    exact (hrest.member m.1).cons .comma rfl

theorem Plain.spellsPretty {v : Json} (h : v.Plain) : v.SpellsPretty := by
  induction h with
  | null => exact fun _ => spells_token .null rfl
  | bool b => exact fun _ => spells_token (.bool b) rfl
  | integer n => exact fun _ => spells_integer n
  | string spelling => exact fun _ => spells_token (.string spelling) rfl
  | @array items _ ih =>
    intro depth
    cases items with
    | nil => exact (spells_token .closeArray rfl).cons .openArray rfl
    | cons item items =>
      obtain ⟨hitem, hitems⟩ := List.forall_mem_cons.mp ih
      have hrest := (hitem (depth + 1)).append (spells_prettyItems hitems)
        (endsNumber_prettyItems depth items)
      rw [prettyChars, tokens, List.append_assoc]
      exact hrest.onLine.cons .openArray rfl
  | @object members _ ih =>
    intro depth
    cases members with
    | nil => exact (spells_token .closeObject rfl).cons .openObject rfl
    | cons m members =>
      obtain ⟨hm, hmembers⟩ := List.forall_mem_cons.mp ih
      have hrest := (hm (depth + 1)).append (spells_prettyMembers hmembers)
        (endsNumber_prettyMembers depth members)
      rw [prettyChars, tokens, List.append_assoc]
      exact (hrest.member m.1).cons .openObject rfl

end Spells

/-! ## Putting together -/

/-- The reading after a value that is complete. -/
def proceed (v : Json) (pending : List Pending) (rest : List Token) : Option Json :=
  match deliver v pending with
  | .inl pending => assemble .separator pending rest
  | .inr v => if rest.isEmpty then some v else none

/-- Where a value may begin, its tokens are put together to it. -/
def Assembles (v : Json) : Prop :=
  ∀ expected, expected = .value ∨ expected = .firstItem → ∀ pending rest,
    assemble expected pending (v.tokens ++ rest) = proceed v pending rest

section Assemble

variable {expected : Expected} {pending : List Pending} {token : Token} {rest : List Token}

theorem assemble_completes {v : Json} {outer : List Pending}
    (h : token.move expected pending = some (.completes v outer)) :
    assemble expected pending (token :: rest) = proceed v outer rest := by
  rw [assemble, h]
  rfl

theorem assemble_opens {p : Pending} {inside : Expected}
    (h : token.move expected pending = some (.opens p inside)) :
    assemble expected pending (token :: rest) = assemble inside (p :: pending) rest := by
  rw [assemble, h]

theorem assemble_expects {next : Expected}
    (h : token.move expected pending = some (.expects next)) :
    assemble expected pending (token :: rest) = assemble next pending rest := by
  rw [assemble, h]

theorem assemble_names {key : Spelling} (h : token.move expected pending = some (.names key)) :
    assemble expected pending (token :: .colon :: rest) =
      assemble .value (startMember key pending) rest := by
  rw [assemble, h]

/-- A value begins in the same way as the first item of an array and elsewhere. -/
theorem move_eq_begins (hexpected : expected = .value ∨ expected = .firstItem)
    (h : token ≠ .closeArray) : token.move expected pending = token.begins pending := by
  rcases hexpected with rfl | rfl
  · rfl
  · cases token <;> first | rfl | exact absurd rfl h

theorem assembles_of_value? {v : Json} (htokens : v.tokens = [token])
    (h : token.value? = some v) : Assembles v := by
  intro expected hexpected pending rest
  rw [htokens]
  refine assemble_completes ?_
  cases token <;> cases h <;> exact move_eq_begins hexpected Token.noConfusion

variable {items : List Json} {members : List (Spelling × Json)}

theorem assemble_itemTokens (h : ∀ v ∈ items, Assembles v) (done : List Json) :
    assemble .separator (.array done :: pending) (itemTokens items ++ rest) =
      proceed (.array (done.reverse ++ items)) pending rest := by
  induction items generalizing done with
  | nil =>
    rw [List.append_nil]
    exact assemble_completes rfl
  | cons item items ih =>
    obtain ⟨hitem, hitems⟩ := List.forall_mem_cons.mp h
    calc assemble .separator (.array done :: pending) (itemTokens (item :: items) ++ rest)
        = assemble .value (.array done :: pending) (item.tokens ++ (itemTokens items ++ rest)) := by
          rw [itemTokens, List.cons_append, List.append_assoc]
          exact assemble_expects rfl
      _ = assemble .separator (.array (item :: done) :: pending) (itemTokens items ++ rest) :=
          hitem _ (.inl rfl) _ _
      _ = proceed (.array (done.reverse ++ item :: items)) pending rest := by
          rw [ih hitems, List.reverse_cons, List.append_assoc, List.singleton_append]

theorem assemble_memberTokens (h : ∀ m ∈ members, Assembles m.2)
    (done : List (Spelling × Json)) :
    assemble .separator (.object done :: pending) (memberTokens members ++ rest) =
      proceed (.object (done.reverse ++ members)) pending rest := by
  induction members generalizing done with
  | nil =>
    rw [List.append_nil]
    exact assemble_completes rfl
  | cons m members ih =>
    obtain ⟨hm, hmembers⟩ := List.forall_mem_cons.mp h
    obtain ⟨key, v⟩ := m
    calc assemble .separator (.object done :: pending) (memberTokens ((key, v) :: members) ++ rest)
        = assemble .key (.object done :: pending)
            (.string key :: .colon :: (v.tokens ++ (memberTokens members ++ rest))) := by
          rw [memberTokens, List.cons_append, List.cons_append, List.cons_append,
            List.append_assoc]
          exact assemble_expects rfl
      _ = assemble .value (.member done key :: pending)
            (v.tokens ++ (memberTokens members ++ rest)) := assemble_names rfl
      _ = assemble .separator (.object ((key, v) :: done) :: pending)
            (memberTokens members ++ rest) := hm _ (.inl rfl) _ _
      _ = proceed (.object (done.reverse ++ (key, v) :: members)) pending rest := by
          rw [ih hmembers, List.reverse_cons, List.append_assoc, List.singleton_append]

theorem assembles_array (h : ∀ v ∈ items, Assembles v) : Assembles (.array items) := by
  intro expected hexpected pending rest
  cases items with
  | nil =>
    rw [tokens, List.cons_append,
      assemble_opens (move_eq_begins hexpected Token.noConfusion)]
    exact assemble_completes rfl
  | cons item items =>
    obtain ⟨hitem, hitems⟩ := List.forall_mem_cons.mp h
    rw [tokens, List.cons_append, List.append_assoc,
      assemble_opens (move_eq_begins hexpected Token.noConfusion), hitem _ (.inr rfl)]
    exact assemble_itemTokens hitems [item]

theorem assembles_object (h : ∀ m ∈ members, Assembles m.2) : Assembles (.object members) := by
  intro expected hexpected pending rest
  cases members with
  | nil =>
    rw [tokens, List.cons_append,
      assemble_opens (move_eq_begins hexpected Token.noConfusion)]
    exact assemble_completes rfl
  | cons m members =>
    obtain ⟨hm, hmembers⟩ := List.forall_mem_cons.mp h
    obtain ⟨key, v⟩ := m
    rw [tokens, List.cons_append, List.cons_append, List.cons_append, List.append_assoc,
      assemble_opens (move_eq_begins hexpected Token.noConfusion), assemble_names rfl,
      hm _ (.inl rfl)]
    exact assemble_memberTokens hmembers [(key, v)]

theorem Plain.assembles {v : Json} (h : v.Plain) : Assembles v := by
  induction h with
  | null => exact assembles_of_value? rfl rfl
  | bool b => exact assembles_of_value? rfl rfl
  | integer n => exact assembles_of_value? rfl rfl
  | string spelling => exact assembles_of_value? rfl rfl
  | array _ ih => exact assembles_array ih
  | object _ ih => exact assembles_object ih

end Assemble

/-- A value is read from any text that is split into its tokens. -/
theorem Plain.read_of_spells {v : Json} (h : v.Plain) {cs : List Char} (hcs : Spells cs v.tokens) :
    read (String.ofList cs) = some v := by
  have hscan : scan cs = some v.tokens := by
    have hspells := hcs [] (fun c hc => by cases hc)
    rw [List.append_nil] at hspells
    rw [hspells, scan, Option.map_some, List.append_nil]
  have hassemble := h.assembles .value (.inl rfl) [] []
  rw [List.append_nil] at hassemble
  rw [read, String.toList_ofList, hscan, Option.bind_some, hassemble]
  rfl

theorem Plain.read_compact {v : Json} (h : v.Plain) : read v.compact = some v :=
  h.read_of_spells h.spellsCompact

theorem Plain.read_pretty {v : Json} (h : v.Plain) : read v.pretty = some v :=
  h.read_of_spells (h.spellsPretty 0)

end Json
end SetLaws
