import SetLaws.Proofs.Session.Step

/-!
# Undefined names

All names that have no set are found before anything is evaluated, each at its first place, and
then nothing else is reported.  Where none is found, evaluation does not miss one either.
-/

namespace SetLaws

/-- The named sets in the expressions of an instruction, in the order of the source. -/
def Instruction.references (i : Instruction) : List Reference :=
  i.exprs.flatMap Expr.references

section

variable (name : String) (expr : Expr) (span : Span)

theorem Instruction.references_define : (define name expr span).references = expr.references :=
  List.flatMap_singleton _ _

theorem Instruction.references_operate : (operate name expr span).references = expr.references :=
  List.flatMap_singleton _ _

end

/-- An instruction that tests elements names an operation that is stored. -/
def Session.HasTarget (s : Session) : Instruction → Prop
  | .evaluate _ operation _ => s.env.sets.contains operation = true
  | _ => True

/-- The first places of those names in a list of references that satisfy a condition, in the
order of these places. -/
structure FirstPlaces (p : String → Bool) (references firsts : List Reference) : Prop where
  mem_iff (r : Reference) :
    r ∈ firsts ↔ p r.name = true ∧ references.find? (·.name = r.name) = some r
  ordered : firsts.Pairwise fun a b =>
    (references.map Reference.name).idxOf a.name < (references.map Reference.name).idxOf b.name

namespace Session

section

variable {p : String → Bool} {seen : List String} {references : List Reference}

theorem mem_firstOfEachName_iff {r : Reference} :
    r ∈ firstOfEachName seen (references.filter (p ·.name)) ↔
      r.name ∉ seen ∧ p r.name = true ∧ references.find? (·.name = r.name) = some r := by
  induction references generalizing seen with
  | nil =>
    refine iff_of_false List.not_mem_nil ?_
    rintro ⟨_, _, hfind⟩
    cases hfind
  | cons x rest ih =>
    by_cases hp : p x.name = true
    · rw [List.filter_cons, if_pos hp, firstOfEachName]
      split
      · next hseen =>
        rw [ih]
        refine and_congr_right fun hr => and_congr_right fun _ => ?_
        have hne : x.name ≠ r.name := fun h => hr (h ▸ hseen)
        rw [List.find?_cons_of_neg (by simpa using hne)]
      · next hseen =>
        rw [List.mem_cons, ih, List.mem_cons, not_or]
        by_cases hname : x.name = r.name
        · rw [List.find?_cons_of_pos (by simpa using hname), Option.some_inj]
          constructor
          · rintro (rfl | ⟨⟨hne, _⟩, _⟩)
            · exact ⟨hseen, hp, rfl⟩
            · exact absurd hname.symm hne
          · rintro ⟨_, _, rfl⟩
            exact Or.inl rfl
        · rw [List.find?_cons_of_neg (by simpa using hname)]
          have hne : r ≠ x := fun h => hname (congrArg Reference.name h.symm)
          simp only [hne, false_or, Ne.symm hname, not_false_eq_true, true_and]
    · rw [List.filter_cons, if_neg hp, ih]
      refine and_congr_right fun _ => and_congr_right fun hr => ?_
      have hne : x.name ≠ r.name := fun h => hp (h ▸ hr)
      rw [List.find?_cons_of_neg (by simpa using hne)]

/-- Behind a name that none of the references has, their order is the same. -/
theorem pairwise_idxOf_cons {name : String} {names : List String} {firsts : List Reference}
    (hne : ∀ r ∈ firsts, r.name ≠ name)
    (h : firsts.Pairwise fun a b => names.idxOf a.name < names.idxOf b.name) :
    firsts.Pairwise fun a b => (name :: names).idxOf a.name < (name :: names).idxOf b.name := by
  refine h.imp_of_mem fun {a b} ha hb hab => ?_
  rw [List.idxOf_cons_ne _ (hne a ha).symm, List.idxOf_cons_ne _ (hne b hb).symm]
  exact Nat.succ_lt_succ hab

theorem pairwise_firstOfEachName :
    (firstOfEachName seen (references.filter (p ·.name))).Pairwise fun a b =>
      (references.map Reference.name).idxOf a.name <
        (references.map Reference.name).idxOf b.name := by
  induction references generalizing seen with
  | nil => exact .nil
  | cons x rest ih =>
    rw [List.map_cons]
    by_cases hp : p x.name = true
    · rw [List.filter_cons, if_pos hp, firstOfEachName]
      split
      · next hseen =>
        refine pairwise_idxOf_cons (fun r hr h => ?_) ih
        exact (mem_firstOfEachName_iff.mp hr).1 (h ▸ hseen)
      · have hne : ∀ r ∈ firstOfEachName (x.name :: seen) (rest.filter (p ·.name)),
            r.name ≠ x.name := by
          intro r hr h
          exact (mem_firstOfEachName_iff.mp hr).1 (h ▸ List.mem_cons_self)
        refine List.pairwise_cons.mpr ⟨fun r hr => ?_, pairwise_idxOf_cons hne ih⟩
        rw [List.idxOf_cons_self, List.idxOf_cons_ne _ (hne r hr).symm]
        exact Nat.succ_pos _
    · rw [List.filter_cons, if_neg hp]
      refine pairwise_idxOf_cons (fun r hr h => ?_) ih
      exact hp (h ▸ (mem_firstOfEachName_iff.mp hr).2.1)

theorem firstPlaces_firstOfEachName (p : String → Bool) (references : List Reference) :
    FirstPlaces p references (firstOfEachName [] (references.filter (p ·.name))) where
  mem_iff r := by
    rw [mem_firstOfEachName_iff]
    exact and_iff_right List.not_mem_nil
  ordered := pairwise_firstOfEachName

end

theorem missingReferences_eq_nil_iff {env : Environment} {exprs : List Expr} :
    env.missingReferences exprs = [] ↔
      ∀ r ∈ exprs.flatMap Expr.references, env.sets.contains r.name = true := by
  refine ⟨Environment.contains_of_missingReferences_eq_nil, fun hall => ?_⟩
  have hnone : (exprs.flatMap Expr.references).filter (fun r => !env.sets.contains r.name) = [] := by
    refine List.filter_eq_nil_iff.mpr fun r hr => ?_
    rw [hall r hr]
    exact Bool.false_ne_true
  rw [Environment.missingReferences, hnone]
  rfl

variable {s s' : Session} {i : Instruction} {faults : List Diagnostic}

/-- Where names are missing, the instruction ends before it does anything. -/
theorem execute_of_missingReferences_ne_nil (htarget : s.HasTarget i)
    (h : s.env.missingReferences i.exprs ≠ []) :
    s.execute i = (.error (s.env.missingReferences i.exprs), s) := by
  obtain ⟨d, ds, hmissing⟩ := List.exists_cons_of_ne_nil h
  rw [hmissing]
  cases i with
  | define name expr span =>
    show s.define name expr = _
    rw [Instruction.exprs] at hmissing
    rw [define, hmissing]
  | operate name expr span =>
    show s.operate name expr = _
    rw [Instruction.exprs] at hmissing
    rw [operate, hmissing]
  | evaluate elements operation span =>
    show s.evaluate elements operation span = _
    obtain ⟨target, hfound⟩ := Option.isSome_iff_exists.mp htarget
    rw [Instruction.exprs] at hmissing
    rw [evaluate, hfound]
    dsimp only
    rw [hmissing]

/-- Where no name is missing, no fault is about one. -/
theorem not_isUndefined_of_execute (htarget : s.HasTarget i)
    (hall : ∀ r ∈ i.references, s.env.sets.contains r.name = true)
    (h : s.execute i = (.error faults, s')) : ∀ d ∈ faults, ¬ d.fault.IsUndefined := by
  have hmissing := missingReferences_eq_nil_iff.mpr hall
  cases i with
  | define name expr span =>
    rw [Instruction.references_define] at hall
    replace h : s.define name expr = (.error faults, s') := h
    rw [Instruction.exprs] at hmissing
    unfold define at h
    rw [hmissing] at h
    dsimp only at h
    split at h
    · next d state heval =>
      cases h
      exact List.forall_mem_singleton.mpr (Expr.not_isUndefined_of_error hall heval)
    · cases h
  | operate name expr span =>
    rw [Instruction.references_operate] at hall
    replace h : s.operate name expr = (.error faults, s') := h
    rw [Instruction.exprs] at hmissing
    unfold operate at h
    rw [hmissing] at h
    dsimp only at h
    split at h
    · next d state heval =>
      cases h
      exact List.forall_mem_singleton.mpr (Expr.not_isUndefined_of_error hall heval)
    · split at h <;> cases h
    · cases h
      exact List.forall_mem_singleton.mpr id
  | evaluate elements operation span =>
    obtain ⟨target, hfound⟩ := Option.isSome_iff_exists.mp htarget
    obtain ⟨_, hfaults⟩ := countedBy_evaluateEach elements s.env
    replace hfaults := hfaults hall
    replace h : s.evaluate elements operation span = (.error faults, s') := h
    rw [Instruction.exprs] at hmissing
    unfold evaluate at h
    rw [hfound] at h
    dsimp only at h
    rw [hmissing] at h
    dsimp only at h
    split at h
    · next values d ds env heach =>
      cases h
      rwa [heach] at hfaults
    · cases h

/-- If names of an instruction have no set, it reports these names and does nothing, one fault
for each name at its first place.  If all have a set, it reports no name. -/
theorem execute_undefined (s : Session) (i : Instruction) (htarget : s.HasTarget i) :
    ((∃ r ∈ i.references, s.env.sets.contains r.name = false) →
      ∃ firsts, FirstPlaces (fun name => !s.env.sets.contains name) i.references firsts ∧
        s.execute i = (.error (firsts.map fun r =>
          .single r.span (.undefinedSet r.name (s.env.similarNames r.name))), s)) ∧
    ((∀ r ∈ i.references, s.env.sets.contains r.name = true) →
      ∀ faults s', s.execute i = (.error faults, s') →
        ∀ d ∈ faults, ∀ name suggestions, d.fault ≠ .undefinedSet name suggestions) := by
  constructor
  · rintro ⟨r, hr, hname⟩
    refine ⟨_, firstPlaces_firstOfEachName _ _, ?_⟩
    refine execute_of_missingReferences_ne_nil htarget fun hnil => ?_
    rw [missingReferences_eq_nil_iff.mp hnil r hr] at hname
    cases hname
  · intro hall faults s' h d hd name suggestions hfault
    have hdefined := not_isUndefined_of_execute htarget hall h d hd
    rw [hfault] at hdefined
    exact hdefined trivial

/-- Two elements to be tested miss one name between them, and the name in the ignored operand of
a complement is missed too.  With all names stored the element that is no set is found. -/
theorem execute_undefined_members :
    let s := (start 10).store "A" .empty
    let members : List Expr :=
      [.list [.reference "M" ⟨4, 5⟩, .reference "A" ⟨6, 7⟩] ⟨3, 8⟩,
        .operation .complement (.reference "M" ⟨9, 10⟩) (some (.reference "AB" ⟨11, 13⟩)) ⟨8, 13⟩]
    let i : Instruction := .evaluate members "A" ⟨0, 13⟩
    let j : Instruction := .evaluate
      [.operation .complement (.list [.reference "A" ⟨2, 3⟩] ⟨1, 4⟩) none ⟨0, 4⟩] "A" ⟨0, 9⟩
    s.HasTarget i ∧ s.HasTarget j ∧ (s.execute i).2 = s ∧
      (s.execute i).1 = .error [.single ⟨4, 5⟩ (.undefinedSet "M" ["A"]),
        .single ⟨11, 13⟩ (.undefinedSet "AB" ["A"])] ∧
      ∃ faults, (s.execute j).1 = .error faults ∧ faults ≠ [] ∧
        ∀ d ∈ faults, ∀ name suggestions, d.fault ≠ .undefinedSet name suggestions := by
  intro s members i j
  have htarget : s.env.sets.contains "A" = true := by decide +kernel
  have hi : s.HasTarget i := htarget
  have hj : s.HasTarget j := htarget
  have hmissing : ∃ r ∈ i.references, s.env.sets.contains r.name = false := by decide +kernel
  have hall : ∀ r ∈ j.references, s.env.sets.contains r.name = true := by decide +kernel
  have hverdict : (s.execute j).1 =
      .error [.single ⟨1, 4⟩ (.typeMismatch .complement .list .left)] := by decide +kernel
  obtain ⟨_, _, hexecute⟩ := (execute_undefined s i hi).1 hmissing
  refine ⟨hi, hj, congrArg Prod.snd hexecute, by decide +kernel, _, hverdict,
    List.cons_ne_nil _ _, ?_⟩
  exact (execute_undefined s j hj).2 hall _ _ (Prod.ext hverdict rfl)

end Session
end SetLaws
