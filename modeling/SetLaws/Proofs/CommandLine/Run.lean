import SetLaws.CommandLine
import SetLaws.Proofs.CommandLine.Directory
import SetLaws.Proofs.Program.RoundTrip
import SetLaws.Proofs.Session.Reports
import SetLaws.Proofs.Text.Bytes

/-!
# A run, from the arguments to the files

What a run shows, how it ends and which files it leaves, in terms of the arguments, of the text
that is read and of the instructions executed in a new session.
-/

namespace SetLaws

theorem Simplification.plain_report (entry : Simplification) : entry.report.Plain := by
  have htitles : Json.Plain (.array (entry.titles.map .text)) := by
    refine .array fun v hv => ?_
    obtain ⟨title, -, rfl⟩ := List.mem_map.mp hv
    exact Json.plain_text title
  exact Json.plain_record (by simp [htitles])

theorem SimplificationTable.plain_report (table : SimplificationTable) : table.report.Plain := by
  refine Json.plain_record fun m hm => ?_
  obtain ⟨p, -, rfl⟩ := List.mem_map.mp hm
  exact p.2.plain_report

namespace CommandLine

/-- The text of a run: that of the file which is named, or else the standard input. -/
def Options.text (o : Options) (directory : Directory) (input : String) : Option String :=
  match o.program with
  | some path => directory.read path
  | none => some input

/-! ## The listing -/

/-- The entries of the named sets, in some order. -/
def Lists (env : Environment) (entries : List String) : Prop :=
  entries.Perm (env.sets.entries.map entryText)

theorem lists_listing (env : Environment) : Lists env (listing env) :=
  List.mergeSort_perm _ _

theorem textLines_of_notMem {text : String} (h : '\n' ∉ text.toList) : textLines text = [text] := by
  have hsplit : text.toList.splitOn '\n' = [text.toList] :=
    List.splitOnP_eq_singleton fun c hc => beq_eq_false_iff_ne.mpr fun heq => h (heq ▸ hc)
  rw [textLines, hsplit, List.map_singleton, String.ofList_toList]

theorem flatMap_textLines {entries : List String} (h : ∀ entry ∈ entries, '\n' ∉ entry.toList) :
    entries.flatMap textLines = entries := by
  rw [List.flatMap_congr fun entry hentry => textLines_of_notMem (h entry hentry)]
  exact List.flatMap_singleton' entries

theorem pairwise_listing (env : Environment) : (listing env).Pairwise (· ≤ ·) :=
  Text.pairwise_mergeSort id _

/-- Lines that are in order stay where they are. -/
theorem output_eq_shown {r : Result} (hsorted : r.listing.Pairwise (· ≤ ·))
    (h : ∀ entry ∈ r.listing, '\n' ∉ entry.toList) : r.output = r.shown := by
  rw [Result.output, Result.shown, flatMap_textLines h,
    List.mergeSort_of_pairwise (hsorted.imp decide_eq_true)]

/-! ## The verdicts -/

theorem mem_outcomes_iff {verdicts : List Verdict} {outcome : Outcome} :
    outcome ∈ outcomes verdicts ↔ .ok outcome ∈ verdicts := by
  rw [outcomes, List.mem_filterMap]
  constructor
  · rintro ⟨_ | found, hmem, hfound⟩
    · cases hfound
    · cases hfound
      exact hmem
  · intro hmem
    exact ⟨.ok outcome, hmem, rfl⟩

theorem allSucceed_iff (verdicts : List Verdict) :
    allSucceed verdicts = true ↔ ∀ v ∈ verdicts, ∃ outcome, v = .ok outcome := by
  rw [allSucceed, List.all_eq_true]
  refine forall₂_congr fun v _ => ?_
  cases v with
  | ok outcome => exact iff_of_true rfl ⟨outcome, rfl⟩
  | error faults => exact iff_of_false Bool.false_ne_true nofun

theorem exitCode_eq_zero_iff (source : String) (verdicts : List Verdict) :
    (exitCode source verdicts).toNat = 0 ↔ ∀ v ∈ verdicts, ∃ outcome, v = .ok outcome := by
  rw [exitCode, ← allSucceed_iff]
  cases hshown : verdicts.all (canShow source) with
  | false =>
    -- Only the faults of an instruction can be impossible to show.
    refine iff_of_false (Nat.succ_ne_zero _) fun hall => ?_
    obtain ⟨v, hv, hfails⟩ := List.all_eq_false.mp hshown
    obtain ⟨outcome, rfl⟩ := (allSucceed_iff verdicts).mp hall v hv
    exact hfails rfl
  | true => cases allSucceed verdicts <;> decide

/-! ## The result -/

/-- What a run comes to whose text holds no program. -/
structure Rejects (text : String) (before : Directory) (result : Result) (after : Directory) :
    Prop where
  shown : result.shown = ""
  unchanged : after = before
  /-- An empty text has no character at which the fault could be marked. -/
  exitCode : text ≠ "" → result.exitCode.toNat = 1

/-- The verdicts of the instructions in a new session, and the session after them. -/
def Options.perform (o : Options) (program : Program) : List Verdict × Session :=
  (Session.start (o.passes.getD Signature.defaultPasses)).executeAll program.instructions

/-- What the run of a program comes to. -/
structure Performs (options : Options) (text : String) (program : Program) (before : Directory)
    (result : Result) (after : Directory) : Prop where
  /-- If every fault can be marked in the source, the outcomes are shown in order, and behind them
  the environment as it is in the end, where that is asked for. -/
  shown : (∀ v ∈ (options.perform program).1, canShow (program.source.getD text) v = true) →
    ∃ listed, Lists (options.perform program).2.env listed ∧
      result.shown = lineText ((outcomes (options.perform program).1).map Outcome.display ++
        if options.verbose then (options.perform program).2.env.describeUniversal :: listed else [])
  exitCode : result.exitCode.toNat = 0 ↔
    ∀ v ∈ (options.perform program).1, ∃ outcome, v = .ok outcome
  unreported : options.noReport = true → after = before
  /-- The reports of the run are written one after the other at the same path. -/
  written : options.noReport = false →
    after = (((Session.start (options.passes.getD Signature.defaultPasses)).run
      program.instructions).2.reports.map Json.pretty).foldl
        (fun d report => d.write (options.report.getD Options.defaultReport) report) before
  report : options.noReport = false →
    before.CanWrite (options.report.getD Options.defaultReport) →
      after.read (options.report.getD Options.defaultReport) =
        some (options.perform program).2.table.report.pretty
  readBack : Json.read (options.perform program).2.table.report.pretty =
    some (options.perform program).2.table.report
  empty : (∀ outcome ∈ outcomes (options.perform program).1, outcome.simplification? = none) →
    (options.perform program).2.table.report.pretty = "\x7b\x7d"

theorem runProgram_shown {options : Options} {text : String} {program : Program}
    (h : ∀ v ∈ (options.perform program).1, canShow (program.source.getD text) v = true) :
    (runProgram options text program).shown =
      lineText ((outcomes (options.perform program).1).map Outcome.display ++
        if options.verbose then
          (options.perform program).2.env.describeUniversal ::
            listing (options.perform program).2.env
        else []) := by
  have hall : (options.perform program).1.all (canShow (program.source.getD text)) = true :=
    List.all_eq_true.mpr h
  have hshown := List.takeWhile_eq_self_iff.mpr h
  have hrun : (runProgram options text program).shown =
      lineText (((outcomes (options.perform program).1).map Outcome.display ++
        if options.verbose then [(options.perform program).2.env.describeUniversal] else []) ++
        if options.verbose then listing (options.perform program).2.env else []) := by
    unfold Options.perform at hall hshown ⊢
    simp only [Result.shown, runProgram, Options.maxPasses, Session.run_start, hall, hshown,
      Bool.and_true]
    rfl
  rw [hrun]
  cases options.verbose <;> simp

/-- Putting the lines of the listing in order makes no difference, unless a line break stands in
the name of a set or in a member. -/
theorem runProgram_output {options : Options} {text : String} {program : Program}
    (h : ∀ p ∈ (options.perform program).2.env.sets.entries, '\n' ∉ (entryText p).toList) :
    (runProgram options text program).output = (runProgram options text program).shown := by
  have hlisting : (runProgram options text program).listing = [] ∨
      (runProgram options text program).listing = listing (options.perform program).2.env := by
    unfold Options.perform
    simp only [runProgram, Options.maxPasses, Session.run_start]
    split
    · exact .inr rfl
    · exact .inl rfl
  rcases hlisting with hnone | hall
  · exact output_eq_shown (by rw [hnone]; exact .nil) (by rw [hnone]; nofun)
  · refine output_eq_shown (hall ▸ pairwise_listing _) fun entry hentry => ?_
    obtain ⟨p, hp, rfl⟩ := List.mem_map.mp ((lists_listing _).mem_iff.mp (hall ▸ hentry))
    exact h p hp

/-- A program is reported with the table that is there after its last instruction. -/
theorem runProgram_report (options : Options) (text : String) (program : Program) :
    (runProgram options text program).report =
      some (options.perform program).2.table.report.pretty := by
  have hlast := (Session.start options.maxPasses).getLast?_reports_run program.instructions
  show ((Session.start options.maxPasses).run program.instructions).2.reports.getLast?.map
    Json.pretty = _
  rw [hlast, Option.map_some, Session.run_start]
  rfl

theorem report_perform {options : Options} {program : Program}
    (h : ∀ outcome ∈ outcomes (options.perform program).1, outcome.simplification? = none) :
    (options.perform program).2.table.report.pretty = "\x7b\x7d" := by
  have htable : (options.perform program).2.table = .empty :=
    Session.table_executeAll fun outcome hmem => h outcome (mem_outcomes_iff.mpr hmem)
  rw [htable]
  rfl

/-- The directory after a run that comes to a result. -/
def Options.leave (o : Options) (before : Directory) (result : Result) : Directory :=
  match o.reportPath, result.report with
  | some path, some report => before.write path report
  | _, _ => before

theorem runIn_eq {args : List String} {options : Options} {before : Directory}
    {input text : String} (hargs : readArguments .default args = some (.run options))
    (htext : options.text before input = some text) :
    runIn before input args =
      (runText options text, options.leave before (runText options text)) := by
  unfold Options.text at htext
  rw [runIn, hargs, Options.leave]
  dsimp only
  cases hprogram : options.program with
  | none =>
    rw [hprogram] at htext
    obtain rfl : input = text := Option.some.inj htext
    cases options.reportPath with
    | none => rfl
    | some path =>
      dsimp only
      cases (runText options input).report <;> rfl
  | some path =>
    rw [hprogram] at htext
    dsimp only at htext ⊢
    rw [htext]
    cases options.reportPath with
    | none => rfl
    | some path =>
      dsimp only
      cases (runText options text).report <;> rfl

theorem leave_of_noReport {o : Options} (h : o.noReport = true) (before : Directory)
    (result : Result) : o.leave before result = before := by
  rw [Options.leave, Options.reportPath, if_pos h]

theorem leave_of_report {o : Options} (h : o.noReport = false) {result : Result} {report : String}
    (hreport : result.report = some report) (before : Directory) :
    o.leave before result = before.write (o.report.getD Options.defaultReport) report := by
  rw [Options.leave, Options.reportPath, h, hreport]
  rfl

theorem rejects_unreadable (options : Options) {text : String} (before : Directory) :
    Rejects text before (.silent (unreadable text))
      (options.leave before (.silent (unreadable text))) := by
  refine ⟨rfl, ?_, fun hne => ?_⟩
  · rw [Options.leave]
    split
    · next h => cases h
    · rfl
  · rw [unreadable, if_neg (by simpa using hne)]
    rfl

theorem performs_runProgram (options : Options) (text : String) (program : Program)
    (before : Directory) :
    Performs options text program before (runProgram options text program)
      (options.leave before (runProgram options text program)) where
  shown hshown := ⟨listing (options.perform program).2.env, lists_listing _,
    runProgram_shown hshown⟩
  exitCode := by
    have hverdicts : ((Session.start options.maxPasses).run program.instructions).1 =
        (options.perform program).1 := by
      rw [Session.run_start]
      rfl
    rw [← hverdicts]
    exact exitCode_eq_zero_iff _ _
  unreported h := leave_of_noReport h before _
  written h := by
    have hlast := (Session.start (options.passes.getD Signature.defaultPasses)).getLast?_reports_run
      program.instructions
    rw [leave_of_report h (runProgram_report options text program), Directory.foldl_write]
    rw [List.getLast?_map, hlast, Session.run_start]
    rfl
  report h hwrite := by
    rw [leave_of_report h (runProgram_report options text program), Directory.read_write hwrite]
  readBack := (options.perform program).2.table.plain_report.read_pretty
  empty := report_perform

end CommandLine
end SetLaws
