import SchemaLineage.Command.Directory
import SchemaLineage.Proofs.CommandOutput

/-!
What a check says. Each file has a verdict that is found in what its path answers and nowhere else.
Main statement: a check prints the lines of its verdicts in the order of its files, whatever the
mix of good and bad ones, then one line that counts the bad ones; it leaves every file as it was.
-/
namespace SchemaLineage

/-- What a check says of one file: a line for the standard output, or lines for the errors. -/
inductive Verdict where
  | good (line : String)
  | bad (lines : List String)
  deriving DecidableEq

namespace Verdict

def isGood : Verdict → Bool
  | good _ => true
  | bad _ => false

def outLines : Verdict → List String
  | good line => [line]
  | bad _ => []

def errLines : Verdict → List String
  | good _ => []
  | bad lines => lines

def outText (verdicts : List Verdict) : String :=
  Text.unlines (verdicts.flatMap outLines)

def errText (verdicts : List Verdict) : String :=
  Text.unlines (verdicts.flatMap errLines)

def overall (verdicts : List Verdict) : Verdict :=
  if verdicts.all isGood then
    good ("Validated " ++ toString verdicts.length ++ " schema file(s).")
  else
    bad ["error: " ++ (toString (verdicts.countP (!·.isGood)) ++ " of " ++
      toString verdicts.length ++ " schema file(s) failed validation")]

theorem outText_append (verdicts later : List Verdict) :
    outText (verdicts ++ later) = outText verdicts ++ outText later := by
  rw [outText, List.flatMap_append, Text.unlines_append, outText, outText]

theorem errText_append (verdicts later : List Verdict) :
    errText (verdicts ++ later) = errText verdicts ++ errText later := by
  rw [errText, List.flatMap_append, Text.unlines_append, errText, errText]

theorem overall_eq_good {verdicts : List Verdict} (h : verdicts.all isGood = true) :
    overall verdicts = good ("Validated " ++ toString verdicts.length ++ " schema file(s).") :=
  if_pos h

theorem overall_eq_bad {verdicts : List Verdict} (h : ¬ verdicts.all isGood = true) :
    overall verdicts = bad ["error: " ++ (CommandError.failedChecks
      (verdicts.countP (!·.isGood)) verdicts.length).message] :=
  if_neg h

end Verdict

/-- What a path answers is the text of a schema without defects. -/
def Passes (path : String) (answer : Except FileError ByteArray) : Prop :=
  ∃ bytes source schema, answer = .ok bytes ∧ String.fromUTF8? bytes = some source ∧
    Schema.ofText (Path.displayName path) source = .ok schema ∧ schema.defects = []

/-- The verdict on what a path answers. Reading and parsing stop at their one error; the defects of
a schema are all told, in the order in which they are found. -/
inductive Judged (path : String) : Except FileError ByteArray → Verdict → Prop
  | unreadable (e : FileError) :
    Judged path (.error e) (.bad ["Failed to read '" ++ path ++ "': " ++ e.message])
  | notText {bytes : ByteArray} : String.fromUTF8? bytes = none →
    Judged path (.ok bytes)
      (.bad ["Failed to read '" ++ path ++ "': " ++ FileError.invalidText.message])
  | malformed {bytes : ByteArray} {source : String} {e : SyntaxError} :
    String.fromUTF8? bytes = some source →
    Schema.ofText (Path.displayName path) source = .error e →
    Judged path (.ok bytes) (.bad [e.message])
  | invalid {bytes : ByteArray} {source : String} {schema : Schema} :
    String.fromUTF8? bytes = some source →
    Schema.ofText (Path.displayName path) source = .ok schema → schema.defects ≠ [] →
    Judged path (.ok bytes) (.bad (schema.defects.map fun d => path ++ ": " ++ d.message))
  | good {bytes : ByteArray} {source : String} {schema : Schema} :
    String.fromUTF8? bytes = some source →
    Schema.ofText (Path.displayName path) source = .ok schema → schema.defects = [] →
    Judged path (.ok bytes)
      (.good (path ++ ": ok (" ++ toString schema.types.length ++ " type(s))"))

def judge (path : String) : (answer : Except FileError ByteArray) →
    { verdict : Verdict // Judged path answer verdict }
  | .error e => ⟨_, .unreadable e⟩
  | .ok bytes =>
    match htext : String.fromUTF8? bytes with
    | none => ⟨_, .notText htext⟩
    | some source =>
      match hschema : Schema.ofText (Path.displayName path) source with
      | .error _ => ⟨_, .malformed htext hschema⟩
      | .ok schema =>
        if hdefects : schema.defects = [] then ⟨_, .good htext hschema hdefects⟩
        else ⟨_, .invalid htext hschema hdefects⟩

def verdictsOn (files : String → Except FileError ByteArray) (inputs : List String) :
    List Verdict :=
  inputs.map fun path => (judge path (files path)).val

theorem Judged.isGood_iff {path : String} {answer : Except FileError ByteArray} {verdict : Verdict}
    (h : Judged path answer verdict) : verdict.isGood = true ↔ Passes path answer := by
  cases h with
  | unreadable e => simp [Verdict.isGood, Passes]
  | notText htext => simp [Verdict.isGood, Passes, htext]
  | malformed htext hschema => simp [Verdict.isGood, Passes, htext, hschema]
  | invalid htext hschema hdefects => simp [Verdict.isGood, Passes, htext, hschema, hdefects]
  | good htext hschema hdefects => exact iff_of_true rfl ⟨_, _, _, rfl, htext, hschema, hdefects⟩

theorem all_isGood_verdictsOn (files : String → Except FileError ByteArray)
    (inputs : List String) :
    (verdictsOn files inputs).all Verdict.isGood ↔
      ∀ path ∈ inputs, Passes path (files path) := by
  rw [verdictsOn, List.all_map, List.all_eq_true]
  exact forall₂_congr fun path _ => (judge path (files path)).property.isGood_iff

/-! ## One file -/

namespace Session

variable {σ : Type} (s : Session σ)

def tell (verdicts : List Verdict) : Session σ :=
  { s with
    stdout := s.stdout ++ Verdict.outText verdicts
    stderr := s.stderr ++ Verdict.errText verdicts }

theorem tell_nil : s.tell [] = s :=
  congrArg₂ (fun stdout stderr => { s with stdout, stderr }) String.append_empty
    String.append_empty

theorem tell_tell (verdicts later : List Verdict) :
    (s.tell verdicts).tell later = s.tell (verdicts ++ later) := by
  simp only [tell, Verdict.outText_append, Verdict.errText_append, String.append_assoc]

theorem tell_good (line : String) :
    s.tell [.good line] = { s with stdout := s.stdout ++ (line ++ "\n") } := by
  have hout : Verdict.outText [.good line] = line ++ "\n" := by
    rw [Verdict.outText, List.flatMap_singleton, Verdict.outLines, Text.unlines_cons,
      Text.unlines_nil, String.append_empty]
  rw [tell, hout]
  exact congrArg (fun stderr => { s with stdout := s.stdout ++ (line ++ "\n"), stderr })
    String.append_empty

theorem tell_bad (lines : List String) :
    s.tell [.bad lines] = { s with stderr := s.stderr ++ Text.unlines lines } := by
  have herr : Verdict.errText [.bad lines] = Text.unlines lines := by
    rw [Verdict.errText, List.flatMap_singleton, Verdict.errLines]
  rw [tell, herr]
  exact congrArg (fun stdout => { s with stdout, stderr := s.stderr ++ Text.unlines lines })
    String.append_empty

end Session

namespace Steps

variable {σ α β : Type} {x : Steps (StateM (Session σ)) α} {found : Except CommandError α}
  {s s' : Session σ}

theorem run_bind_ofExcept {f : α → Except CommandError β} (h : x.run.run s = (found, s')) :
    (x >>= fun a => ofExcept (f a)).run.run s = (found >>= f, s') := by
  cases found with
  | error e => exact run_bind_of_error h
  | ok a => exact run_bind_of_ok h

theorem run_outcome (h : x.run.run s = (found, s')) :
    (outcome x).run.run s = (.ok found, s') := by
  rw [outcome, ExceptT.run_lift, StateT.run_map, h]
  rfl

end Steps

namespace Command

open Steps

variable {σ : Type} [FileSystem σ]

def schemaIn (path : String) (answer : Except FileError ByteArray) : Except CommandError Schema :=
  answer.mapError (.unreadable path) >>= textOf path >>= schemaOf path

theorem run_read (path : String) (s : Session σ) :
    (Host.read path : StateM (Session σ) _).run s = (FileSystem.read s.files path, s) :=
  rfl

/-- A file that is refused does not end the check. -/
theorem finds_outcome (path : String) :
    Finds (outcome (readText path >>= fun source => .ofExcept (schemaOf path source)) :
        Steps (StateM (Session σ)) (Except CommandError Schema))
      fun files found => schemaIn path (FileSystem.read files path) = found := by
  intro s
  have hrequest := run_request (.unreadable path) (run_read path s)
  refine ⟨.ok _, run_outcome (run_bind_ofExcept (run_bind_ofExcept hrequest)), fun found => ?_⟩
  rw [Except.ok.injEq]
  rfl

theorem forM_printError (lines : List String) :
    (lines.forM fun line => (printError (line ++ "\n") : Steps (StateM (Session σ)) Unit)) =
      printError (Text.unlines lines) := by
  refine forM_lines printError (funext fun s => ?_) (fun text rest => funext fun s => ?_) lines
  · have hstderr : s.stderr = s.stderr ++ "" := String.append_empty.symm
    exact congrArg (fun stderr => (Except.ok (), { s with stderr })) hstderr
  · have hstderr : s.stderr ++ text ++ rest = s.stderr ++ (text ++ rest) := String.append_assoc
    exact congrArg (fun stderr => (Except.ok (), { s with stderr })) hstderr

theorem schemaIn_of_text {path source : String} {bytes : ByteArray}
    (h : String.fromUTF8? bytes = some source) :
    schemaIn path (.ok bytes) = schemaOf path source := by
  change textOf path bytes >>= schemaOf path = _
  rw [textOf_eq_ok.2 h]
  rfl

theorem schemaIn_of_not_text {path : String} {bytes : ByteArray}
    (h : String.fromUTF8? bytes = none) :
    schemaIn path (.ok bytes) = .error (.unreadable path .invalidText) := by
  change textOf path bytes >>= schemaOf path = _
  rw [textOf, h]
  rfl

theorem run_report_error (path : String) (e : CommandError) (s : Session σ) :
    (report path (.error e) : Steps (StateM (Session σ)) Bool).run.run s =
      (.ok false, s.tell [.bad [e.message]]) := by
  rw [Session.tell_bad, Text.unlines_cons, Text.unlines_nil, String.append_empty]
  rfl

theorem run_report_defects (path : String) {schema : Schema} (h : schema.defects ≠ [])
    (s : Session σ) :
    (report path (.ok schema) : Steps (StateM (Session σ)) Bool).run.run s =
      (.ok false, s.tell [.bad (schema.defects.map fun d => path ++ ": " ++ d.message)]) := by
  have hdefects : ¬ schema.defects.isEmpty := by rwa [List.isEmpty_iff]
  have hlines := forM_printError (σ := σ) (schema.defects.map fun d => path ++ ": " ++ d.message)
  rw [List.forM_eq_forM, List.forM_map] at hlines
  rw [report, if_neg hdefects, List.forM_eq_forM, hlines, Session.tell_bad]
  rfl

theorem run_report_good (path : String) {schema : Schema} (h : schema.defects = [])
    (s : Session σ) :
    (report path (.ok schema) : Steps (StateM (Session σ)) Bool).run.run s = (.ok true,
      s.tell [.good (path ++ ": ok (" ++ toString schema.types.length ++ " type(s))")]) := by
  have hdefects : schema.defects.isEmpty := by rwa [List.isEmpty_iff]
  have hline : " type(s))\n" = " type(s))" ++ "\n" := rfl
  rw [report, if_pos hdefects, Session.tell_good, hline, ← String.append_assoc]
  rfl

/-- One file is reported by its verdict. -/
theorem run_report {path : String} {answer : Except FileError ByteArray} {verdict : Verdict}
    (h : Judged path answer verdict) (s : Session σ) :
    (report path (schemaIn path answer) : Steps (StateM (Session σ)) Bool).run.run s =
      (.ok verdict.isGood, s.tell [verdict]) := by
  cases h with
  | unreadable e => exact run_report_error path (.unreadable path e) s
  | notText htext =>
    rw [schemaIn_of_not_text htext]
    exact run_report_error path (.unreadable path .invalidText) s
  | malformed htext hschema =>
    rw [schemaIn_of_text htext, schemaOf, hschema]
    exact run_report_error path (.malformed _) s
  | invalid htext hschema hdefects =>
    rw [schemaIn_of_text htext, schemaOf, hschema]
    exact run_report_defects path hdefects s
  | good htext hschema hdefects =>
    rw [schemaIn_of_text htext, schemaOf, hschema]
    exact run_report_good path hdefects s

/-! ## All files -/

/-- Files are reported in turn, each by its own verdict. -/
theorem run_reports (files : String → Except FileError ByteArray) (inputs : List String)
    (s : Session σ) :
    ((inputs.zip (inputs.map fun path => schemaIn path (files path))).mapM
        fun (path, found) => (report path found : Steps (StateM (Session σ)) Bool)).run.run s =
      (.ok ((verdictsOn files inputs).map Verdict.isGood), s.tell (verdictsOn files inputs)) := by
  induction inputs generalizing s with
  | nil => exact congrArg (Prod.mk _) s.tell_nil.symm
  | cons path inputs ih =>
    have hreport := run_report (judge path (files path)).property s
    have hreports := ih (s.tell [(judge path (files path)).val])
    rw [List.map_cons, List.zip_cons_cons, List.mapM_cons, run_bind_of_ok hreport,
      run_bind_of_ok hreports, Session.tell_tell]
    rfl

theorem count_map_isGood (verdicts : List Verdict) :
    (verdicts.map Verdict.isGood).count false = verdicts.countP (!·.isGood) := by
  rw [List.count_eq_countP, List.countP_map]
  refine List.countP_congr fun v _ => ?_
  simp

/-- The files are told after all of them were read; what is left is the verdict on all. -/
theorem run_runCheck (inputs : List String) {s : Session σ} {verdicts : List Verdict}
    (h : verdictsOn (FileSystem.read s.files) inputs = verdicts) :
    (runCheck inputs : Steps (StateM (Session σ)) Unit).run.run s =
      if verdicts.all Verdict.isGood then (.ok (), (s.tell verdicts).tell [.overall verdicts])
      else (.error (.failedChecks (verdicts.countP (!·.isGood)) verdicts.length),
        s.tell verdicts) := by
  obtain ⟨found, hread, hfound⟩ := Finds.mapM (finds_outcome (σ := σ)) inputs s
  have hall : found = .ok (inputs.map fun path => schemaIn path (FileSystem.read s.files path)) :=
    (hfound _).1 (List.forall₂_map_right_iff.2 (List.forall₂_same.2 fun _ _ => rfl))
  have hlength : inputs.length = verdicts.length := by rw [← h, verdictsOn, List.length_map]
  subst hall
  rw [runCheck, run_bind_of_ok hread, run_bind_of_ok (run_reports _ inputs s), count_map_isGood,
    h, hlength]
  split
  · rename_i hgood
    have hnone : ¬ verdicts.countP (!·.isGood) > 0 := by simpa using hgood
    have hline : " schema file(s).\n" = " schema file(s)." ++ "\n" := rfl
    rw [if_neg hnone, Verdict.overall_eq_good hgood, Session.tell_good, hline,
      ← String.append_assoc]
    rfl
  · rename_i hbad
    have hsome : verdicts.countP (!·.isGood) > 0 := by
      simpa [List.countP_pos_iff] using hbad
    rw [if_pos hsome]
    rfl

/-- Whether it ends well or not, a check tells its verdicts and the one on all of them. -/
theorem runOn_check {files : σ} {inputs : List String} {verdicts : List Verdict} {s : Session σ}
    (h : verdictsOn (FileSystem.read files) inputs = verdicts)
    (hs : Session.tell ⟨files, "", ""⟩ (verdicts ++ [Verdict.overall verdicts]) = s) :
    (check inputs).runOn files =
      (⟨if verdicts.all Verdict.isGood then 0 else 1, s.stdout, s.stderr⟩, s.files) := by
  have hrun : (steps (check inputs) : Steps (StateM (Session σ)) Unit).run.run
      ⟨files, "", ""⟩ = _ := run_runCheck inputs h
  rw [← Session.tell_tell] at hs
  split at hrun
  · rename_i hgood
    rw [runOn_of_ok hrun, if_pos hgood, hs]
  · rename_i hbad
    rw [Verdict.overall_eq_bad hbad, Session.tell_bad, Text.unlines_cons, Text.unlines_nil,
      String.append_empty] at hs
    rw [runOn_of_error hrun, if_neg hbad, ← hs]
    rfl

end Command

/-- Names of files are told from options by the two dashes in front of them. -/
theorem Invocation.ofArguments?_check {inputs : List String} (hinputs : inputs ≠ [])
    (hnames : "" ∉ inputs) :
    ofArguments? ("check" :: "--" :: inputs) = some ⟨false, .check inputs⟩ := by
  have hsort : Arguments.sort? ⟨["verbose"], []⟩ ("--" :: inputs) = some ⟨inputs, [], []⟩ := by
    rw [Arguments.sort?, if_pos rfl]
  have hfiles : Arguments.Words.someFiles? ⟨inputs, [], []⟩ = some inputs := by
    simp [Arguments.Words.someFiles?, hinputs, hnames]
  have hcommand : Arguments.command? "check" ("--" :: inputs) = some ⟨false, .check inputs⟩ := by
    rw [Arguments.command?, if_neg (by decide), if_pos rfl, hsort]
    change (Arguments.Words.someFiles? _).bind _ = _
    rw [hfiles]
    rfl
  exact hcommand

/-- A check judges each file by its own bytes. It succeeds if all files pass; it prints the lines of
the good files and those of the bad ones in the order of the arguments, and in the end how many
files are good or how many are bad. -/
theorem check_judges_each_file {σ : Type} [FileSystem σ] {files after : σ}
    {arguments inputs : List String} {i : Invocation} {outcome : Outcome}
    {verdicts : List Verdict}
    (hi : Invocation.ofArguments? arguments = some i) (hcheck : i.command = .check inputs)
    (hrun : Invocation.runOn files arguments = (outcome, after))
    (hverdicts : verdictsOn (FileSystem.read files) inputs = verdicts) :
    after = files ∧
      (outcome.code = 0 ↔ ∀ path ∈ inputs, Passes path (FileSystem.read files path)) ∧
      outcome.stdout = Verdict.outText (verdicts ++ [.overall verdicts]) ∧
      outcome.stderr = Verdict.errText (verdicts ++ [.overall verdicts]) := by
  rw [Invocation.runOn, hi] at hrun
  have hcommand : i.command.runOn files = (outcome, after) := hrun
  rw [hcheck, Command.runOn_check hverdicts rfl] at hcommand
  obtain ⟨rfl, rfl⟩ := Prod.mk.inj hcommand
  refine ⟨rfl, ?_, String.empty_append, String.empty_append⟩
  rw [← all_isGood_verdictsOn, hverdicts]
  by_cases hgood : verdicts.all Verdict.isGood
  · exact iff_of_true (if_pos hgood) hgood
  · have hcode : (1 : UInt32) ≠ 0 := by decide
    rw [if_neg hgood]
    exact iff_of_false hcode hgood

def mixedDirectory : Directory :=
  .ofEntries [("light.asdl", .file "module Light { signal = Red | Green }".toUTF8),
    ("twice.asdl", .file "module Twice { a = A | A b = (int x, int x) }".toUTF8),
    ("open.asdl", .file "module Open \x7b".toUTF8),
    ("bytes.asdl", .file ⟨#[0xff]⟩)]

def mixedFiles : List String :=
  ["light.asdl", "twice.asdl", "bytes.asdl", "light.asdl", "open.asdl", "twice.asdl", "none.asdl"]

def mixedVerdicts : List Verdict :=
  [.good "light.asdl: ok (1 type(s))",
    .bad ["twice.asdl: duplicate constructor A in sum a", "twice.asdl: duplicate field x in b"],
    .bad ["Failed to read 'bytes.asdl': stream did not contain valid UTF-8"],
    .good "light.asdl: ok (1 type(s))",
    .bad ["open.asdl:1:14: expected `\x7d`, found end of input"],
    .bad ["twice.asdl: duplicate constructor A in sum a", "twice.asdl: duplicate field x in b"],
    .bad ["Failed to read 'none.asdl': No such file or directory (os error 2)"]]

/-- Files of all kinds are told in the order of their names, and counted as often as they are
named. -/
theorem verdicts_mixedDirectory :
    ∃ outcome, Invocation.runOn mixedDirectory ("check" :: "--" :: mixedFiles) =
        (outcome, mixedDirectory) ∧ outcome.code ≠ 0 ∧
      outcome.stdout = Verdict.outText mixedVerdicts ∧
      outcome.stderr = Verdict.errText (mixedVerdicts ++
        [.bad ["error: 5 of 7 schema file(s) failed validation"]]) := by
  have hi : Invocation.ofArguments? ("check" :: "--" :: mixedFiles) = _ :=
    Invocation.ofArguments?_check (by decide) (by decide)
  have hrun := (Prod.eta (Invocation.runOn mixedDirectory ("check" :: "--" :: mixedFiles))).symm
  have hverdicts : verdictsOn mixedDirectory.read mixedFiles = mixedVerdicts := by decide +kernel
  have hoverall : Verdict.overall mixedVerdicts =
      .bad ["error: 5 of 7 schema file(s) failed validation"] := by decide +kernel
  obtain ⟨hafter, hcode, hout, herr⟩ := check_judges_each_file hi rfl hrun hverdicts
  refine ⟨_, hrun.trans (congrArg (Prod.mk _) hafter), fun h => ?_, ?_, hoverall ▸ herr⟩
  · have hall := (all_isGood_verdictsOn _ _).2 (hcode.1 h)
    exact absurd (hverdicts ▸ hall) (by decide)
  · rw [hout, hoverall]
    rfl

end SchemaLineage
