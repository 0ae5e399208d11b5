import SchemaLineage.Command.Directory
import SchemaLineage.Proofs.CommandReading

/-!
What a command puts out. A command other than a check looks for one text in the files that it reads,
and puts it out when nothing else can fail. Main statement: a run that fails prints nothing and
changes no file; one that succeeds puts out the whole text of its command in the one place that was
asked for. Directories that were made for a file may stay without it.
-/
namespace SchemaLineage

namespace Command

def output? : Command → Option String
  | generate _ _ _ output? _ => output?
  | stub _ output? _ => output?
  | _ => none

/-- The text that a command makes of the files it reads. -/
inductive Produces (files : String → Except FileError ByteArray) : Command → String → Prop
  | parse {input source body : String} {format : ModelFormat} {schema : Schema} :
    HasText files input source → schemaOf input source = .ok schema →
    formatSchema format schema = .ok body →
    Produces files (.parse input format) (Text.withFinalNewline body)
  | outline {input source : String} {kind? : Option String} {wanted? : Option NodeKind}
      {schema : Schema} :
    kind?.mapM NodeKind.ofText = .ok wanted? → HasText files input source →
    schemaOf input source = .ok schema →
    Produces files (.outline input kind?) (Text.unlines (outlineLines wanted? schema.outline))
  | generate {input source : String} {target : Target} {withDefaults : Bool}
      {output? config? : Option String} {settings : Settings} {schema : Schema} :
    HasSettings files config? settings → HasText files input source →
    schemaOf input source = .ok schema → schema.defects = [] →
    Produces files (.generate input target withDefaults output? config?)
      (stamp (flagged withDefaults settings) [⟨Path.displayName input, source⟩]
        (codeOf target (flagged withDefaults settings) schema))
  | merge {inputs : List String} {body : String} {format : DumpFormat}
      {loaded : List LoadedSnapshot} {merged : MergedSchema} :
    List.Forall₂ (HasSnapshot files) inputs loaded →
    SchemaLineage.merge (loaded.map (·.snapshot)) = .ok merged →
    formatMerged format merged = .ok body →
    Produces files (.merge inputs format) (Text.withFinalNewline body)
  | stub {inputs : List String} {output? config? : Option String} {settings : Settings}
      {loaded : List LoadedSnapshot} {merged : MergedSchema} :
    HasSettings files config? settings → List.Forall₂ (HasSnapshot files) inputs loaded →
    SchemaLineage.merge (loaded.map (·.snapshot)) = .ok merged →
    Produces files (.stub inputs output? config?)
      (stamp settings (loaded.map (·.inputText)) (Stub.text settings merged))

end Command

/-! ## Steps that put out what they found -/

/-- Lines said one by one are the text of all of them. -/
theorem Steps.forM_lines {m : Type → Type} [Monad m] (say : String → Steps m Unit)
    (hempty : pure () = say "")
    (happend : ∀ text rest, (say text >>= fun _ => say rest) = say (text ++ rest))
    (lines : List String) :
    (lines.forM fun line => say (line ++ "\n")) = say (Text.unlines lines) := by
  induction lines with
  | nil => exact hempty
  | cons line lines ih =>
    change (say (line ++ "\n") >>= fun _ => lines.forM _) = _
    rw [ih, happend, Text.unlines_cons]

section

variable {σ α : Type} [FileSystem σ]

/-- Steps that put out the text that stands in a relation to the files, or fail if there is none. -/
def Steps.Delivers (x : Steps (StateM (Session σ)) Unit) (output? : Option String)
    (R : σ → String → Prop) : Prop :=
  ∃ find : Steps (StateM (Session σ)) String, find.Finds R ∧ x = find >>= Command.putOut output?

theorem Steps.delivers_putOut (output? : Option String) (text : String) :
    Delivers (Command.putOut output? text : Steps (StateM (Session σ)) Unit) output?
      fun _ found => text = found := by
  have hpure := (finds_ofExcept (σ := σ) (.ok text)).congr
    (S := fun _ found => text = found) fun _ found => by rw [Except.ok.injEq]
  exact ⟨pure text, hpure, (pure_bind _ _).symm⟩

theorem Steps.Finds.delivers {x : Steps (StateM (Session σ)) α}
    {f : α → Steps (StateM (Session σ)) Unit} {output? : Option String} {R : σ → α → Prop}
    {S : α → σ → String → Prop} (hx : x.Finds R) (hf : ∀ a, (f a).Delivers output? (S a)) :
    (x >>= f).Delivers output? fun files text => ∃ a, R files a ∧ S a files text := by
  choose find hfind heq using hf
  refine ⟨x >>= find, hx.bind hfind, ?_⟩
  rw [bind_assoc, funext heq]

theorem Steps.Delivers.congr {x : Steps (StateM (Session σ)) Unit} {output? : Option String}
    {R S : σ → String → Prop} (hx : x.Delivers output? R)
    (h : ∀ files text, R files text ↔ S files text) : x.Delivers output? S := by
  obtain ⟨find, hfind, heq⟩ := hx
  exact ⟨find, hfind.congr h, heq⟩

end

namespace Command

open Steps

variable {σ : Type} [FileSystem σ]

theorem delivers_parse (input : String) (format : ModelFormat) :
    (runParse input format : Steps (StateM (Session σ)) Unit).Delivers none fun files =>
      Produces (FileSystem.read files) (.parse input format) := by
  -- The steps come first, as the relation that they deliver is read off them.
  have hsteps := (finds_readText (σ := σ) input).delivers fun source =>
    (finds_ofExcept (schemaOf input source)).delivers fun schema =>
    (finds_ofExcept ((formatSchema format schema).mapError .unprintable)).delivers fun body =>
    delivers_putOut none (Text.withFinalNewline body)
  refine hsteps.congr fun files text => ⟨?_, ?_⟩
  · rintro ⟨source, hsource, schema, hschema, body, hbody, rfl⟩
    exact .parse hsource hschema (Except.mapError_eq_ok.1 hbody)
  · intro h
    cases h with
    | parse hsource hschema hbody =>
      exact ⟨_, hsource, _, hschema, _, Except.mapError_eq_ok.2 hbody, rfl⟩

theorem forM_print (lines : List String) :
    (lines.forM fun line => (print (line ++ "\n") : Steps (StateM (Session σ)) Unit)) =
      putOut none (Text.unlines lines) := by
  refine forM_lines (putOut none) (funext fun s => ?_) (fun text rest => funext fun s => ?_) lines
  · have hstdout : s.stdout = s.stdout ++ "" := String.append_empty.symm
    exact congrArg (fun stdout => (Except.ok (), { s with stdout })) hstdout
  · have hstdout : s.stdout ++ text ++ rest = s.stdout ++ (text ++ rest) := String.append_assoc
    exact congrArg (fun stdout => (Except.ok (), { s with stdout })) hstdout

theorem delivers_outline (input : String) (kind? : Option String) :
    (runOutline input kind? : Steps (StateM (Session σ)) Unit).Delivers none fun files =>
      Produces (FileSystem.read files) (.outline input kind?) := by
  have hsteps := (finds_ofExcept (σ := σ)
      ((kind?.mapM NodeKind.ofText).mapError CommandError.unknownKind)).delivers fun wanted? =>
    (finds_readText input).delivers fun source =>
    (finds_ofExcept (schemaOf input source)).delivers fun schema =>
    delivers_putOut none (Text.unlines (outlineLines wanted? schema.outline))
  simp only [runOutline, forM_print]
  refine hsteps.congr fun files text => ⟨?_, ?_⟩
  · rintro ⟨wanted?, hwanted, source, hsource, schema, hschema, rfl⟩
    exact .outline (Except.mapError_eq_ok.1 hwanted) hsource hschema
  · intro h
    cases h with
    | outline hwanted hsource hschema =>
      exact ⟨_, Except.mapError_eq_ok.2 hwanted, _, hsource, _, hschema, rfl⟩

theorem delivers_generate (input : String) (target : Target) (withDefaults : Bool)
    (output? config? : Option String) :
    (runGenerate input target withDefaults output? config? :
      Steps (StateM (Session σ)) Unit).Delivers output? fun files =>
        Produces (FileSystem.read files) (.generate input target withDefaults output? config?) := by
  have hsteps := (finds_readSettings (σ := σ) config?).delivers fun settings =>
    (finds_readText input).delivers fun source =>
    (finds_ofExcept (schemaOf input source)).delivers fun schema =>
    (finds_ofExcept (validated input schema)).delivers fun _ =>
    delivers_putOut output? (stamp (flagged withDefaults settings)
      [⟨Path.displayName input, source⟩] (codeOf target (flagged withDefaults settings) schema))
  refine hsteps.congr fun files text => ⟨?_, ?_⟩
  · rintro ⟨settings, hsettings, source, hsource, schema, hschema, _, hvalid, rfl⟩
    exact .generate hsettings hsource hschema (validated_eq_ok.1 hvalid)
  · intro h
    cases h with
    | generate hsettings hsource hschema hvalid =>
      exact ⟨_, hsettings, _, hsource, _, hschema, (), validated_eq_ok.2 hvalid, rfl⟩

theorem delivers_merge (inputs : List String) (format : DumpFormat) :
    (runMerge inputs format : Steps (StateM (Session σ)) Unit).Delivers none fun files =>
      Produces (FileSystem.read files) (.merge inputs format) := by
  have hsteps := (Finds.mapM (finds_readSnapshot (σ := σ)) inputs).delivers fun loaded =>
    (finds_ofExcept ((SchemaLineage.merge (loaded.map (·.snapshot))).mapError
      .unmergeable)).delivers fun merged =>
    (finds_ofExcept ((formatMerged format merged).mapError .unprintable)).delivers fun body =>
    delivers_putOut none (Text.withFinalNewline body)
  refine hsteps.congr fun files text => ⟨?_, ?_⟩
  · rintro ⟨loaded, hloaded, merged, hmerged, body, hbody, rfl⟩
    exact .merge hloaded (Except.mapError_eq_ok.1 hmerged) (Except.mapError_eq_ok.1 hbody)
  · intro h
    cases h with
    | merge hloaded hmerged hbody =>
      exact ⟨_, hloaded, _, Except.mapError_eq_ok.2 hmerged, _, Except.mapError_eq_ok.2 hbody, rfl⟩

theorem delivers_stub (inputs : List String) (output? config? : Option String) :
    (runStub inputs output? config? : Steps (StateM (Session σ)) Unit).Delivers output?
      fun files => Produces (FileSystem.read files) (.stub inputs output? config?) := by
  have hsteps := (finds_readSettings (σ := σ) config?).delivers fun settings =>
    (Finds.mapM finds_readSnapshot inputs).delivers fun loaded =>
    (finds_ofExcept ((SchemaLineage.merge (loaded.map (·.snapshot))).mapError
      .unmergeable)).delivers fun merged =>
    delivers_putOut output? (stamp settings (loaded.map LoadedSnapshot.inputText)
      (Stub.text settings merged))
  refine hsteps.congr fun files text => ⟨?_, ?_⟩
  · rintro ⟨settings, hsettings, loaded, hloaded, merged, hmerged, rfl⟩
    exact .stub hsettings hloaded (Except.mapError_eq_ok.1 hmerged)
  · intro h
    cases h with
    | stub hsettings hloaded hmerged =>
      exact ⟨_, hsettings, _, hloaded, _, Except.mapError_eq_ok.2 hmerged, rfl⟩

theorem delivers_steps (c : Command) (h : ∀ inputs, c ≠ .check inputs) :
    (steps c : Steps (StateM (Session σ)) Unit).Delivers c.output? fun files =>
      Produces (FileSystem.read files) c := by
  cases c with
  | parse input format => exact delivers_parse input format
  | check inputs => exact absurd rfl (h inputs)
  | outline input kind? => exact delivers_outline input kind?
  | generate input target withDefaults output? config? =>
    exact delivers_generate input target withDefaults output? config?
  | merge inputs format => exact delivers_merge inputs format
  | stub inputs output? config? => exact delivers_stub inputs output? config?

end Command

/-! ## Writing the output -/

namespace FileSystem

variable {σ : Type} [FileSystem σ] {files after : σ} {path text : String}

def SameFiles (files after : σ) : Prop :=
  ∀ place, file? after place = file? files place

/-- A path holds a text, and every file elsewhere is as it was. -/
structure Written (files after : σ) (path text : String) : Prop where
  read : FileSystem.read after path = .ok text.toUTF8
  only : ∃ place, file? after place = some text.toUTF8 ∧
    ∀ other, other ≠ place → file? after other = file? files other

def withParent (files : σ) (path : String) : σ :=
  if Path.parent path = "" then files else (makeDirectories files (Path.parent path)).2

/-- The directories above a path cannot be made, or the file cannot be written. -/
inductive Refuses (files : σ) (path text : String) : Prop
  | directory (e : FileError) : Path.parent path ≠ "" →
    (makeDirectories files (Path.parent path)).1 = .error e → Refuses files path text
  | file (e : FileError) : (write (withParent files path) path text).1 = .error e →
    Refuses files path text

theorem sameFiles_withParent (files : σ) (path : String) :
    SameFiles files (withParent files path) := by
  intro place
  unfold withParent
  split
  · rfl
  · exact file?_makeDirectories files _ place

theorem SameFiles.trans {later : σ} (h : SameFiles files after) (h' : SameFiles after later) :
    SameFiles files later :=
  fun place => (h' place).trans (h place)

theorem SameFiles.written {later : σ} (h : SameFiles files after)
    (h' : Written after later path text) : Written files later path text := by
  obtain ⟨place, hplace, hother⟩ := h'.only
  exact ⟨h'.read, place, hplace, fun other hne => (hother other hne).trans (h other)⟩

theorem written_write (h : (write files path text).1 = .ok ()) :
    Written files (write files path text).2 path text :=
  ⟨read_write_of_ok files path text h, file?_write_of_ok files path text h⟩

end FileSystem

namespace Command

open Steps FileSystem

variable {σ : Type} [FileSystem σ]

theorem run_putOut_none (text : String) (s : Session σ) :
    (putOut none text : Steps (StateM (Session σ)) Unit).run.run s =
      (.ok (), { s with stdout := s.stdout ++ text }) :=
  rfl

theorem run_makeDirectories (path : String) (s : Session σ) :
    (Host.makeDirectories path : StateM (Session σ) _).run s =
      ((makeDirectories s.files path).1, { s with files := (makeDirectories s.files path).2 }) :=
  rfl

theorem run_write (path text : String) (s : Session σ) :
    (Host.write path text : StateM (Session σ) _).run s =
      ((write s.files path text).1, { s with files := (write s.files path text).2 }) :=
  rfl

/-- The files that are left are given by an equation, so that they can be kept as a name. -/
theorem run_makeParent (path : String) (s : Session σ) :
    ∃ made ready, (makeParent path : Steps (StateM (Session σ)) Unit).run.run s =
        (made, { s with files := ready }) ∧ ready = withParent s.files path ∧
      ∀ e, made = .error e → ∀ text, Refuses s.files path text := by
  by_cases hparent : Path.parent path = ""
  · rw [makeParent, if_pos hparent, withParent, if_pos hparent]
    exact ⟨.ok (), s.files, rfl, rfl, fun e he => by cases he⟩
  · have hmake := run_request (.directory (Path.parent path))
      (run_makeDirectories (Path.parent path) s)
    have hrefused : ∀ e, (makeDirectories s.files (Path.parent path)).1.mapError
        (CommandError.directory (Path.parent path)) = .error e →
          ∀ text, Refuses s.files path text := by
      intro e he text
      obtain ⟨cause, hcause⟩ := Except.exists_error_of_mapError he
      exact .directory cause hparent hcause
    rw [makeParent, if_neg hparent, withParent, if_neg hparent]
    exact ⟨_, _, hmake, rfl, hrefused⟩

/-- A text that is put out as a file either stands there or changes nothing. -/
theorem run_putOut_some (path text : String) (s : Session σ) :
    (∃ e after, (putOut (some path) text : Steps (StateM (Session σ)) Unit).run.run s =
        (.error e, { s with files := after }) ∧
      SameFiles s.files after ∧ Refuses s.files path text) ∨
    ∃ after, (putOut (some path) text : Steps (StateM (Session σ)) Unit).run.run s =
        (.ok (), ⟨after, s.stdout ++ ("Wrote '" ++ path ++ "'.\n"), s.stderr⟩) ∧
      Written s.files after path text := by
  obtain ⟨made, ready, hmade, hready, hrefused⟩ := run_makeParent path s
  have hsame : SameFiles s.files ready := hready ▸ sameFiles_withParent s.files path
  cases made with
  | error e => exact .inl ⟨e, ready, run_bind_of_error hmade, hsame, hrefused e rfl text⟩
  | ok u =>
    have hwrite := run_request (.unwritable path)
      (run_write path text { s with files := ready })
    cases hanswer : (write ready path text).1 with
    | error e =>
      have hkept : SameFiles ready (write ready path text).2 :=
        fun place => file?_write_of_error ready path text e place hanswer
      rw [hanswer] at hwrite
      exact .inl ⟨.unwritable path e, (write ready path text).2,
        (run_bind_of_ok hmade).trans (run_bind_of_error hwrite), hsame.trans hkept,
        .file e (hready ▸ hanswer)⟩
    | ok u =>
      rw [hanswer] at hwrite
      exact .inr ⟨(write ready path text).2,
        (run_bind_of_ok hmade).trans (run_bind_of_ok hwrite),
        hsame.written (written_write hanswer)⟩

theorem runOn_of_ok {c : Command} {files : σ} {s : Session σ}
    (h : (steps c : Steps (StateM (Session σ)) Unit).run.run ⟨files, "", ""⟩ = (.ok (), s)) :
    c.runOn files = (⟨0, s.stdout, s.stderr⟩, s.files) := by
  rw [runOn, run, StateT.run_bind, h]
  rfl

theorem runOn_of_error {c : Command} {files : σ} {e : CommandError} {s : Session σ}
    (h : (steps c : Steps (StateM (Session σ)) Unit).run.run ⟨files, "", ""⟩ = (.error e, s)) :
    c.runOn files = (⟨1, s.stdout, s.stderr ++ errorLine e⟩, s.files) := by
  rw [runOn, run, StateT.run_bind, h]
  rfl

end Command

open FileSystem

/-- A command other than a check either fails, prints nothing and changes no file, as there is no
text to put out or the file system refuses the file for it; or it succeeds and puts out its one
whole text, on the standard output or as the one file that changes. -/
theorem output_all_or_nothing {σ : Type} [FileSystem σ] {files after : σ}
    {arguments : List String} {i : Invocation} {outcome : Outcome}
    (hi : Invocation.ofArguments? arguments = some i) (hcheck : ∀ inputs, i.command ≠ .check inputs)
    (hrun : Invocation.runOn files arguments = (outcome, after)) :
    (outcome.code = 1 ∧ outcome.stdout = "" ∧ SameFiles files after ∧
      ∀ text, i.command.Produces (FileSystem.read files) text →
        ∃ path, i.command.output? = some path ∧ Refuses files path text) ∨
    (outcome.code = 0 ∧ ∃ text,
      (∀ other, i.command.Produces (FileSystem.read files) other ↔ text = other) ∧
        match i.command.output? with
        | none => outcome.stdout = text ∧ after = files
        | some path => outcome.stdout = "Wrote '" ++ path ++ "'.\n" ∧
          Written files after path text) := by
  rw [Invocation.runOn, hi] at hrun
  obtain ⟨find, hfind, hsteps⟩ := Command.delivers_steps (σ := σ) i.command hcheck
  obtain ⟨found, hfound, hproduces⟩ := hfind ⟨files, "", ""⟩
  cases found with
  | error e =>
    have hfailed := Command.runOn_of_error (hsteps ▸ Steps.run_bind_of_error hfound)
    obtain ⟨rfl, rfl⟩ := Prod.mk.inj (hrun.symm.trans hfailed)
    exact .inl ⟨rfl, rfl, fun _ => rfl, fun text htext => by cases (hproduces text).1 htext⟩
  | ok text =>
    have honly : ∀ other, i.command.Produces (FileSystem.read files) other ↔ text = other :=
      fun other => (hproduces other).trans (by rw [Except.ok.injEq])
    have hput := (congrArg (fun x => x.run.run ⟨files, "", ""⟩) hsteps).trans
      (Steps.run_bind_of_ok hfound)
    cases houtput : i.command.output? with
    | none =>
      rw [houtput, Command.run_putOut_none] at hput
      obtain ⟨rfl, rfl⟩ := Prod.mk.inj (hrun.symm.trans (Command.runOn_of_ok hput))
      exact .inr ⟨rfl, text, honly, String.empty_append, rfl⟩
    | some path =>
      rw [houtput] at hput
      rcases Command.run_putOut_some path text ⟨files, "", ""⟩ with
        ⟨e, kept, hfailed, hsame, hrefuses⟩ | ⟨written, hdone, hwritten⟩
      · have hfailed := Command.runOn_of_error (hput.trans hfailed)
        obtain ⟨rfl, rfl⟩ := Prod.mk.inj (hrun.symm.trans hfailed)
        refine .inl ⟨rfl, rfl, hsame, fun other hother => ⟨path, rfl, ?_⟩⟩
        exact (honly other).1 hother ▸ hrefuses
      · have hdone := Command.runOn_of_ok (hput.trans hdone)
        obtain ⟨rfl, rfl⟩ := Prod.mk.inj (hrun.symm.trans hdone)
        exact .inr ⟨rfl, text, honly, String.empty_append, hwritten⟩

def lightDirectory : Directory :=
  .ofEntries [("light.asdl", .file "module Light { signal = Red | Green }".toUTF8)]

def lightCommand (output : String) : Command :=
  .generate "light.asdl" .graphql false (some output) none

def lightArguments (output : String) : List String :=
  ["generate", "--target=graphql", "light.asdl", "--output", output]

/-- Code is written into a new directory, but not below a file. -/
theorem output_lightDirectory :
    (∃ text, (lightCommand "out/light.graphql").Produces lightDirectory.read text ∧
      FileSystem.Written lightDirectory
        (Invocation.runOn lightDirectory (lightArguments "out/light.graphql")).2
        "out/light.graphql" text) ∧
      FileSystem.SameFiles lightDirectory
        (Invocation.runOn lightDirectory (lightArguments "light.asdl/code")).2 := by
  have hwritten : Invocation.ofArguments? (lightArguments "out/light.graphql") =
      some ⟨false, lightCommand "out/light.graphql"⟩ := by decide +kernel
  have hrefused : Invocation.ofArguments? (lightArguments "light.asdl/code") =
      some ⟨false, lightCommand "light.asdl/code"⟩ := by decide +kernel
  constructor
  · have hrun := (Prod.eta (Invocation.runOn lightDirectory
      (lightArguments "out/light.graphql"))).symm
    rcases output_all_or_nothing hwritten (fun _ h => by cases h) hrun with
      ⟨hcode, -⟩ | ⟨-, text, hproduces, -, h⟩
    · exact absurd hcode (by decide +kernel)
    · exact ⟨text, (hproduces text).2 rfl, h⟩
  · have hrun := (Prod.eta (Invocation.runOn lightDirectory
      (lightArguments "light.asdl/code"))).symm
    rcases output_all_or_nothing hrefused (fun _ h => by cases h) hrun with
      ⟨-, -, hsame, -⟩ | ⟨hcode, -⟩
    · exact hsame
    · exact absurd hcode (by decide +kernel)

end SchemaLineage
