import SchemaLineage.Command.Execution

/-!
Commands on a file system. A session holds the files and what was printed so far; a run starts with
nothing printed, and answers its outcome and the files that it leaves.
-/
namespace SchemaLineage

/-- Files under paths. What is asked for may be refused for any reason; making directories changes
no file, and neither does a write that fails. -/
class FileSystem (σ : Type) where
  /-- Where a file can stand. -/
  Place : Type
  /-- The bytes of the file at a place. -/
  file? : σ → Place → Option ByteArray
  read : σ → String → Except FileError ByteArray
  makeDirectories : σ → String → Except FileError Unit × σ
  write : σ → String → String → Except FileError Unit × σ
  file?_makeDirectories : ∀ files path place,
    file? (makeDirectories files path).2 place = file? files place
  file?_write_of_error : ∀ files path text e place, (write files path text).1 = .error e →
    file? (write files path text).2 place = file? files place
  file?_write_of_ok : ∀ files path text, (write files path text).1 = .ok () →
    ∃ place, file? (write files path text).2 place = some text.toUTF8 ∧
      ∀ other, other ≠ place →
        file? (write files path text).2 other = file? files other
  read_write_of_ok : ∀ files path text, (write files path text).1 = .ok () →
    read (write files path text).2 path = .ok text.toUTF8

structure Session (σ : Type) where
  files : σ
  stdout : String
  stderr : String

variable {σ : Type} [FileSystem σ]

instance : Host (StateM (Session σ)) where
  read path := fun s => (FileSystem.read s.files path, s)
  makeDirectories path := fun s =>
    let (answer, files) := FileSystem.makeDirectories s.files path
    (answer, { s with files })
  write path text := fun s =>
    let (answer, files) := FileSystem.write s.files path text
    (answer, { s with files })
  print text := fun s => ((), { s with stdout := s.stdout ++ text })
  printError text := fun s => ((), { s with stderr := s.stderr ++ text })

structure Outcome where
  code : UInt32
  stdout : String
  stderr : String
  deriving DecidableEq

def Outcome.misuse : Outcome :=
  ⟨2, "", "error: invalid arguments\n"⟩

def Command.runOn (files : σ) (c : Command) : Outcome × σ :=
  let (code, s) := (c.run : StateM (Session σ) UInt32).run ⟨files, "", ""⟩
  (⟨code, s.stdout, s.stderr⟩, s.files)

def Invocation.runOn (files : σ) (arguments : List String) : Outcome × σ :=
  match ofArguments? arguments with
  | some invocation => invocation.command.runOn files
  | none => (.misuse, files)

end SchemaLineage
