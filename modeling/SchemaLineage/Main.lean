import SchemaLineage.Command.Session

/-!
The command line on the real file system.
-/
namespace SchemaLineage.Main

def fileError : IO.Error → FileError
  | .noFileOrDirectory _ _ _ => .notFound
  | .inappropriateType _ 20 _ => .notADirectory
  | .inappropriateType _ _ _ => .isADirectory
  | .alreadyExists _ _ _ => .alreadyExists
  | e => .other (toString e)

def attempt {α : Type} (action : IO α) : IO (Except FileError α) := do
  match ← action.toBaseIO with
  | .ok value => return .ok value
  | .error e => return .error (fileError e)

instance : Host IO where
  read path := attempt (IO.FS.readBinFile path)
  makeDirectories path := attempt (IO.FS.createDirAll path)
  write path text := attempt (IO.FS.writeFile path text)
  print text := IO.print text
  printError text := IO.eprint text

end SchemaLineage.Main

open SchemaLineage in
def main (arguments : List String) : IO UInt32 := do
  match Invocation.ofArguments? arguments with
  | some invocation => invocation.command.run
  | none =>
    IO.eprint Outcome.misuse.stderr
    return Outcome.misuse.code
