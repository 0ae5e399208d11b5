/-!
The settings of the code writers. Every setting has a default.
-/
namespace SchemaLineage

structure Settings where
  /-- The class from which every class without a base of its own derives. -/
  baseClass : String := "AST"
  /-- Whether optional and sequence fields of data classes have default values. -/
  withDefaults : Bool := false
  /-- The expression that stubs compare with version tuples. -/
  versionVariable : String := "sys.version_info"
  /-- Whether a header is put before the output. -/
  header : Bool := true
  /-- One level of indentation. -/
  indent : String := "    "
  deriving DecidableEq, Inhabited

def Settings.indentation (s : Settings) (depth : Nat) : String :=
  String.join (List.replicate depth s.indent)

end SchemaLineage
