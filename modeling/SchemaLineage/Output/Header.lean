import SchemaLineage.Output.Digest
import SchemaLineage.Output.Settings

/-!
The header of written files: who wrote them from which inputs, with the start of a digest over the
texts of the inputs. A zero byte ends each text, so that the boundaries between texts count.
-/
namespace SchemaLineage

structure InputText where
  name : String
  text : String
  deriving DecidableEq

namespace Header

def digestBytes (texts : List String) : List UInt8 :=
  texts.flatMap fun text => text.toUTF8.data.toList ++ [0]

def digest (inputs : List InputText) : List Char :=
  Digest.hex (digestBytes (inputs.map (·.text)))

/-- Two comment lines: the tool with its inputs, and the first sixteen digits of the digest. -/
def text (comment tool : String) (inputs : List InputText) : String :=
  comment ++ " @generated by " ++ tool ++ " from " ++ ", ".intercalate (inputs.map (·.name)) ++
    "\n" ++ comment ++ " input-digest: sha256:" ++ String.ofList ((digest inputs).take 16) ++ "\n"

end Header

end SchemaLineage
