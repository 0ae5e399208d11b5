import SchemaLineage.Document.Schema
import SchemaLineage.Lineage.Merged

/-!
Conditions, guard trees and merged schemas as documents.
-/
namespace SchemaLineage

namespace Condition

/-- The operator with its bounds; two bounds make a list. -/
def document : Condition → Document
  | always => .record [("op", .text "always")]
  | atLeast low => .record [("op", .text "at_least"), ("bounds", .text low.dotted)]
  | atMost high => .record [("op", .text "at_most"), ("bounds", .text high.dotted)]
  | between low high => .record [("op", .text "between"),
      ("bounds", .list [.text low.dotted, .text high.dotted])]

end Condition

namespace VersionSet

def document (s : VersionSet) : Document :=
  .list (s.toList.map fun v => .text v.dotted)

end VersionSet

namespace GuardBody

def documents {α : Type} (itemDocument : α → Document) : GuardBody α → List Document
  | nil => []
  | item x rest => .variant "item" (itemDocument x) :: documents itemDocument rest
  | guard c inner rest =>
    .variant "guard" (.record [("condition", c.document),
      ("body", .list (documents itemDocument inner))]) :: documents itemDocument rest

end GuardBody

namespace GuardTree

def document {α : Type} (itemDocument : α → Document) (t : GuardTree α) : Document :=
  .record [("condition", t.condition.document), ("body", .list (t.body.documents itemDocument))]

end GuardTree

namespace Base

def document : Base → Document
  | root => .unit "root"
  | named name => .variant "named" (.text name)

end Base

namespace BaseRef

def document : BaseRef → Document
  | fixed base => .variant "fixed" base.document
  | aliased name => .variant "alias" (.text name)

end BaseRef

def Case.document {α : Type} (key : String) (valueDocument : α → Document) (c : Case α) :
    Document :=
  .record [("condition", c.condition.document), (key, valueDocument c.value)]

namespace MergedItem

def document : MergedItem → Document
  | baseAlias a => .record [("type", .text "alias"), ("name", .text a.name),
      ("cases", .list (a.cases.map (Case.document "base" Base.document)))]
  | declaration d => .record [("type", .text "declaration"), ("name", .text d.name),
      ("kinds", .list (d.kinds.map (Case.document "kind" fun k => .unit k.name))),
      ("base", d.base.document), ("versions", d.versions.document),
      ("existence", d.existence.document), ("body", d.body.document Field.document)]

end MergedItem

namespace MergedSchema

def document (m : MergedSchema) : Document :=
  .record [("name", .text m.name), ("versions", m.versions.document),
    ("body", m.body.document MergedItem.document)]

end MergedSchema

end SchemaLineage
