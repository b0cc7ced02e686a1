import Lineage.Json
import Lineage.Refactoring.Operation
/-! # Refactorings as documents -/
namespace Lineage.Refactoring

namespace Location

def fields (l : Location) : List (String × Json) :=
  [("filePath", .text l.filePath),
   ("startLine", .nat l.startLine.toNat),
   ("endLine", .nat l.endLine.toNat),
   ("codeElement", .option .text l.element),
   ("elementKind", .option (fun k => .text k.name) l.elementKind)]

def toJson (l : Location) : Json := .record l.fields

end Location

namespace Operation

def fields (op : Operation) : List (String × Json) :=
  [("type", .text op.kind.name),
   ("description", .text op.description),
   ("before", .list (op.before.map Location.toJson)),
   ("after", .list (op.after.map Location.toJson)),
   ("confidence", .real op.confidence)]

def toJson (op : Operation) : Json := .record op.fields

end Operation

end Lineage.Refactoring
