import Lineage.Refactoring.Kind
import Lineage.Refactoring.Location
/-! # Refactoring operations -/
namespace Lineage.Refactoring

structure Operation where
  kind : Kind
  description : String := ""
  before : List Location := []
  after : List Location := []
  confidence : Confidence := .one
  deriving DecidableEq, Repr, Inhabited

namespace Operation

/-- The kind of node that a location points at: its own hint, else the operation's. -/
def hint? (op : Operation) (l : Location) : Option NodeKind := l.elementKind <|> op.kind.target?

def side (op : Operation) : Side → List Location
  | .before => op.before
  | .after => op.after

end Operation

end Lineage.Refactoring
