import Lineage.History
import Lineage.Refactoring.Detector
/-! # Inquiries

Work that asks a world and collects the warnings met on the way.
-/
namespace Lineage

abbrev Inquiry (σ : Type) := StateM (σ × Diagnostics)

namespace Inquiry

variable {σ α : Type}

def ask (question : StateM σ α) : Inquiry σ α := fun (world, ws) =>
  let (answer, world) := question world
  (answer, (world, ws))

def warn (found : List Warning) : Inquiry σ Unit :=
  modify fun (world, ws) => (world, ws.recordAll found)

/-- The refactorings between two commits. A detector that fails finds none; its warnings count. -/
def detect (d : Refactoring.Detector σ) (older newer : Commit) :
    Inquiry σ (List Refactoring.Operation) := do
  let (found, ws) ← ask (d.detect older newer)
  warn ws
  return match found with
    | .ok ops => ops
    | .error _ => []

def run (work : Inquiry σ α) (world : σ) : α × σ × Diagnostics := work (world, .empty)

end Inquiry

end Lineage
