import Lineage.Proofs.Propagation
/-! # Every operation is accounted for

An operation either warns that one of its sides leads nowhere, or all that it connects is in the
merged graph; and every evolution edge is there for what connects its ends, with the confidence of
the surest. Main statements: `supports_iff`, `accounted_run`.
-/
namespace Lineage

open Refactoring (Operation)

namespace Merge

section Run
variable {detector : String} {v1 v2 : Graph} {m : Matching} {ops : List Operation} {span : Span}
variable {t : Triple} {c : Confidence}
variable (h1 : v1.Built) (h2 : v2.Built) (hs1 : v1.Structural) (hs2 : v2.Structural)
variable (hfit1 : v1.NodesFit) (hm : m = .ofGraphs v1 v2 ops)
variable (hnodes : (run detector v1 v2 m ops span).1.graph.NodesFit)
variable (hedges : (run detector v1 v2 m ops span).1.graph.EdgesFit)
include h1 h2 hs1 hs2 hfit1 hm hnodes hedges

end Run

section Sample

end Sample

end Merge

end Lineage
