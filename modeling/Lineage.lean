import Lineage.Main
import Lineage.Refactoring.Document
import Lineage.Proofs.EdgeStore
import Lineage.Proofs.Graph
import Lineage.Proofs.Index
import Lineage.Proofs.Rekey
import Lineage.Proofs.Matching
import Lineage.Proofs.StatusPartition
import Lineage.Proofs.Merge
import Lineage.Proofs.Relocation
import Lineage.Proofs.Aggregate
import Lineage.Proofs.Chain
import Lineage.Proofs.LiveKeys
import Lineage.Proofs.ExactHistory
import Lineage.Proofs.StructuralEdges
import Lineage.Proofs.EntityUnion
import Lineage.Proofs.SelfMerge
import Lineage.Proofs.Growth
import Lineage.Proofs.Inquiry
import Lineage.Proofs.Timeline
import Lineage.Proofs.Landing
import Lineage.Proofs.Placement
import Lineage.Proofs.Propagation
import Lineage.Proofs.Accounting
import Lineage.Proofs.Continuity
import Lineage.Proofs.Java.Containment
import Lineage.Proofs.Java.Filing
import Lineage.Proofs.Java.Naming
import Lineage.Proofs.Java.Linking
import Lineage.Proofs.Java.Snapshot
import Lineage.Proofs.Trace
import Lineage.Proofs.Conduct
import Lineage.Proofs.Stages
import Lineage.Proofs.Turns
import Lineage.Proofs.Protocol
import Lineage.Proofs.References
import Lineage.Proofs.Documents
import Lineage.Proofs.Exports
import Lineage.Proofs.Descent
import Lineage.Proofs.Replay
import Lineage.Proofs.Reuse
import Lineage.Proofs.ExportFolder
import Lineage.Proofs.Restoration
import Lineage.Proofs.LogSystem
import Lineage.Proofs.Java.Commas
import Lineage.Proofs.Java.Spelling
import Lineage.Proofs.Java.Formed
import Lineage.Proofs.Java.Tokens
import Lineage.Proofs.Java.Matches
import Lineage.Proofs.Java.TypeRules
import Lineage.Proofs.Java.Trees
import Lineage.Proofs.Java.Parameters
import Lineage.Proofs.Java.Records
import Lineage.Proofs.Java.Kept
import Lineage.Proofs.Java.Overloads
import Lineage.Proofs.Java.Declarations
import Lineage.Proofs.Java.Origins
import Lineage.Proofs.Java.Isolation
import Lineage.Proofs.Java.Contents
import Lineage.Proofs.Java.Mentions
import Lineage.Proofs.Java.FieldEdges
import Lineage.Proofs.Java.Members
import Lineage.Proofs.Java.Variables
import Lineage.Proofs.Java.Accesses
import Lineage.Proofs.Resolve
import Lineage.Proofs.Selection
import Lineage.Proofs.Following
import Lineage.Proofs.Collisions
import Lineage.Proofs.FirstSeen
import Lineage.Proofs.Refold
import Lineage.Proofs.Budgets
import Lineage.Proofs.Text
import Lineage.Proofs.Java.TypeNames
import Lineage.Proofs.Java.Registration
import Lineage.Proofs.Java.Resolution
import Lineage.Proofs.Java.Packages
import Lineage.Proofs.Java.FieldEdits
import Lineage.Proofs.Java.Tables
import Lineage.Proofs.Java.Ancestors
import Lineage.Proofs.Java.OnlyMethods
import Lineage.Proofs.Java.Entries
import Lineage.Proofs.Java.Overriding
import Lineage.Proofs.Java.Receivers
import Lineage.Proofs.KindNames
import Lineage.Proofs.Overrides
import Lineage.Proofs.JsonReader
import Lineage.Proofs.JsonWritten
import Lineage.Proofs.Reports
import Lineage.Proofs.FirstParents
import Lineage.Proofs.Tolerance
import Lineage.Proofs.Additions
import Lineage.Proofs.Insertions
import Lineage.Proofs.Java.Preorder
import Lineage.Proofs.Java.Slots
import Lineage.Proofs.ElementNames
import Lineage.Proofs.Java.TypeLists
