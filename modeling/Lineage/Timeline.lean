import Lineage.Inquiry
import Lineage.Refactoring.Operation
/-! # Timelines

The commits that the refactorings of a target lead back to. A walk over first parents follows the
methods that the target changed, under the names that they had before each refactoring, and keeps
the commits that touch them.
-/
namespace Lineage

open Refactoring (Operation Location Detector)

structure TimelineEntry where
  commit : Commit
  /-- The methods followed when the walk reached the commit. -/
  tracked : TextSet
  operations : List Operation
  parent : Option String
  detected : List Operation
  deriving DecidableEq

structure Timeline where
  entries : List TimelineEntry
  analyzed : Nat

/-- How far back a walk goes. -/
structure Budget where
  depth : Nat := 50
  /-- The greatest age before the target; none if it is not positive. -/
  days : Int := 180
  deriving DecidableEq, Repr

namespace Budget

/-- The age in whole days before a target, in signed words of 64 bits. -/
def age (target c : Commit) : Int := ((target.timestamp - c.timestamp).bmod UInt64.size).tdiv 86400

def isTooOld (b : Budget) (target c : Commit) : Bool := 0 < b.days && b.days < age target c

end Budget

namespace Timeline

def commits (t : Timeline) : List Commit := t.entries.map (·.commit)

def relevant (t : Timeline) : Nat := t.entries.length - 1

def target? (t : Timeline) : Option Commit := t.entries.getLast?.map (·.commit)

/-- The operations found, by the commits that were compared, older and newer. -/
abbrev Detections := List ((String × String) × List Operation)

def recordDetected (m : Detections) (e : TimelineEntry) : Detections :=
  match e.parent with
  | some p => ((p, e.commit.id), e.detected) :: m.filter (·.1 ≠ (p, e.commit.id))
  | none => m

def detections (t : Timeline) : Detections := t.entries.foldl recordDetected []

/-! ## Following methods -/

def methodKeys (ls : List Location) : List String := ls.filterMap (·.methodKey?)

def touches (tracked : TextSet) (op : Operation) : Bool :=
  (methodKeys op.before ++ methodKeys op.after).any tracked.contains

/-- What is followed before an operation. -/
def follow (tracked : TextSet) (op : Operation) : TextSet :=
  let before := methodKeys op.before
  let after := methodKeys op.after
  if !after.any tracked.contains then tracked
  else
    match op.kind.family with
    | .rename | .move | .changeSignature => before.foldl .insert (after.foldl .erase tracked)
    | .extract | .inline => before.foldl .insert tracked
    | .other => tracked

/-- What is followed before the operations of one commit. -/
def followAll (tracked : TextSet) (ops : List Operation) : TextSet := ops.foldl follow tracked

def standsIn (tracked : TextSet) (files : List String) : Bool :=
  tracked.toList.any fun key =>
    match Text.splitOnce "::" key with
    | some (path, _) => files.contains path
    | none => false

/-! ## The walk -/

variable {σ : Type}

structure Walk where
  current : Commit
  tracked : TextSet
  analyzed : Nat
  entries : List TimelineEntry
  deriving DecidableEq

/-- Whether a commit changed a file with a followed method; not if that cannot be told. -/
def changesTracked (h : History σ) (c : Commit) (tracked : TextSet) : Inquiry σ Bool := do
  return match ← Inquiry.ask (h.changedFiles c.id) with
    | .ok files => standsIn tracked files
    | .error _ => false

def look (h : History σ) (d : Detector σ) (w : Walk) (parent : Commit) : Inquiry σ Walk := do
  let detected ← Inquiry.detect d parent w.current
  let matched := detected.filter (touches w.tracked)
  let isRelevant ← if matched.isEmpty then changesTracked h w.current w.tracked else pure true
  let past := { w with current := parent, analyzed := w.analyzed + 1 }
  return if isRelevant then
    { past with
      tracked := followAll w.tracked matched
      entries := ⟨w.current, w.tracked, matched, some parent.id, detected⟩ :: w.entries }
  else past

/-- One step back; none where the walk ends: at a commit that is too old or has no known parent. -/
def step (h : History σ) (d : Detector σ) (b : Budget) (target : Commit) (w : Walk) :
    Inquiry σ (Option Walk) := do
  if b.isTooOld target w.current then return none
  match ← Inquiry.ask (h.parent w.current.id) with
  | .ok (some parent) => return some (← look h d w parent)
  | .ok none | .error _ => return none

def walk (h : History σ) (d : Detector σ) (b : Budget) (target : Commit) :
    Nat → Walk → Inquiry σ Walk
  | 0, w => return w
  | n + 1, w => do
    match ← step h d b target w with
    | some w => walk h d b target n w
    | none => return w

def alone (e : TimelineEntry) : Timeline := ⟨[e], 0⟩

def ofTarget (h : History σ) (d : Detector σ) (b : Budget) (target : Commit) :
    Inquiry σ Timeline := do
  match ← Inquiry.ask (h.parent target.id) with
  | .ok none | .error _ => return alone ⟨target, .empty, [], none, []⟩
  | .ok (some parent) =>
    let ops ← Inquiry.detect d parent target
    let tracked := TextSet.ofList (ops.flatMap fun op => methodKeys op.after)
    let entry : TimelineEntry := ⟨target, tracked, ops, some parent.id, ops⟩
    if tracked.toList.isEmpty then return alone entry
    let w ← walk h d b target b.depth ⟨parent, followAll tracked ops, 0, [entry]⟩
    return ⟨w.entries, w.analyzed⟩

/-- The timeline that ends at a reference; it fails only if the reference leads nowhere. -/
def build (h : History σ) (d : Detector σ) (b : Budget) (reference : String) :
    Inquiry σ (Except RepositoryError Timeline) := do
  match ← Inquiry.ask (h.info reference) with
  | .ok target => return .ok (← ofTarget h d b target)
  | .error e => return .error e

end Timeline

end Lineage
