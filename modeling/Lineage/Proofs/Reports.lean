import Lineage.Proofs.JsonReader
import Lineage.Proofs.JsonWritten
import Lineage.Proofs.KindNames
import Lineage.Refactoring.Detector
/-! # Operations of reports

What a report lists and what is made of it: an operation for each refactoring in order, and a
warning for each type name that is none. A report that is written in whatever layout is read as it
was. Main statements: `isSide_side`, `fits_ofText`, `ofText_write`, `parses_parse`.
-/
namespace Lineage.Refactoring.Report

open Json Reader Text

/-- The list has those of another one that have a property, in order. -/
inductive Keeps {α : Type} (p : α → Prop) : List α → List α → Prop
  | nil : Keeps p [] []
  | keep {x : α} {xs kept : List α} (hx : p x) (h : Keeps p xs kept) : Keeps p (x :: xs) (x :: kept)
  | skip {x : α} {xs kept : List α} (hx : ¬p x) (h : Keeps p xs kept) : Keeps p (x :: xs) kept

theorem keeps_filter {α : Type} {p : α → Prop} {q : α → Bool} (h : ∀ x, q x = true ↔ p x)
    (xs : List α) : Keeps p xs (xs.filter q) := by
  induction xs with
  | nil => exact .nil
  | cons x xs ih =>
    rw [List.filter_cons]
    split
    · exact .keep ((h x).mp ‹_›) ih
    · exact .skip (mt (h x).mpr ‹_›) ih

/-! ## Locations -/

inductive DeclarationName : String → NodeKind → Prop
  | method : DeclarationName "METHOD_DECLARATION" .method
  | field : DeclarationName "FIELD_DECLARATION" .field
  | type : DeclarationName "TYPE_DECLARATION" .type

def Location.Declares (l : Location) (k : NodeKind) : Prop :=
  ∃ name, l.elementType = some name ∧ DeclarationName name k

/-- What a location of a report becomes. -/
structure Location.Becomes (l : Location) (l' : Refactoring.Location) : Prop where
  path : l'.filePath.toList = l.filePath.toList.map fun c => if c = '\\' then '/' else c
  startLine : l'.startLine.toNat = l.startLine
  endLine : l'.endLine.toNat = l.endLine
  element : ∀ e, l'.element = some e ↔ l.element = some e ∧ ∃ c ∈ e.toList, isBlank c = false
  kind : ∀ k, l'.elementKind = some k ↔ l.Declares k

/-- Its lines are within the range of line numbers. -/
structure Location.Fits (l : Location) : Prop where
  startLine : l.startLine < UInt32.size
  endLine : l.endLine < UInt32.size

theorem kind?_eq_some_iff {l : Location} {k : NodeKind} : l.kind? = some k ↔ l.Declares k := by
  constructor
  · intro h
    unfold Location.kind? at h
    split at h <;> cases h
    · exact ⟨_, ‹_›, .method⟩
    · exact ⟨_, ‹_›, .field⟩
    · exact ⟨_, ‹_›, .type⟩
  · rintro ⟨name, hname, h⟩
    rw [Location.kind?, hname]
    cases h <;> rfl

theorem isDeclaration_iff {l : Location} : l.isDeclaration = true ↔ ∃ k, l.Declares k := by
  rw [Location.isDeclaration, Option.isSome_iff_exists]
  simp only [kind?_eq_some_iff]

theorem toList_slashed (path : String) :
    (slashed path).toList = path.toList.map fun c => if c = '\\' then '/' else c := by
  simp [slashed, replaceChar]

theorem trim_ne_empty_iff {s : String} : trim s ≠ "" ↔ ∃ c ∈ s.toList, isBlank c = false := by
  rw [ne_eq, trim_eq_empty_iff]
  simp

theorem Location.Fits.becomes {l : Location} (h : l.Fits) : l.Becomes l.resolved where
  path := toList_slashed l.filePath
  startLine := Nat.mod_eq_of_lt h.startLine
  endLine := Nat.mod_eq_of_lt h.endLine
  element e := by
    rw [← trim_ne_empty_iff]
    simp [Location.resolved, Option.filter_eq_some_iff]
  kind k := kind?_eq_some_iff

structure IsClean (l : Refactoring.Location) : Prop where
  path : '\\' ∉ l.filePath.toList
  element : ∀ e, l.element = some e → ∃ c ∈ e.toList, isBlank c = false

theorem Location.Becomes.isClean {l : Location} {l' : Refactoring.Location} (h : l.Becomes l') :
    IsClean l' where
  path := by
    rw [h.path, List.mem_map]
    rintro ⟨c, -, hc⟩
    split at hc
    · exact absurd hc (by decide)
    · contradiction
  element e he := ((h.element e).mp he).2

/-! ## Operations -/

/-- What a side becomes: its declarations if it has any, else all of its locations. -/
inductive IsSide (ls : List Location) (ls' : List Refactoring.Location) : Prop
  | declarations {kept : List Location} (h : ∃ l ∈ ls, ∃ k, l.Declares k)
    (hkept : Keeps (fun l => ∃ k, l.Declares k) ls kept)
    (hls : List.Forall₂ Location.Becomes kept ls')
  | all (h : ∀ l ∈ ls, ∀ k, ¬l.Declares k) (hls : List.Forall₂ Location.Becomes ls ls')

theorem forall₂_becomes {ls : List Location} (h : ∀ l ∈ ls, l.Fits) :
    List.Forall₂ Location.Becomes ls (ls.map Location.resolved) := by
  rw [List.forall₂_map_right_iff, List.forall₂_same]
  exact fun l hl => (h l hl).becomes

theorem isSide_side {ls : List Location} (h : ∀ l ∈ ls, l.Fits) : IsSide ls (side ls) := by
  unfold side
  split
  · rename_i hany
    obtain ⟨l, hl, hd⟩ := List.any_eq_true.mp hany
    refine .declarations ⟨l, hl, isDeclaration_iff.mp hd⟩
      (keeps_filter (fun _ => isDeclaration_iff) ls) (forall₂_becomes ?_)
    exact fun l hl => h l (List.mem_of_mem_filter hl)
  · rename_i hany
    refine .all ?_ (forall₂_becomes h)
    intro l hl k hk
    exact hany (List.any_eq_true.mpr ⟨l, hl, isDeclaration_iff.mpr ⟨k, hk⟩⟩)

structure Entry.Becomes (e : Entry) (op : Operation) : Prop where
  kind : op.kind = (Kind.parse e.type).1
  description : op.description = e.description
  before : IsSide e.left op.before
  after : IsSide e.right op.after
  confidence : op.confidence = .one

structure Entry.Fits (e : Entry) : Prop where
  left : ∀ l ∈ e.left, l.Fits
  right : ∀ l ∈ e.right, l.Fits

theorem Entry.Fits.becomes {e : Entry} (h : e.Fits) : e.Becomes e.operation where
  kind := rfl
  description := rfl
  before := isSide_side h.left
  after := isSide_side h.right
  confidence := rfl

theorem isClean_of_isSide {ls : List Location} {ls' : List Refactoring.Location}
    (h : IsSide ls ls') : ∀ l ∈ ls', IsClean l := by
  have hall : ∀ {kept : List Location}, List.Forall₂ Location.Becomes kept ls' →
      ∀ l ∈ ls', IsClean l := by
    intro kept hkept
    have hflip := hkept.flip.imp fun _ _ h => And.intro h.isClean h
    exact ((List.forall₂_and_left _ _).mp hflip).1
  cases h with
  | declarations _ _ hls => exact hall hls
  | all _ hls => exact hall hls

theorem Entry.Becomes.isClean {e : Entry} {op : Operation} (h : e.Becomes op) :
    ∀ l ∈ op.before ++ op.after, IsClean l :=
  List.forall_mem_append.mpr ⟨isClean_of_isSide h.before, isClean_of_isSide h.after⟩

/-! ## Reading -/

theorem gives_location : Gives location Location.Fits := by
  have hread := gives_below UInt32.size
  refine .record ?_ ⟨by decide, by decide⟩
  simp only [List.forall_mem_cons]
  refine ⟨?_, ?_, ?_, ?_, ?_, List.forall_mem_nil _⟩
  · exact fun l hl => gives_after fun _ => gives_pure ⟨hl.startLine, hl.endLine⟩
  · exact fun l hl => hread.bind fun n hn => gives_pure ⟨hn, hl.endLine⟩
  · exact fun l hl => hread.bind fun n hn => gives_pure ⟨hl.startLine, hn⟩
  · exact fun l hl => gives_after fun _ => gives_pure ⟨hl.startLine, hl.endLine⟩
  · exact fun l hl => gives_after fun _ => gives_pure ⟨hl.startLine, hl.endLine⟩

theorem gives_refactoring : Gives refactoring Entry.Fits := by
  have hread := gives_location.list
  refine .record ?_ ⟨List.forall_mem_nil _, List.forall_mem_nil _⟩
  simp only [List.forall_mem_cons]
  refine ⟨?_, ?_, ?_, ?_, List.forall_mem_nil _⟩
  · exact fun e he => gives_after fun _ => gives_pure ⟨he.left, he.right⟩
  · exact fun e he => gives_after fun _ => gives_pure ⟨he.left, he.right⟩
  · exact fun e he => hread.bind fun ls hls => gives_pure ⟨hls, he.right⟩
  · exact fun e he => hread.bind fun ls hls => gives_pure ⟨he.left, hls⟩

theorem gives_commit : Gives commit fun c => ∀ e ∈ c.refactorings, e.Fits := by
  refine .record ?_ (List.forall_mem_nil _)
  simp only [List.forall_mem_cons]
  refine ⟨?_, ?_, List.forall_mem_nil _⟩
  · exact fun c hc => gives_after fun _ => gives_pure hc
  · exact fun c hc => gives_refactoring.list.bind fun es hes => gives_pure hes

theorem gives_report : Gives report fun r => ∀ c ∈ r.commits, ∀ e ∈ c.refactorings, e.Fits := by
  refine .record ?_ (List.forall_mem_nil _)
  simp only [List.forall_mem_cons]
  refine ⟨?_, List.forall_mem_nil _⟩
  exact fun r hr => gives_commit.list.bind fun cs hcs => gives_pure hcs

theorem fits_ofText {s : String} {r : Report} (h : ofText s = .ok r) :
    ∀ e ∈ r.refactorings, e.Fits := by
  intro e he
  obtain ⟨c, hc, he⟩ := List.mem_flatMap.mp he
  exact gives_report.document h c hc e he

/-! ## Written reports -/

def Location.toJson (l : Location) : Json :=
  .record [("filePath", .text l.filePath), ("startLine", .nat l.startLine),
    ("endLine", .nat l.endLine), ("codeElementType", .option .text l.elementType),
    ("codeElement", .option .text l.element)]

def Entry.toJson (e : Entry) : Json :=
  .record [("type", .text e.type), ("description", .text e.description),
    ("leftSideLocations", .list (e.left.map Location.toJson)),
    ("rightSideLocations", .list (e.right.map Location.toJson))]

def Commit.toJson (c : Report.Commit) : Json :=
  .record [("sha1", .text c.id), ("refactorings", .list (c.refactorings.map Entry.toJson))]

def toJson (r : Report) : Json := .record [("commits", .list (r.commits.map Commit.toJson))]

section Written
variable {layout : Layout} (hl : Blank layout)
include hl

theorem reads_location {l : Location} (h : l.Fits) (depth : Nat) :
    Reads location (l.toJson.write layout depth) l := by
  have htext : ∀ (s : Option String), Reads (nullable text)
      ((Json.option .text s).write layout (depth + 1)) s := by
    intro s
    refine reads_option fun t _ => ⟨reads_text t, ?_⟩
    rw [write, toList_literal, List.head?_cons]
    simp
  have hline : ∀ {n : Nat}, n < UInt32.size → Reads (below UInt32.size)
      ((Json.nat n).write layout (depth + 1)) n := fun hn => reads_below hn (by decide)
  rw [Location.toJson, write, writeFields_eq]
  refine reads_record hl ?_ (by simp) (by simp) depth
  refine .cons rfl ((reads_text l.filePath).map _) ?_
  refine .cons rfl ((hline h.startLine).map _) ?_
  refine .cons rfl ((hline h.endLine).map _) ?_
  refine .cons rfl ((htext l.elementType).map _) ?_
  refine .cons rfl ((htext l.element).map _) ?_
  exact .nil l

theorem reads_refactoring {e : Entry} (h : e.Fits) (depth : Nat) :
    Reads refactoring (e.toJson.write layout depth) e := by
  have hleft := reads_writeList hl fun l hm depth => reads_location hl (h.left l hm) depth
  have hright := reads_writeList hl fun l hm depth => reads_location hl (h.right l hm) depth
  rw [Entry.toJson, write, writeFields_eq]
  refine reads_record hl ?_ (by simp) (by simp) depth
  refine .cons rfl ((reads_text e.type).map _) ?_
  refine .cons rfl ((reads_text e.description).map _) ?_
  refine .cons rfl ((hleft _).map _) ?_
  refine .cons rfl ((hright _).map _) ?_
  exact .nil e

theorem reads_commit {c : Report.Commit} (h : ∀ e ∈ c.refactorings, e.Fits) (depth : Nat) :
    Reads commit (c.toJson.write layout depth) c := by
  have hlist := reads_writeList hl fun e he depth => reads_refactoring hl (h e he) depth
  rw [Commit.toJson, write, writeFields_eq]
  refine reads_record hl ?_ (by simp) (by simp) depth
  refine .cons rfl ((reads_text c.id).map _) ?_
  refine .cons rfl ((hlist _).map _) ?_
  exact .nil c

theorem ofText_write {r : Report} (h : ∀ c ∈ r.commits, ∀ e ∈ c.refactorings, e.Fits) :
    ofText (r.toJson.write layout 0) = .ok r := by
  have hlist := reads_writeList hl fun c hc depth => reads_commit hl (h c hc) depth
  rw [toJson, write, writeFields_eq]
  apply Reads.document
  refine reads_record hl ?_ (by simp) (by simp) 0
  refine .cons rfl ((hlist _).map _) ?_
  exact .nil r

end Written

/-- The text is a report as it is written, in some layout. -/
structure IsWritten (r : Report) (s : String) : Prop where
  fits : ∀ c ∈ r.commits, ∀ e ∈ c.refactorings, e.Fits
  text : ∃ layout, Blank layout ∧ s = r.toJson.write layout 0

theorem IsWritten.ofText {r : Report} {s : String} (h : r.IsWritten s) : ofText s = .ok r := by
  obtain ⟨layout, hl, rfl⟩ := h.text
  exact ofText_write hl h.fits

/-! ## Parsing -/

/-- No name is made of the type name. -/
def Entry.IllNamed (e : Entry) : Prop := (Kind.normalize e.type).toList ∉ Kind.names

theorem exists_keeps_warnings (es : List Entry) : ∃ bad, Keeps Entry.IllNamed es bad ∧
    es.flatMap (fun e => (Kind.parse e.type).2) = bad.map fun e => .malformedOperation e.type := by
  induction es with
  | nil => exact ⟨[], .nil, rfl⟩
  | cons e es ih =>
    obtain ⟨bad, hbad, he⟩ := ih
    rw [List.flatMap_cons, he]
    by_cases h : (Kind.normalize e.type).toList ∈ Kind.names
    · refine ⟨bad, .skip (not_not.mpr h) hbad, ?_⟩
      rw [Kind.parse_of_mem_names h, List.nil_append]
    · refine ⟨e :: bad, .keep h hbad, ?_⟩
      rw [Kind.parse_of_not_mem_names h, List.map_cons, List.singleton_append]

structure Lists (r : Report) (ops : List Operation) (warnings : List Warning) : Prop where
  operations : List.Forall₂ Entry.Becomes (r.commits.flatMap (·.refactorings)) ops
  warnings : ∃ bad, Keeps Entry.IllNamed (r.commits.flatMap (·.refactorings)) bad ∧
    warnings = bad.map fun e => .malformedOperation e.type
  clean : ∀ op ∈ ops, ∀ l ∈ op.before ++ op.after, IsClean l

theorem lists_operations {r : Report} (h : ∀ e ∈ r.refactorings, e.Fits) :
    Lists r r.operations.1 r.operations.2 := by
  have hops : List.Forall₂ Entry.Becomes r.refactorings r.operations.1 := by
    rw [operations, List.forall₂_map_right_iff, List.forall₂_same]
    exact fun e he => (h e he).becomes
  have hflip := hops.flip.imp fun _ _ h => And.intro h.isClean h
  exact ⟨hops, exists_keeps_warnings _, ((List.forall₂_and_left _ _).mp hflip).1⟩

/-- What a text says of the refactorings that it lists, also as a report file. A text that is some
report as it is written is read as this report. -/
inductive Parses (s : String) : Except Fault (List Operation × List Warning) → Prop
  | lists {r : Report} {ops : List Operation} {warnings : List Warning} (hr : ofText s = .ok r)
    (hwritten : ∀ r' : Report, r'.IsWritten s → r' = r) (h : Lists r ops warnings)
    (hfile : ∀ path, Detection.ofReport path (some (.text s)) = (.ok ops, warnings)) :
    Parses s (.ok (ops, warnings))
  | fails {f : Fault} (hf : ofText s = .error f) (hwritten : ∀ r' : Report, ¬r'.IsWritten s)
    (hfile : ∀ path, Detection.ofReport path (some (.text s)) = (.error (.badReport path f), [])) :
    Parses s (.error f)

theorem parses_parse (s : String) : Parses s (parse s) := by
  cases h : ofText s with
  | error f =>
    have hparse : parse s = .error f := by rw [parse, h, Except.map]
    rw [hparse]
    have hwritten : ∀ r' : Report, ¬r'.IsWritten s := by
      intro r' hr'
      rw [hr'.ofText] at h
      cases h
    refine .fails h hwritten fun path => ?_
    rw [Detection.ofReport, hparse]
    rfl
  | ok r =>
    have hparse : parse s = .ok r.operations := by rw [parse, h, Except.map]
    rw [hparse]
    have hwritten : ∀ r' : Report, r'.IsWritten s → r' = r :=
      fun r' hr' => Except.ok.inj (hr'.ofText.symm.trans h)
    refine .lists h hwritten (lists_operations (fits_ofText h)) fun path => ?_
    rw [Detection.ofReport, hparse]
    rfl

/-- A declaration beside an invocation, under a type name that is none. -/
def misnamed : Report where
  commits := [{ refactorings := [{
    type := "Move!"
    left := [⟨"a\\A.java", 3, 5, some "METHOD_DECLARATION", some " "⟩,
      ⟨"B.java", 7, 7, some "METHOD_INVOCATION", some "a()"⟩] }] }]

theorem isWritten_misnamed : misnamed.IsWritten misnamed.toJson.indented where
  fits c hc e he := by
    obtain rfl := List.mem_singleton.mp hc
    obtain rfl := List.mem_singleton.mp he
    refine ⟨?_, List.forall_mem_nil _⟩
    simp only [List.forall_mem_cons]
    exact ⟨⟨by decide, by decide⟩, ⟨by decide, by decide⟩, List.forall_mem_nil _⟩
  text := ⟨.indented, blank_indented, rfl⟩

theorem parses_misnamed : misnamed.IsWritten misnamed.toJson.indented ∧
    Parses misnamed.toJson.indented (.ok
      ([{ kind := .other "MOVE!", before := [⟨"a/A.java", 3, 5, none, some .method⟩] }],
        [.malformedOperation "Move!"])) ∧
    Parses "[" (.error .truncated) := by
  have hlisted := parses_parse misnamed.toJson.indented
  have hfailed := parses_parse "["
  have hoperations : misnamed.operations =
      ([{ kind := .other "MOVE!", before := [⟨"a/A.java", 3, 5, none, some .method⟩] }],
        [.malformedOperation "Move!"]) := by
    decide +kernel
  have hfault : ofText "[" = .error .truncated := by rfl
  rw [parse, isWritten_misnamed.ofText, Except.map, hoperations] at hlisted
  rw [parse, hfault, Except.map] at hfailed
  exact ⟨isWritten_misnamed, hlisted, hfailed⟩

end Lineage.Refactoring.Report
