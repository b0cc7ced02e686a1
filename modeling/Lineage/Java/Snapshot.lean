import Lineage.Java.Extract
import Lineage.Java.Symbols
import Lineage.Graph
import Lineage.Text.LetterCase
/-! # The graph of a Java project

Assembles the declarations of all files into one graph: first the nodes with their containment, then
supertypes, then what each method calls, uses and overrides. Of two declarations with one name the
first is kept. Files in sorted order give the same numbers on every run.
-/
namespace Lineage.Java

structure TypeEntry where
  id : NodeId
  facts : TypeFacts
  context : TypeContext
  outerIds : List NodeId
  deriving Inhabited

/-- A method that became a node, and the position of its type among the entries. -/
structure MethodEntry where
  id : NodeId
  owner : TypeEntry
  facts : MethodFacts
  deriving Inhabited

structure Assembly where
  graph : Graph
  symbols : Symbols
  packages : List (String × NodeId)
  types : List TypeEntry
  methods : List MethodEntry
  deriving Inhabited

namespace Assembly

def projectId : NodeId := ⟨0⟩

def start (projectName : String) : Assembly where
  graph := (Graph.empty.addNode
    { kind := .project, name := projectName, qualifiedName := projectName }).2
  symbols := .empty
  packages := []
  types := []
  methods := []

def addNode (a : Assembly) (n : Node) : NodeId × Assembly :=
  let (id, graph) := a.graph.addNode n
  (id, { a with graph })

/-- Adds an edge unless there is one that says the same. -/
def link (a : Assembly) (t : Triple) : Assembly :=
  if a.graph.triples.contains t then a
  else
    { a with graph := a.graph.tryEdge { source := t.source, target := t.target, kind := t.kind } }

def linkAll (a : Assembly) (ts : List Triple) : Assembly := ts.foldl link a

def package (a : Assembly) (name : String) : NodeId × Assembly :=
  match a.packages.lookup name with
  | some id => (id, a)
  | none =>
    let (id, a) := a.addNode { kind := .package, name, qualifiedName := name }
    (id, { a with packages := a.packages ++ [(name, id)] }.link ⟨projectId, .hasPackage, id⟩)

def packageOf (a : Assembly) (name : Option String) : Option NodeId × Assembly :=
  match name with
  | some name =>
    let (id, a) := a.package name
    (some id, a)
  | none => (none, a)

def withPackage (package : Option String) (n : Node) : Node :=
  match package with
  | some p => n.withMetadatum Meta.package p
  | none => n

def withLines (l : Lines) (n : Node) : Node :=
  { n with lineStart := some (.ofNat l.first), lineEnd := some (.ofNat l.last) }

/-! ## Nodes of declarations -/

def fileNode (f : FileFacts) : Node :=
  withPackage f.package <|
    { kind := .file
      name := (Path.fileName? f.path).getD f.path
      qualifiedName := f.path
      filePath := f.path : Node }.withMetadatum Meta.imports (Text.join "," f.imports)

def typeNode (f : FileFacts) (t : TypeFacts) : Node :=
  withPackage f.package <| withLines t.lines <|
    ({ kind := .type
       name := t.name
       qualifiedName := t.qualifiedName
       filePath := f.path
       source := some t.header
       doc := t.doc : Node }.withMetadatum Meta.typeKind t.kind.name).withMetadatum
      Meta.modifiers t.modifiers

def fieldNode (path : String) (t : TypeFacts) (f : FieldFacts) : Node :=
  withLines f.lines <|
    ({ kind := .field
       name := f.name
       qualifiedName := t.qualifiedName ++ "#" ++ f.name
       filePath := path
       source := some f.source : Node }.withMetadatum Meta.type f.type).withMetadatum
      Meta.modifiers f.modifiers

def methodNode (path : String) (t : TypeFacts) (m : MethodFacts) : Node :=
  let n := withLines m.lines <|
    ({ kind := .method
       name := m.name
       qualifiedName := t.qualifiedName ++ "#" ++ m.tail
       filePath := path
       source := some m.source
       doc := m.doc : Node }.withMetadatum Meta.modifiers m.modifiers).withMetadatum
      Meta.methodKind (if m.isConstructor then "constructor" else "method")
  match m.returnType with
  | some r => n.withMetadatum Meta.returnType r
  | none => n

def methodSymbol (id : NodeId) (m : MethodFacts) : MethodSymbol where
  id
  name := m.name
  tail := m.tail
  params := m.paramTypes.length
  varargs := (m.paramTypes.getLast?).any (Text.endsWith "..." ·)
  isConstructor := m.isConstructor

/-! ## Adding declarations -/

def addField (path : String) (t : TypeEntry) (a : Assembly) (f : FieldFacts) : Assembly :=
  let (id, a) := a.addNode (fieldNode path t.facts f)
  let a := a.link ⟨t.id, .declares, id⟩
  { a with symbols := a.symbols.addField t.id ⟨id, f.name, f.type⟩ }

def addMethod (path : String) (t : TypeEntry) (a : Assembly) (m : MethodFacts) : Assembly :=
  let (id, a) := a.addNode (methodNode path t.facts m)
  let a := a.link ⟨t.id, .declares, id⟩
  { a with
    symbols := a.symbols.addMethod t.id (methodSymbol id m)
    methods := a.methods ++ [⟨id, t, m⟩] }

/-- The methods without those whose tail an earlier one has. -/
def distinctTails (ms : List MethodFacts) : List MethodFacts :=
  ms.foldl (fun kept m => if kept.any (·.tail = m.tail) then kept else kept ++ [m]) []

def addMembers (path : String) (t : TypeEntry) (a : Assembly) : Assembly :=
  let a := t.facts.fields.foldl (addField path t) a
  (distinctTails t.facts.methods).foldl (addMethod path t) a

def typeEntry (id : NodeId) (f : FileFacts) (outer : Option TypeEntry) (t : TypeFacts) :
    TypeEntry where
  id
  facts := t
  context :=
    { package := f.package
      imports := f.imports
      enclosing := t.qualifiedName :: (outer.map (·.context.enclosing)).getD [] }
  outerIds := (outer.map fun o => o.id :: o.outerIds).getD []

/-- A type is declared by the type around it, else by its file. -/
def declaration (fileId : NodeId) (outer : Option TypeEntry) (id : NodeId) : Triple :=
  match outer with
  | some o => ⟨o.id, .declares, id⟩
  | none => ⟨fileId, .declaresType, id⟩

def addType (fileId : NodeId) (packageId : Option NodeId) (f : FileFacts)
    (outer : Option TypeEntry) (a : Assembly) (t : TypeFacts) : TypeEntry × Assembly :=
  let (id, a) := a.addNode (typeNode f t)
  let a := { a with symbols := (a.symbols.addType? t.qualifiedName id).getD a.symbols }
  let entry := typeEntry id f outer t
  let a := a.link (declaration fileId outer id)
  let a := a.linkAll (packageId.toList.map fun p => ⟨id, .inPackage, p⟩)
  let a := addMembers f.path entry a
  (entry, { a with types := a.types ++ [entry] })

/-- Adds the next type of a file, and tells what became of it. A type is left out when its name is
taken, or when the type around it was left out; `placed` are the file's earlier types. -/
def addTypeIfNew (fileId : NodeId) (packageId : Option NodeId) (f : FileFacts)
    (state : List (Option TypeEntry) × Assembly) (t : TypeFacts) :
    List (Option TypeEntry) × Assembly :=
  let (placed, a) := state
  let outer : Option (Option TypeEntry) :=
    match t.outer with
    | none => some none
    | some i => ((placed[i]?).join).map some
  match outer, a.symbols.type? t.qualifiedName with
  | some outer, none =>
    let (entry, a) := addType fileId packageId f outer a t
    (placed ++ [some entry], a)
  | _, _ => (placed ++ [none], a)

def addFile (a : Assembly) (f : FileFacts) : Assembly :=
  let (fileId, a) := a.addNode (fileNode f)
  let a := a.link ⟨projectId, .contains, fileId⟩
  let (packageId, a) := a.packageOf f.package
  (f.types.foldl (addTypeIfNew fileId packageId f) ([], a)).2

/-! ## Supertypes -/

/-- What a type says it extends or implements. -/
def declaredSupertypes (t : TypeFacts) : List (EdgeKind × String) :=
  t.superclasses.map (.inherits, ·) ++ t.interfaces.map (.implements, ·)

def linkSupertype (t : TypeEntry) (a : Assembly) (named : EdgeKind × String) : Assembly :=
  match a.symbols.resolve? named.2 t.context with
  | some target =>
    if target = t.id then a
    else
      let a := a.link ⟨t.id, named.1, target⟩
      { a with symbols := a.symbols.addSupertype t.id target }
  | none => a

def linkSupertypes (a : Assembly) (t : TypeEntry) : Assembly :=
  (declaredSupertypes t.facts).foldl (linkSupertype t) a

end Assembly

/-! ## What methods use -/

namespace MethodEntry

/-- Where a method looks for names: its type, the types around, then the inherited ones. -/
def scope (s : Symbols) (m : MethodEntry) : List NodeId :=
  m.owner.id :: m.owner.outerIds ++ s.ancestors m.owner.id

def firstNamed? (s : Symbols) (types : List NodeId) (c : Call) : Option NodeId :=
  types.findSome? fun t => (s.methodsNamed t c.name c.arity).head?

def receiverType? (s : Symbols) (m : MethodEntry) (receiver : String) : Option NodeId :=
  let byField := do
    let field ← (m.scope s).findSome? fun t => s.field? t receiver
    s.resolve? (TypeName.erase field.type) m.owner.context
  byField <|>
    if (receiver.toList.head?).any Text.isUppercase then s.resolve? receiver m.owner.context
    else none

/-- The method that a call means; on an unknown receiver, the project's only one that fits. -/
def called? (s : Symbols) (m : MethodEntry) (c : Call) : Option NodeId :=
  match c.receiver with
  | .own => firstNamed? s (m.scope s) c
  | .super => firstNamed? s (s.ancestors m.owner.id) c
  | .other text =>
    let receiver := (Text.after? "this." text).getD text
    let found := do
      let t ← m.receiverType? s receiver
      firstNamed? s (t :: s.ancestors t) c
    found <|> s.uniqueMethod? c.name c.arity

def callEdges (s : Symbols) (m : MethodEntry) : List Triple :=
  (m.facts.body.calls.filterMap (m.called? s)).map fun t => ⟨m.id, .calls, t⟩

def creationEdges (s : Symbols) (m : MethodEntry) : List Triple :=
  m.facts.body.creations.filterMap fun c => do
    let type ← s.resolve? c.type m.owner.context
    let constructor ← (s.constructors type c.arity).head?
    return ⟨m.id, .calls, constructor⟩

def fieldEdges (s : Symbols) (m : MethodEntry) : List Triple :=
  m.facts.body.fieldUses.filterMap fun u => do
    let field ← (m.scope s).findSome? fun t => s.field? t u.name
    return ⟨m.id, if u.write then .writes else .reads, field.id⟩

def signatureTypes (m : MethodFacts) : List (EdgeKind × String) :=
  m.paramTypes.map (.hasParam, ·) ++ m.returnType.toList.map (.returnType, ·) ++
    m.throws.map (.throws, ·)

def signatureEdges (s : Symbols) (m : MethodEntry) : List Triple :=
  (signatureTypes m.facts).filterMap fun (kind, type) =>
    (s.resolve? (TypeName.erase type) m.owner.context).map fun t => ⟨m.id, kind, t⟩

/-- Whether a method can override one of a supertype. -/
def canOverride (m : MethodFacts) : Bool :=
  !m.isConstructor && !(Text.words m.modifiers).any fun w => w = "static" || w = "private"

def overrideEdges (s : Symbols) (m : MethodEntry) : List Triple :=
  if canOverride m.facts then
    (((s.ancestors m.owner.id).findSome? fun t => s.methodWithTail? t m.facts.tail).map fun t =>
      ⟨m.id, .overrides, t⟩).toList
  else []

def testedNames (name : String) : List String :=
  match (Text.after? "test" name).map String.toList with
  | some (c :: cs) => [name, String.ofList (Text.lowercase c ++ cs)]
  | _ => [name]

/-- In `RepoTest`, the annotated `testSave` tests `save` or `testSave` of `Repo`. -/
def tested? (s : Symbols) (m : MethodEntry) : Option NodeId := do
  guard (m.facts.annotations.contains "Test")
  let subject ← Text.before? "Test" m.owner.facts.name
  guard (subject ≠ "")
  let type ← s.resolve? subject m.owner.context
  (testedNames m.facts.name).findSome? fun name => (s.methodsCalled type name).head?

def edges (s : Symbols) (m : MethodEntry) : List Triple :=
  m.callEdges s ++ m.creationEdges s ++ m.fieldEdges s ++ m.signatureEdges s ++
    m.overrideEdges s ++ ((m.tested? s).map fun t => ⟨m.id, .tests, t⟩).toList

end MethodEntry

def Snapshot.graph (projectName : String) (files : List FileFacts) : Graph :=
  let a := files.foldl Assembly.addFile (.start projectName)
  let a := a.types.foldl Assembly.linkSupertypes a
  (a.linkAll (a.methods.flatMap (MethodEntry.edges a.symbols))).graph

end Lineage.Java
