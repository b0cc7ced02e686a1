import Lineage.Java.Tree
import Lineage.Java.TypeName
/-! # Declarations of a Java file

Plain data about one file: its package, imports and types, with their fields and methods, and what
each method's body calls, creates, reads and writes. Everything is computed by recursion on the
parse tree; nothing outside the file is consulted.
-/
namespace Lineage.Java

inductive TypeKind where
  | classType
  | interface
  | enum
  | record
  | annotationType
  deriving DecidableEq, Repr, Inhabited

namespace TypeKind

def ofKind? : Kind → Option TypeKind
  | .classDeclaration => some .classType
  | .interfaceDeclaration => some .interface
  | .enumDeclaration => some .enum
  | .recordDeclaration => some .record
  | .annotationTypeDeclaration => some .annotationType
  | _ => none

def name : TypeKind → String
  | .classType => "class"
  | .interface => "interface"
  | .enum => "enum"
  | .record => "record"
  | .annotationType => "annotation"

end TypeKind

structure Lines where
  first : Nat
  last : Nat
  deriving DecidableEq, Repr, Inhabited

def Tree.range (t : Tree) : Lines := ⟨t.lines.1, t.lines.2⟩

structure FieldFacts where
  name : String
  type : String
  modifiers : String
  source : String
  lines : Lines
  deriving DecidableEq, Repr, Inhabited

inductive Receiver where
  | own
  | super
  | other (text : String)
  deriving DecidableEq, Repr

structure Call where
  name : String
  receiver : Receiver
  arity : Nat
  deriving DecidableEq, Repr

structure Creation where
  type : String
  arity : Nat
  deriving DecidableEq, Repr

structure FieldUse where
  name : String
  write : Bool
  deriving DecidableEq, Repr

structure BodyFacts where
  calls : List Call := []
  creations : List Creation := []
  fieldUses : List FieldUse := []
  deriving DecidableEq, Repr, Inhabited

def BodyFacts.append (a b : BodyFacts) : BodyFacts :=
  ⟨a.calls ++ b.calls, a.creations ++ b.creations, a.fieldUses ++ b.fieldUses⟩

instance : Append BodyFacts := ⟨BodyFacts.append⟩

structure MethodFacts where
  name : String
  paramTypes : List String
  returnType : Option String
  throws : List String
  modifiers : String
  annotations : List String
  isConstructor : Bool
  source : String
  doc : Option String
  lines : Lines
  body : BodyFacts
  deriving DecidableEq, Repr, Inhabited

/-- The part of a signature that a method shares with those it overrides. -/
def MethodFacts.tail (m : MethodFacts) : String :=
  m.name ++ "(" ++ Text.join "," m.paramTypes ++ ")"

structure TypeFacts where
  name : String
  qualifiedName : String
  kind : TypeKind
  header : String
  modifiers : String
  doc : Option String
  lines : Lines
  outer : Option Nat
  superclasses : List String
  interfaces : List String
  fields : List FieldFacts
  methods : List MethodFacts
  deriving DecidableEq, Repr, Inhabited

structure FileFacts where
  path : String
  package : Option String
  imports : List String
  types : List TypeFacts
  hasErrors : Bool
  deriving DecidableEq, Repr, Inhabited

namespace Extract

/-! ## Names, modifiers and comments -/

def cleanDoc (raw : String) : Option String :=
  let inner := TypeName.trimEndings "*/" (TypeName.trimStarts "/**" raw)
  let rows := (Text.lines inner).map fun l =>
    Text.trim (TypeName.trimStarts "*" (Text.trim l))
  let cleaned := Text.join "\n" (rows.filter (· ≠ ""))
  if cleaned = "" then none else some cleaned

/-- The documentation before a declaration, given what precedes it, nearest first: a block comment,
with at most line comments in between. -/
def doc? : List Tree → Option String
  | [] => none
  | t :: before =>
    match t.kind with
    | .blockComment => if Text.startsWith "/**" t.text then cleanDoc t.text else none
    | .lineComment => doc? before
    | _ => none

def modifierTrees (t : Tree) : List Tree :=
  ((t.children.find? (·.kind = .modifiers)).map Tree.children).getD []

def isAnnotationKind (k : Kind) : Bool := k = .annotationCall || k = .annotationMark

def modifiers (t : Tree) : String :=
  let keywords := (modifierTrees t).filter fun m => !isAnnotationKind m.kind && !m.kind.isComment
  Text.join " " (keywords.map Tree.text)

def annotations (t : Tree) : List String :=
  (modifierTrees t).filterMap fun m =>
    if isAnnotationKind m.kind then (m.child? .name).map fun n => TypeName.lastSegment n.text
    else none

def isTypeName : Kind → Bool
  | .typeIdentifier | .scopedTypeIdentifier | .genericType => true
  | _ => false

/-- A walk over trees: those that it has still to visit, the next one last, and the names found. -/
structure NameWalk where
  pending : Array Tree
  found : Array String

/-- Visits one tree: a type name is found and not entered; of any other tree the named children come
next, the first of them first. -/
def NameWalk.step? (w : NameWalk) : Option NameWalk :=
  w.pending.back?.map fun t =>
    if isTypeName t.kind then ⟨w.pending.pop, w.found.push (TypeName.erase t.text)⟩
    else ⟨w.pending.pop ++ t.named.reverse.toArray, w.found⟩

def NameWalk.run : Nat → NameWalk → NameWalk
  | 0, w => w
  | n + 1, w =>
    match w.step? with
    | some w => run n w
    | none => w

/-- The outermost type names in a tree, erased, in source order. No node is visited twice. -/
def typeNames (t : Tree) : List String := (NameWalk.run t.size ⟨#[t], #[]⟩).found.toList

/-! ## Bodies -/

def nameOf? (t : Tree) : Option String := (t.child? .name).map Tree.text

def declaredName? (t : Tree) : Option String :=
  match t.kind with
  | .variableDeclarator | .catchFormalParameter | .enhancedForStatement => nameOf? t
  | _ => none

def lambdaNames (t : Tree) : List String :=
  if t.kind = .lambdaExpression then
    match t.child? .parameters with
    | some p =>
      if p.kind = .identifier then [p.text]
      else p.named.filterMap fun q => if q.kind = .identifier then some q.text else nameOf? q
    | none => []
  else []

mutual

def locals : Tree → List String
  | t@(.node _ _ _ _ _ cs) => (declaredName? t).toList ++ lambdaNames t ++ localsOfAll cs

def localsOfAll : List Tree → List String
  | [] => []
  | t :: ts => locals t ++ localsOfAll ts

end

def isWrite (parent : Kind) (role : Option Role) : Bool :=
  match parent with
  | .assignmentExpression => role = some .left
  | .updateExpression => true
  | _ => false

/-- Whether an identifier in some role stands for a value there. -/
def isValue (parent : Kind) (role : Option Role) : Bool :=
  match parent with
  | .methodInvocation | .variableDeclarator => role ≠ some .name
  | .scopedIdentifier | .labeledStatement | .breakStatement | .continueStatement
  | .methodReference | .lambdaExpression | .inferredParameters | .catchFormalParameter
  | .enhancedForStatement | .switchLabel | .annotationCall | .annotationMark => false
  | _ => true

def arity (t : Tree) : Nat :=
  ((t.child? .arguments).map fun a => (a.named.filter (!·.kind.isComment)).length).getD 0

def receiver (t : Tree) : Receiver :=
  match t.child? .object with
  | none => .own
  | some o =>
    match o.kind with
    | .this => .own
    | .super => .super
    | _ => .other o.text

def isNestedType : Kind → Bool
  | .classDeclaration | .interfaceDeclaration | .enumDeclaration | .recordDeclaration
  | .classBody => true
  | _ => false

/-- What a node says itself, apart from its children. -/
def ownFacts (names : List String) (parent : Kind) (t : Tree) : BodyFacts :=
  match t.kind with
  | .methodInvocation =>
    { calls := (nameOf? t).toList.map fun n => ⟨n, receiver t, arity t⟩ }
  | .objectCreationExpression =>
    { creations := (t.child? .type).toList.map fun ty => ⟨TypeName.erase ty.text, arity t⟩ }
  | .fieldAccess =>
    if (t.child? .object).any (·.kind = .this) then
      { fieldUses := (t.child? .field).toList.map fun f => ⟨f.text, isWrite parent t.role⟩ }
    else {}
  | .identifier =>
    if !names.contains t.text && isValue parent t.role then
      { fieldUses := [⟨t.text, isWrite parent t.role⟩] }
    else {}
  | _ => {}

/-- Whether a child is visited: the name of an accessed field is not. -/
def isVisited (parent : Kind) (role : Option Role) : Bool :=
  !(parent == .fieldAccess && role == some .field)

mutual

/-- What a tree does, parents before children; `names` are those that hide fields. -/
def bodyFacts (names : List String) (parent : Kind) : Tree → BodyFacts
  | t@(.node k _ _ _ _ cs) =>
    if isNestedType k then {}
    else if k = .identifier then ownFacts names parent t
    else ownFacts names parent t ++ bodyFactsOfAll names k cs

def bodyFactsOfAll (names : List String) (parent : Kind) : List Tree → BodyFacts
  | [] => {}
  | t :: ts =>
    (if isVisited parent t.role then bodyFacts names parent t else {}) ++
      bodyFactsOfAll names parent ts

end

/-! ## Members -/

def recordComponent? (t : Tree) : Option FieldFacts := do
  guard (t.kind = .formalParameter)
  let name ← t.child? .name
  let type ← t.child? .type
  return ⟨name.text, TypeName.withoutBlanks type.text, "private final", t.text, t.range⟩

def fields (t : Tree) : List FieldFacts :=
  match t.child? .type with
  | none => []
  | some type =>
    let mods := modifiers t
    let start := if mods = "" then type.text else mods ++ " " ++ type.text
    (t.children.filter (·.role = some .declarator)).filterMap fun d =>
      (nameOf? d).map fun name =>
        ⟨name, TypeName.withoutBlanks type.text, mods, start ++ " " ++ d.text ++ ";", t.range⟩

def paramTypes (p : Tree) : List String :=
  match p.kind with
  | .formalParameter => ((p.child? .type).map fun t => TypeName.erase t.text).toList
  | .spreadParameter =>
    (p.named.filter fun q => q.kind ≠ .modifiers ∧ q.kind ≠ .variableDeclarator).map fun q =>
      TypeName.erase q.text ++ "..."
  | _ => []

def paramNames (p : Tree) : List String :=
  match p.kind with
  | .formalParameter => (nameOf? p).toList
  | .spreadParameter => (p.named.filter (·.kind = .variableDeclarator)).filterMap nameOf?
  | _ => []

/-- A method or constructor, given what precedes it and the fields found before it. A compact
constructor takes those fields. -/
def method (before : List Tree) (ownerName : String) (found : List FieldFacts) (t : Tree) :
    MethodFacts :=
  let params := ((t.child? .parameters).map Tree.named).getD []
  let names := params.flatMap paramNames
  { name := (nameOf? t).getD ownerName
    paramTypes :=
      if t.kind = .compactConstructorDeclaration then found.map fun f => TypeName.erase f.type
      else params.flatMap paramTypes
    returnType := (t.child? .type).map fun ty => TypeName.withoutBlanks ty.text
    throws := (t.named.filter (·.kind = .throwsClause)).flatMap typeNames
    modifiers := modifiers t
    annotations := annotations t
    isConstructor := t.kind ≠ .methodDeclaration
    source := t.text
    doc := doc? before
    lines := t.range
    body :=
      match t.child? .body with
      | some b => bodyFacts (names ++ locals b) t.kind b
      | none => {} }

/-! ## Types -/

def header (t : Tree) : String :=
  match t.child? .body with
  | some b => Text.trim ((Text.before? b.text t.text).getD t.text)
  | none => Text.trim t.text

def supertypes (kinds : List Kind) (t : Tree) : List String :=
  (t.named.filter fun c => kinds.contains c.kind).flatMap typeNames

def typeFacts (before : List Tree) (scope : Option String) (outer : Option Nat) (kind : TypeKind)
    (name : String) (t : Tree) : TypeFacts where
  name := name
  qualifiedName := match scope with
    | some s => s ++ "." ++ name
    | none => name
  kind := kind
  header := header t
  modifiers := modifiers t
  doc := doc? before
  lines := t.range
  outer := outer
  superclasses := supertypes [.superclass, .extendsInterfaces] t
  interfaces := supertypes [.superInterfaces] t
  fields :=
    if kind = .record then
      (((t.child? .parameters).map Tree.named).getD []).filterMap recordComponent?
    else []
  methods := []

def addFields (i : Nat) (fs : List FieldFacts) (types : List TypeFacts) : List TypeFacts :=
  types.modify i fun o => { o with fields := o.fields ++ fs }

def addMethod (i : Nat) (m : MethodFacts) (types : List TypeFacts) : List TypeFacts :=
  types.modify i fun o => { o with methods := o.methods ++ [m] }

/-- Where a declaration stands: the type around it, and what its full name begins with. -/
structure Scope where
  owner : Option Nat
  ownerName : String
  qualifier : Option String

def addOwn (scope : Scope) (before : List Tree) (types : List TypeFacts) (t : Tree) :
    List TypeFacts :=
  match scope.owner with
  | none => types
  | some i =>
    match t.kind with
    | .methodDeclaration | .constructorDeclaration | .compactConstructorDeclaration =>
      addMethod i (method before scope.ownerName (((types[i]?).map (·.fields)).getD []) t) types
    | .fieldDeclaration | .constantDeclaration => addFields i (fields t) types
    | _ => types

mutual

/-- Adds what a declaration says, with all types nested in it. -/
def addDeclaration (scope : Scope) (before : List Tree) (types : List TypeFacts) :
    Tree → List TypeFacts
  | .node k r text a b cs =>
    let t := Tree.node k r text a b cs
    match TypeKind.ofKind? k, nameOf? t with
    | some kind, some name =>
      let facts := typeFacts before scope.qualifier scope.owner kind name t
      addBodies ⟨some types.length, facts.name, some facts.qualifiedName⟩ (types ++ [facts]) cs
    | _, _ =>
      if k = .enumBodyDeclarations then addDeclarations scope [] types cs
      else addOwn scope before types t

def addBodies (scope : Scope) (types : List TypeFacts) : List Tree → List TypeFacts
  | [] => types
  | .node _ r _ _ _ cs :: ts =>
    addBodies scope (if r = some .body then addDeclarations scope [] types cs else types) ts

/-- Adds declarations in order; `before` are the trees already seen, the latest first. -/
def addDeclarations (scope : Scope) (before : List Tree) (types : List TypeFacts) :
    List Tree → List TypeFacts
  | [] => types
  | t :: ts => addDeclarations scope (t :: before) (addDeclaration scope before types t) ts

end

def isName (k : Kind) : Bool := k = .identifier || k = .scopedIdentifier

def packageName? (t : Tree) : Option String :=
  if t.kind = .packageDeclaration then (t.named.find? fun c => isName c.kind).map Tree.text
  else none

def importName? (t : Tree) : Option String :=
  if t.kind = .importDeclaration then
    ((t.named.filter fun c => isName c.kind).getLast?).map fun name =>
      if t.named.any (·.kind = .asterisk) then name.text ++ ".*" else name.text
  else none

def unitTypes (package : Option String) (before : List Tree) (types : List TypeFacts) :
    List Tree → List TypeFacts
  | [] => types
  | t :: ts =>
    let package := packageName? t <|> package
    let types :=
      if (TypeKind.ofKind? t.kind).isSome then
        addDeclaration ⟨none, "", package⟩ before types t
      else types
    unitTypes package (t :: before) types ts

end Extract

def FileFacts.ofSource (parse : Parser) (path source : String) : FileFacts :=
  match parse source with
  | some unit =>
    let parts := unit.children
    { path
      package := (parts.filterMap Extract.packageName?).getLast?
      imports := parts.filterMap Extract.importName?
      types := Extract.unitTypes none [] [] parts
      hasErrors := false }
  | none => { path, package := none, imports := [], types := [], hasErrors := true }

end Lineage.Java
