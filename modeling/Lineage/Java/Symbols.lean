import Lineage.Java.TypeName
import Lineage.Node
/-! # Symbols of a project

The types of a project and their members, supertypes and names, as they are registered; type
references and calls are resolved against them. Registration order decides wherever several symbols
would do.
-/
namespace Lineage.Java

structure MethodSymbol where
  id : NodeId
  name : String
  tail : String
  params : Nat
  varargs : Bool
  isConstructor : Bool
  deriving DecidableEq, Repr, Inhabited

/-- Whether a call with so many arguments can mean the method. -/
def MethodSymbol.accepts (m : MethodSymbol) (arity : Nat) : Bool :=
  if m.varargs then m.params ≤ arity + 1 else arity = m.params

structure FieldSymbol where
  id : NodeId
  name : String
  type : String
  deriving DecidableEq, Repr, Inhabited

structure TypeContext where
  package : Option String := none
  imports : List String := []
  enclosing : List String := []
  deriving DecidableEq, Repr, Inhabited

structure Symbols where
  types : List (String × NodeId)
  methods : List (NodeId × MethodSymbol)
  fields : List (NodeId × FieldSymbol)
  supertypes : List (NodeId × NodeId)
  deriving DecidableEq, Repr, Inhabited

namespace Symbols

def empty : Symbols := ⟨[], [], [], []⟩

def type? (s : Symbols) (qualifiedName : String) : Option NodeId := s.types.lookup qualifiedName

def addType? (s : Symbols) (qualifiedName : String) (id : NodeId) : Option Symbols :=
  match s.type? qualifiedName with
  | some _ => none
  | none => some { s with types := s.types ++ [(qualifiedName, id)] }

def addMethod (s : Symbols) (owner : NodeId) (m : MethodSymbol) : Symbols :=
  { s with methods := s.methods ++ [(owner, m)] }

def addField (s : Symbols) (owner : NodeId) (f : FieldSymbol) : Symbols :=
  { s with fields := s.fields ++ [(owner, f)] }

def addSupertype (s : Symbols) (owner supertype : NodeId) : Symbols :=
  { s with supertypes := s.supertypes ++ [(owner, supertype)] }

def candidates (s : Symbols) (simple : String) : List String :=
  (s.types.map (·.1)).filter fun name => TypeName.lastSegment name = simple

/-- The full names that a simple name can stand for in a context, the nearest first: types nested in
the types around, explicit imports, the package, and imports of whole packages. -/
def meanings (context : TypeContext) (simple : String) : List String :=
  (context.enclosing.map (· ++ "." ++ simple)) ++
  (context.imports.filter fun i => TypeName.lastSegment i = simple) ++
  (context.package.toList.map (· ++ "." ++ simple)) ++
  (context.imports.filterMap fun i => (Text.before? ".*" i).map (· ++ "." ++ simple))

/-- A name with dots: as it stands, or below the package or a type around. -/
def resolveDotted? (s : Symbols) (name : String) (context : TypeContext) : Option NodeId :=
  s.type? name <|>
    (context.package.toList ++ context.enclosing).findSome? fun start =>
      s.type? (start ++ "." ++ name)

/-- A simple name: the only type of that name in the project, else its nearest meaning. -/
def resolveSimple? (s : Symbols) (simple : String) (context : TypeContext) : Option NodeId :=
  match s.candidates simple with
  | [only] => s.type? only
  | several => ((meanings context simple).find? several.contains).bind s.type?

/-- The type that a reference in a source means. -/
def resolve? (s : Symbols) (raw : String) (context : TypeContext) : Option NodeId :=
  let name := TypeName.element raw
  (if Text.contains "." name then s.resolveDotted? name context else none) <|>
    s.resolveSimple? (TypeName.simple name) context

def methodsOf (s : Symbols) (owner : NodeId) : List MethodSymbol :=
  (s.methods.filter (·.1 = owner)).map (·.2)

def methodsNamed (s : Symbols) (owner : NodeId) (name : String) (arity : Nat) : List NodeId :=
  ((s.methodsOf owner).filter fun m =>
    !m.isConstructor && m.name = name && m.accepts arity).map (·.id)

def methodsCalled (s : Symbols) (owner : NodeId) (name : String) : List NodeId :=
  ((s.methodsOf owner).filter fun m => !m.isConstructor && m.name = name).map (·.id)

def constructors (s : Symbols) (owner : NodeId) (arity : Nat) : List NodeId :=
  ((s.methodsOf owner).filter fun m => m.isConstructor && m.accepts arity).map (·.id)

def methodWithTail? (s : Symbols) (owner : NodeId) (tail : String) : Option NodeId :=
  ((s.methodsOf owner).find? fun m => !m.isConstructor && m.tail = tail).map (·.id)

/-- The only method of the project with a name and a number of parameters. -/
def uniqueMethod? (s : Symbols) (name : String) (params : Nat) : Option NodeId :=
  match (s.methods.map (·.2)).filter fun m =>
      !m.isConstructor && m.name = name && m.params = params with
  | [only] => some only.id
  | _ => none

def field? (s : Symbols) (owner : NodeId) (name : String) : Option FieldSymbol :=
  (s.fields.find? fun f => f.1 = owner && f.2.name = name).map (·.2)

def directSupertypes (s : Symbols) (owner : NodeId) : List NodeId :=
  (s.supertypes.filter (·.1 = owner)).map (·.2)

/-- The queue with the types at its end that are neither done nor in it. -/
def enqueue (done : List NodeId) (queue found : List NodeId) : List NodeId :=
  found.foldl (fun q t => if t ∈ done ∨ t ∈ q then q else q ++ [t]) queue

/-- Follows supertype links breadth first for so many steps. -/
def climb (s : Symbols) : Nat → List NodeId → List NodeId → List NodeId
  | 0, done, queue => done ++ queue
  | _ + 1, done, [] => done
  | steps + 1, done, t :: queue =>
    s.climb steps (done ++ [t]) (enqueue (done ++ [t]) queue (s.directSupertypes t))

def ancestors (s : Symbols) (owner : NodeId) : List NodeId :=
  (s.climb (s.supertypes.length + 1) [] [owner]).drop 1

end Symbols

end Lineage.Java
