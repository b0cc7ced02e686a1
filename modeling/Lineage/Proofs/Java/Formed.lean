import Lineage.Proofs.Java.Spelling
/-! # Well-formed trees

In a well-formed tree a type's body stands at the end of its declaration, so what precedes the body is
all that is left of the declaration. No import name has a comma outside comments, the names of types
and members are words, and their types are told apart by what their texts are erased to. A reliable
parser gives no other trees.
-/
namespace Lineage.Java

/-- The text of a declaration is that of its body, after some text. -/
def Tree.BodyLast (t : Tree) : Prop :=
  ∃ b before, t.child? .body = some b ∧ t.text = before ++ b.text

def SolidName (t : Tree) : Prop := Extract.isName t.kind → Solid t.text ∧ t.text ≠ ""

/-- A name is a word, and a type is one. -/
structure Fitting (t : Tree) : Prop where
  name : t.role = some .name → IsWord t.text
  type : t.role = some .type → t.TypeLike

def Kind.isDeclaration : Kind → Bool
  | .classDeclaration | .interfaceDeclaration | .enumDeclaration | .recordDeclaration
  | .annotationTypeDeclaration | .methodDeclaration | .constructorDeclaration
  | .compactConstructorDeclaration | .fieldDeclaration | .constantDeclaration
  | .formalParameter => true
  | _ => false

def Kind.isBeside : Kind → Bool
  | .word | .modifiers | .variableDeclarator | .lineComment | .blockComment | .annotationCall
  | .annotationMark => true
  | _ => false

/-- What stands among modifiers is an annotation, a comment or a word. -/
def Modifying (t : Tree) : Prop :=
  Extract.isAnnotationKind t.kind = false → t.kind.isComment = false →
    t.text ≠ "" ∧ ' ' ∉ t.text.toList

/-- How declarations look in the tree of a source. -/
structure Tree.Formed (t : Tree) : Prop where
  body : (TypeKind.ofKind? t.kind).isSome → t.BodyLast
  names : t.kind = .importDeclaration → ∀ c ∈ t.children, SolidName c
  declared : t.kind.isDeclaration → ∀ c ∈ t.children, Fitting c
  spread : t.kind = .spreadParameter → ∀ c ∈ t.children, c.kind.isBeside = false → c.TypeLike
  closed : t.kind = .formalParameter → Closed t.text
  modifying : t.kind = .modifiers → ∀ c ∈ t.children, Modifying c

/-- All declarations are well-formed in the trees that the parser gives. -/
def Parser.Reliable (parse : Parser) : Prop :=
  ∀ source unit, parse source = some unit → ∀ t ∈ unit.children, t.All Tree.Formed

theorem isDeclaration_of_ofKind? {k : Kind} (h : (TypeKind.ofKind? k).isSome) :
    k.isDeclaration = true := by
  revert h
  cases k <;> simp [TypeKind.ofKind?, Kind.isDeclaration]

end Lineage.Java
