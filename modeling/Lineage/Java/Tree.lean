/-! # Java parse trees

Concrete trees of Java sources. A node has a kind, the role it plays for its parent, its text and
lines, and all its children: keywords and punctuation are leaves of kind `word`, and a comment is a
child of the smallest node that has tokens on both sides of it.
-/
namespace Lineage.Java

inductive Kind where
  | word
  | lineComment
  | blockComment
  -- Compilation units
  | program
  | packageDeclaration
  | importDeclaration
  | asterisk
  | moduleDeclaration
  | identifier
  | scopedIdentifier
  -- Types
  | typeIdentifier
  | scopedTypeIdentifier
  | genericType
  | arrayType
  | annotatedType
  | primitiveType
  | voidType
  | typeArguments
  | wildcard
  | typeParameters
  | typeParameter
  | typeBound
  | dimensions
  -- Annotations
  | modifiers
  | annotationCall
  | annotationMark
  | annotationArgumentList
  | elementValuePair
  | elementValueArrayInitializer
  -- Declarations
  | classDeclaration
  | interfaceDeclaration
  | enumDeclaration
  | recordDeclaration
  | annotationTypeDeclaration
  | superclass
  | superInterfaces
  | extendsInterfaces
  | permits
  | typeList
  | classBody
  | interfaceBody
  | enumBody
  | enumBodyDeclarations
  | enumConstant
  | annotationTypeBody
  | annotationTypeElementDeclaration
  | fieldDeclaration
  | constantDeclaration
  | methodDeclaration
  | constructorDeclaration
  | compactConstructorDeclaration
  | constructorBody
  | explicitConstructorInvocation
  | staticInitializer
  | variableDeclarator
  | arrayInitializer
  | formalParameters
  | formalParameter
  | spreadParameter
  | receiverParameter
  | throwsClause
  -- Statements
  | block
  | localVariableDeclaration
  | expressionStatement
  | labeledStatement
  | ifStatement
  | whileStatement
  | doStatement
  | forStatement
  | enhancedForStatement
  | tryStatement
  | tryWithResourcesStatement
  | resourceSpecification
  | resource
  | catchClause
  | catchFormalParameter
  | catchType
  | finallyClause
  | returnStatement
  | throwStatement
  | breakStatement
  | continueStatement
  | yieldStatement
  | assertStatement
  | synchronizedStatement
  -- Switches and patterns
  | switchExpression
  | switchBlock
  | switchBlockStatementGroup
  | switchRule
  | switchLabel
  | guard
  | pattern
  | typePattern
  | recordPattern
  | recordPatternBody
  | recordPatternComponent
  -- Expressions
  | literal
  | this
  | super
  | parenthesizedExpression
  | assignmentExpression
  | ternaryExpression
  | binaryExpression
  | instanceofExpression
  | unaryExpression
  | updateExpression
  | castExpression
  | lambdaExpression
  | inferredParameters
  | methodInvocation
  | methodReference
  | objectCreationExpression
  | arrayCreationExpression
  | dimensionsExpr
  | fieldAccess
  | arrayAccess
  | classLiteral
  | templateExpression
  | argumentList
  deriving DecidableEq, Repr, Inhabited

def Kind.isComment : Kind → Bool
  | .lineComment | .blockComment => true
  | _ => false

/-- What a child is for its parent, where the grammar tells several apart. -/
inductive Role where
  | name
  | type
  | body
  | parameters
  | arguments
  | declarator
  | object
  | field
  | left
  deriving DecidableEq, Repr

inductive Tree where
  | node (kind : Kind) (role : Option Role) (text : String) (firstLine lastLine : Nat)
      (children : List Tree)
  deriving Inhabited

namespace Tree

def kind : Tree → Kind
  | node k .. => k

def role : Tree → Option Role
  | node _ r .. => r

def text : Tree → String
  | node _ _ t .. => t

def lines : Tree → Nat × Nat
  | node _ _ _ a b _ => (a, b)

def children : Tree → List Tree
  | node _ _ _ _ _ cs => cs

def withRole (r : Role) : Tree → Tree
  | node k _ t a b cs => node k (some r) t a b cs

/-- The children that are not mere words. -/
def named (t : Tree) : List Tree := t.children.filter (·.kind ≠ .word)

def child? (t : Tree) (r : Role) : Option Tree := t.children.find? (·.role = some r)

mutual

def size : Tree → Nat
  | node _ _ _ _ _ cs => sizeOfAll cs + 1

def sizeOfAll : List Tree → Nat
  | [] => 0
  | t :: ts => size t + sizeOfAll ts

end

end Tree

/-- Reads the tree of a source; none if the source is no Java. -/
abbrev Parser := String → Option Tree

end Lineage.Java
