import Lineage.Java.Rule
/-! # Java grammar

The rules of Java's syntax. Where a text in parentheses before an operand can be read as a type or
as an expression, it is a type; a dotted name before a double colon is an expression.
-/
namespace Lineage.Java

inductive Nonterminal where
  | program
  | name
  | annotationUse
  | elementValue
  | modifiers
  | type
  | unannotatedType
  | simpleType
  | typeArguments
  | typeParameters
  | dimensions
  | typeList
  | superInterfaces
  | permits
  | classEnd
  | interfaceEnd
  | enumEnd
  | recordEnd
  | annotationTypeEnd
  | methodEnd
  | declaratorsEnd
  | classBody
  | classMember
  | interfaceMember
  | annotationTypeMember
  | enumConstant
  | formalParameters
  | throwsClause
  | declarator
  | initializer
  | block
  | statement
  | localVariable
  | catchClause
  | finallyClause
  | switchExpression
  | switchLabel
  | recordPattern
  | expression
  | lambda
  | ternary
  /-- The operators of a level and all that bind closer. -/
  | binary (level : Nat)
  | unary
  | primary
  | creationEnd
  | argumentList
  deriving DecidableEq, Repr

namespace Grammar

open Rule

abbrev R := Rule Nonterminal

abbrev sym (n : Nonterminal) : R := .symbol n

def identifier : R := leaf .identifier .identifier

def typeName : R := leaf .typeIdentifier .identifier

def thisWord : R := namedWord .this "this"

def superWord : R := namedWord .super "super"

def nameRole : R := role .name identifier

def typeRole : R := role .type (sym .unannotatedType)

def argumentsRole : R := role .arguments (sym .argumentList)

def parametersRole : R := role .parameters (sym .formalParameters)

def annotations : R := many (sym .annotationUse)

def optModifiers : R := opt (sym .modifiers)

def optTypeArguments : R := opt (sym .typeArguments)

def optTypeParameters : R := opt (sym .typeParameters)

def optDimensions : R := opt (sym .dimensions)

def braced (item : R) : R := seq [word "\x7b", sepBy item ",", opt (word ","), word "\x7d"]

def modifierWords : List String :=
  ["public", "protected", "private", "abstract", "static", "final", "strictfp", "default",
   "synchronized", "native", "transient", "volatile", "non-sealed"]

def primitiveNames : List String :=
  ["byte", "short", "int", "long", "char", "float", "double", "boolean"]

/-- The binary operators from the loosest level to the closest. Shifts are written with single
angle brackets in a row. -/
def operators : Nat → R
  | 0 => word "||"
  | 1 => word "&&"
  | 2 => word "|"
  | 3 => word "^"
  | 4 => word "&"
  | 5 => words ["==", "!="]
  | 6 =>
    choice [words ["<=", ">=", "<"], seq [word ">", absent (glued ">"), absent (glued ">=")]]
  | 7 =>
    choice [word "<<", seq [word ">", glued ">", opt (glued ">"), absent (glued ">=")]]
  | 8 => words ["+", "-"]
  | _ => words ["*", "/", "%"]

def closestLevel : Nat := 9

def assignmentOperators : R :=
  choice
    [words ["=", "+=", "-=", "*=", "/=", "&=", "|=", "^=", "%=", "<<="],
     seq [word ">", glued ">="], seq [word ">", glued ">", glued ">="]]

def typeEnds : List (Kind × R) :=
  [(.classDeclaration, sym .classEnd), (.interfaceDeclaration, sym .interfaceEnd),
   (.enumDeclaration, sym .enumEnd), (.recordDeclaration, sym .recordEnd),
   (.annotationTypeDeclaration, sym .annotationTypeEnd)]

def constructorEnds : List (Kind × R) :=
  [(.constructorDeclaration,
      seq [optTypeParameters, nameRole, parametersRole, opt (sym .throwsClause),
        role .body (node .constructorBody
          (seq [word "\x7b",
            opt (node .explicitConstructorInvocation
              (seq [choice [seq [optTypeArguments, choice [thisWord, superWord]],
                    seq [sym .primary, word ".", optTypeArguments, superWord]],
                  argumentsRole, word ";"])),
            many (sym .statement), word "\x7d"]))]),
   (.compactConstructorDeclaration, seq [nameRole, role .body (sym .block)])]

def memberName : R := seq [word ".", optTypeArguments, nameRole, argumentsRole]

def lambdaBody : R := choice [sym .block, sym .expression]

def anyToken : R :=
  choice ([TokenClass.identifier, .keyword, .number, .character, .string, .symbol].map (leaf .word))

def rules : Nonterminal → R
  | .program =>
    node .program
      (seq
        [many (choice
          [word ";",
           node .packageDeclaration (seq [annotations, word "package", sym .name, word ";"]),
           node .importDeclaration
             (seq [word "import", opt (word "static"), sym .name,
               opt (seq [word ".", namedWord .asterisk "*"]), word ";"]),
           begun optModifiers (typeEnds ++ [(.methodDeclaration, sym .methodEnd)]),
           node .moduleDeclaration
             (seq [annotations, opt (word "open"), word "module", sym .name, word "\x7b",
               many (seq [absent (word "\x7d"), anyToken]), word "\x7d"]),
           sym .statement]),
         leaf .word .endOfFile])
  | .name => chain identifier [(.scopedIdentifier, none, seq [word ".", identifier])]
  | .annotationUse =>
    begun (seq [word "@", role .name (sym .name)])
      [(.annotationCall, role .arguments (node .annotationArgumentList
          (seq [word "(",
            choice
              [sepBy1 (node .elementValuePair (seq [identifier, word "=", sym .elementValue])) ",",
               sym .elementValue, seq []],
            word ")"]))),
       (.annotationMark, seq [])]
  | .elementValue =>
    choice
      [sym .annotationUse, node .elementValueArrayInitializer (braced (sym .elementValue)),
       sym .ternary]
  | .modifiers =>
    let modifier :=
      choice
        [sym .annotationUse, words modifierWords,
         seq [word "sealed",
           ahead (seq [annotations, words (["class", "interface"] ++ modifierWords)])]]
    node .modifiers (seq [modifier, many modifier])
  -- Types
  | .type =>
    choice
      [node .annotatedType (seq [sym .annotationUse, annotations, sym .unannotatedType]),
       sym .unannotatedType]
  | .unannotatedType => chain (sym .simpleType) [(.arrayType, none, sym .dimensions)]
  | .simpleType =>
    choice
      [namedWord .voidType "void",
       choice (primitiveNames.map (namedWord .primitiveType)),
       chain typeName
         [(.genericType, none, sym .typeArguments),
          (.scopedTypeIdentifier, none, seq [word ".", annotations, typeName])]]
  | .typeArguments =>
    let wildcard :=
      node .wildcard
        (seq [annotations, word "?", opt (seq [words ["extends", "super"], sym .type])])
    node .typeArguments (seq [word "<", sepBy (choice [wildcard, sym .type]) ",", word ">"])
  | .typeParameters =>
    let bound := node .typeBound (seq [word "extends", sepBy1 (sym .type) "&"])
    node .typeParameters
      (seq [word "<", sepBy1 (node .typeParameter (seq [annotations, typeName, opt bound])) ",",
        word ">"])
  | .dimensions =>
    let dimension := seq [annotations, word "[", word "]"]
    node .dimensions (seq [dimension, many dimension])
  | .typeList => node .typeList (sepBy1 (sym .type) ",")
  -- Declarations
  | .superInterfaces => node .superInterfaces (seq [word "implements", sym .typeList])
  | .permits => node .permits (seq [word "permits", sym .typeList])
  | .classEnd =>
    seq [word "class", nameRole, optTypeParameters,
      opt (node .superclass (seq [word "extends", sym .type])), opt (sym .superInterfaces),
      opt (sym .permits), role .body (sym .classBody)]
  | .interfaceEnd =>
    seq [word "interface", nameRole, optTypeParameters,
      opt (node .extendsInterfaces (seq [word "extends", sym .typeList])), opt (sym .permits),
      role .body (node .interfaceBody
        (seq [word "\x7b", many (sym .interfaceMember), word "\x7d"]))]
  | .enumEnd =>
    let members := node .enumBodyDeclarations (seq [word ";", many (sym .classMember)])
    seq [word "enum", nameRole, opt (sym .superInterfaces),
      role .body (node .enumBody
        (seq [word "\x7b", sepBy (sym .enumConstant) ",", opt (word ","), opt members,
          word "\x7d"]))]
  | .recordEnd =>
    seq [word "record", nameRole, optTypeParameters, parametersRole, opt (sym .superInterfaces),
      role .body (sym .classBody)]
  | .annotationTypeEnd =>
    seq [word "@", word "interface", nameRole,
      role .body (node .annotationTypeBody
        (seq [word "\x7b", many (sym .annotationTypeMember), word "\x7d"]))]
  | .methodEnd =>
    seq [opt (seq [sym .typeParameters, annotations]), typeRole, nameRole, parametersRole,
      optDimensions, opt (sym .throwsClause), choice [role .body (sym .block), word ";"]]
  | .declaratorsEnd =>
    seq [typeRole, sepBy1 (role .declarator (sym .declarator)) ",", word ";"]
  | .classBody => node .classBody (seq [word "\x7b", many (sym .classMember), word "\x7d"])
  | .classMember =>
    choice
      [word ";", sym .block,
       node .staticInitializer (seq [word "static", sym .block]),
       begun optModifiers
         (typeEnds ++ constructorEnds ++
           [(.methodDeclaration, sym .methodEnd), (.fieldDeclaration, sym .declaratorsEnd)])]
  | .interfaceMember =>
    choice
      [word ";",
       begun optModifiers
         (typeEnds ++
           [(.methodDeclaration, sym .methodEnd), (.constantDeclaration, sym .declaratorsEnd)])]
  | .annotationTypeMember =>
    let element :=
      seq [typeRole, nameRole, word "(", word ")", optDimensions,
        opt (seq [word "default", sym .elementValue]), word ";"]
    choice
      [word ";",
       begun optModifiers
         (typeEnds ++
           [(.annotationTypeElementDeclaration, element),
            (.constantDeclaration, sym .declaratorsEnd)])]
  | .enumConstant =>
    node .enumConstant
      (seq [optModifiers, nameRole, opt argumentsRole, opt (role .body (sym .classBody))])
  | .formalParameters =>
    let receiver :=
      node .receiverParameter
        (seq [annotations, sym .unannotatedType, many (seq [identifier, word "."]), thisWord])
    let parameter :=
      begun optModifiers
        [(.spreadParameter,
            seq [sym .unannotatedType, word "...", annotations, sym .declarator]),
         (.formalParameter, seq [typeRole, nameRole, optDimensions])]
    node .formalParameters
      (seq [word "(", opt (seq [receiver, opt (word ",")]), sepBy parameter ",", word ")"])
  | .throwsClause => node .throwsClause (seq [word "throws", sepBy1 (sym .type) ","])
  | .declarator =>
    node .variableDeclarator
      (seq [nameRole, optDimensions, opt (seq [word "=", sym .initializer])])
  | .initializer =>
    choice [node .arrayInitializer (braced (sym .initializer)), sym .expression]
  -- Statements
  | .block => node .block (seq [word "\x7b", many (sym .statement), word "\x7d"])
  | .statement =>
    choice
      [word ";",
       sym .block,
       node .ifStatement
         (seq [word "if", word "(", sym .expression, word ")", sym .statement,
           opt (seq [word "else", sym .statement])]),
       node .whileStatement
         (seq [word "while", word "(", sym .expression, word ")", sym .statement]),
       node .enhancedForStatement
         (seq [word "for", word "(", optModifiers, typeRole, nameRole, optDimensions, word ":",
           sym .expression, word ")", role .body (sym .statement)]),
       node .forStatement
         (seq [word "for", word "(",
           choice [sym .localVariable, seq [sepBy (sym .expression) ",", word ";"]],
           opt (sym .expression), word ";", sepBy (sym .expression) ",", word ")",
           role .body (sym .statement)]),
       node .doStatement
         (seq [word "do", sym .statement, word "while", word "(", sym .expression, word ")",
           word ";"]),
       sym .switchExpression,
       node .tryStatement
         (seq [word "try", sym .block, many (sym .catchClause), opt (sym .finallyClause)]),
       node .tryWithResourcesStatement
         (seq [word "try",
           node .resourceSpecification
             (seq [word "(",
               sepBy1
                 (node .resource
                   (choice
                     [seq [optModifiers, typeRole, nameRole, optDimensions, word "=",
                       sym .expression], sym .primary])) ";",
               opt (word ";"), word ")"]),
           sym .block, many (sym .catchClause), opt (sym .finallyClause)]),
       node .returnStatement (seq [word "return", opt (sym .expression), word ";"]),
       node .throwStatement (seq [word "throw", sym .expression, word ";"]),
       node .breakStatement (seq [word "break", opt identifier, word ";"]),
       node .continueStatement (seq [word "continue", opt identifier, word ";"]),
       node .yieldStatement (seq [word "yield", sym .expression, word ";"]),
       node .assertStatement
         (seq [word "assert", sym .expression, opt (seq [word ":", sym .expression]), word ";"]),
       node .synchronizedStatement
         (seq [word "synchronized", word "(", sym .expression, word ")", sym .block]),
       node .labeledStatement (seq [identifier, word ":", sym .statement]),
       begun optModifiers (typeEnds ++ [(.localVariableDeclaration, sym .declaratorsEnd)]),
       node .expressionStatement (seq [sym .expression, word ";"])]
  | .localVariable => begun optModifiers [(.localVariableDeclaration, sym .declaratorsEnd)]
  | .catchClause =>
    node .catchClause
      (seq [word "catch", word "(",
        node .catchFormalParameter
          (seq [optModifiers, node .catchType (sepBy1 (sym .unannotatedType) "|"), nameRole,
            optDimensions]),
        word ")", role .body (sym .block)])
  | .finallyClause => node .finallyClause (seq [word "finally", sym .block])
  -- Switches and patterns
  | .switchExpression =>
    let rule :=
      node .switchRule
        (seq [sym .switchLabel, word "->",
          choice
            [sym .block, node .throwStatement (seq [word "throw", sym .expression, word ";"]),
             node .expressionStatement (seq [sym .expression, word ";"])]])
    let label := seq [sym .switchLabel, word ":"]
    let group := node .switchBlockStatementGroup (seq [label, many label, many (sym .statement)])
    node .switchExpression
      (seq [word "switch",
        node .parenthesizedExpression (seq [word "(", sym .expression, word ")"]),
        role .body (node .switchBlock
          (seq [word "\x7b", choice [seq [rule, many rule], many group], word "\x7d"]))])
  | .switchLabel =>
    let typePattern := node .typePattern (seq [sym .unannotatedType, identifier])
    node .switchLabel
      (choice
        [seq [word "case",
          choice
            [node .pattern (choice [sym .recordPattern, typePattern]),
             sepBy1 (choice [word "default", sym .ternary]) ","],
          opt (node .guard (seq [word "when", sym .ternary]))],
         word "default"])
  | .recordPattern =>
    let component :=
      node .recordPatternComponent
        (choice [seq [sym .unannotatedType, identifier], word "_"])
    node .recordPattern
      (seq [choice [seq [identifier, ahead (word "(")], sym .simpleType],
        node .recordPatternBody
          (seq [word "(", sepBy (choice [sym .recordPattern, component]) ",", word ")"])])
  -- Expressions
  | .expression =>
    choice
      [sym .lambda,
       chain (sym .ternary)
         [(.assignmentExpression, some .left, seq [assignmentOperators, sym .expression])]]
  | .lambda =>
    let inferred := node .inferredParameters (seq [word "(", sepBy1 identifier ",", word ")"])
    node .lambdaExpression
      (seq [role .parameters (choice [identifier, inferred, sym .formalParameters]), word "->",
        role .body lambdaBody])
  | .ternary =>
    chain (sym (.binary 0))
      [(.ternaryExpression, none,
          seq [word "?", sym .expression, word ":", choice [sym .lambda, sym .ternary]])]
  | .binary level =>
    let closer := if level < closestLevel then sym (.binary (level + 1)) else sym .unary
    let plain := (Kind.binaryExpression, (none : Option Role), seq [operators level, closer])
    let test :=
      (Kind.instanceofExpression, (none : Option Role),
        seq [word "instanceof", opt (word "final"),
          choice [sym .recordPattern, seq [sym .type, opt identifier]]])
    chain closer (if level = 6 then [plain, test] else [plain])
  | .unary =>
    choice
      [node .unaryExpression (seq [words ["+", "-", "!", "~"], sym .unary]),
       node .updateExpression (seq [words ["++", "--"], sym .unary]),
       node .castExpression
         (seq [word "(", role .type (sym .type), many (seq [word "&", sym .type]), word ")",
           choice [sym .lambda, sym .unary]]),
       sym .switchExpression,
       chain (sym .primary) [(.updateExpression, none, words ["++", "--"])]]
  | .primary =>
    let referenced := seq [word "::", optTypeArguments, choice [word "new", identifier]]
    chain
      (choice
        [leaf .literal .number, leaf .literal .character, leaf .literal .string,
         namedWord .literal "true", namedWord .literal "false", namedWord .literal "null",
         node .methodInvocation (seq [nameRole, argumentsRole]),
         node .classLiteral (seq [sym .unannotatedType, word ".", word "class"]),
         node .methodReference
           (seq [absent (seq [sym .name, word "::"]), sym .type, referenced]),
         identifier,
         thisWord,
         seq [superWord, ahead (words [".", "::"])],
         node .parenthesizedExpression (seq [word "(", sym .expression, word ")"]),
         node .objectCreationExpression (sym .creationEnd),
         node .arrayCreationExpression
           (seq [word "new", annotations, role .type (sym .simpleType),
             choice
               [seq [sym .dimensions, node .arrayInitializer (braced (sym .initializer))],
                let extent :=
                  node .dimensionsExpr (seq [annotations, word "[", sym .expression, word "]"])
                seq [extent, many extent, optDimensions]]])])
      [(.methodInvocation, some .object, memberName),
       (.methodInvocation, some .object, seq [word ".", superWord, memberName]),
       (.fieldAccess, some .object,
          seq [opt (seq [word ".", superWord]), word ".",
            role .field (choice [identifier, thisWord])]),
       (.objectCreationExpression, none, seq [word ".", sym .creationEnd]),
       (.templateExpression, none, seq [word ".", leaf .literal .string]),
       (.arrayAccess, none, seq [word "[", sym .expression, word "]"]),
       (.methodReference, none, seq [opt (seq [word ".", superWord]), referenced])]
  | .creationEnd =>
    seq [word "new", annotations, optTypeArguments, annotations, role .type (sym .simpleType),
      argumentsRole, opt (sym .classBody)]
  | .argumentList => node .argumentList (seq [word "(", sepBy (sym .expression) ",", word ")"])

end Grammar

/-- The tree of a source; none if the source is not Java. -/
def Tree.ofSource? (source : String) : Option Tree :=
  (Rule.parse Grammar.rules .program (Token.ofSource source)).map fun p =>
    match p.tree with
    | .node k r t a b cs => .node k r t a b (p.comments ++ cs)

end Lineage.Java
