import Lineage.Warning
/-! # Kinds of refactorings

The operations that a detector reports, by type name. `Kind.ofName` knows the names and some older
spellings; `Kind.parse` first brings a name as it is written in reports into that form.
-/
namespace Lineage.Refactoring

/-- The grouping that decides which evolution edge an operation gives and how methods are followed
through it. -/
inductive Family where
  | rename
  | move
  | extract
  | inline
  | changeSignature
  | other
  deriving DecidableEq, Repr

def Family.name : Family → String
  | rename => "Rename"
  | move => "Move"
  | extract => "Extract"
  | inline => "Inline"
  | changeSignature => "ChangeSignature"
  | other => "Other"

inductive Kind where
  | renameClass
  | renameMethod
  | renameAttribute
  | renameParameter
  | renameVariable
  | renamePackage
  | moveClass
  | moveMethod
  | moveAttribute
  | moveAndRenameClass
  | moveAndRenameMethod
  | moveAndRenameAttribute
  | extractMethod
  | extractClass
  | extractInterface
  | extractSuperclass
  | extractSubclass
  | extractVariable
  | extractAndMoveMethod
  | inlineMethod
  | inlineVariable
  | moveAndInlineMethod
  | changeParameterType
  | changeReturnType
  | addParameter
  | removeParameter
  | reorderParameter
  | addThrownExceptionType
  | removeThrownExceptionType
  | changeMethodAccessModifier
  | changeAttributeAccessModifier
  | pullUpMethod
  | pullUpAttribute
  | pushDownMethod
  | pushDownAttribute
  | replaceVariableWithAttribute
  | parameterizeVariable
  | mergeParameter
  | mergeVariable
  | mergeClass
  | splitParameter
  | splitVariable
  | splitClass
  | other (name : String)
  deriving DecidableEq, Repr, Inhabited

namespace Kind

def name : Kind → String
  | renameClass => "RENAME_CLASS"
  | renameMethod => "RENAME_METHOD"
  | renameAttribute => "RENAME_ATTRIBUTE"
  | renameParameter => "RENAME_PARAMETER"
  | renameVariable => "RENAME_VARIABLE"
  | renamePackage => "RENAME_PACKAGE"
  | moveClass => "MOVE_CLASS"
  | moveMethod => "MOVE_METHOD"
  | moveAttribute => "MOVE_ATTRIBUTE"
  | moveAndRenameClass => "MOVE_AND_RENAME_CLASS"
  | moveAndRenameMethod => "MOVE_AND_RENAME_METHOD"
  | moveAndRenameAttribute => "MOVE_AND_RENAME_ATTRIBUTE"
  | extractMethod => "EXTRACT_METHOD"
  | extractClass => "EXTRACT_CLASS"
  | extractInterface => "EXTRACT_INTERFACE"
  | extractSuperclass => "EXTRACT_SUPERCLASS"
  | extractSubclass => "EXTRACT_SUBCLASS"
  | extractVariable => "EXTRACT_VARIABLE"
  | extractAndMoveMethod => "EXTRACT_AND_MOVE_METHOD"
  | inlineMethod => "INLINE_METHOD"
  | inlineVariable => "INLINE_VARIABLE"
  | moveAndInlineMethod => "MOVE_AND_INLINE_METHOD"
  | changeParameterType => "CHANGE_PARAMETER_TYPE"
  | changeReturnType => "CHANGE_RETURN_TYPE"
  | addParameter => "ADD_PARAMETER"
  | removeParameter => "REMOVE_PARAMETER"
  | reorderParameter => "REORDER_PARAMETER"
  | addThrownExceptionType => "ADD_THROWN_EXCEPTION_TYPE"
  | removeThrownExceptionType => "REMOVE_THROWN_EXCEPTION_TYPE"
  | changeMethodAccessModifier => "CHANGE_METHOD_ACCESS_MODIFIER"
  | changeAttributeAccessModifier => "CHANGE_ATTRIBUTE_ACCESS_MODIFIER"
  | pullUpMethod => "PULL_UP_METHOD"
  | pullUpAttribute => "PULL_UP_ATTRIBUTE"
  | pushDownMethod => "PUSH_DOWN_METHOD"
  | pushDownAttribute => "PUSH_DOWN_ATTRIBUTE"
  | replaceVariableWithAttribute => "REPLACE_VARIABLE_WITH_ATTRIBUTE"
  | parameterizeVariable => "PARAMETERIZE_VARIABLE"
  | mergeParameter => "MERGE_PARAMETER"
  | mergeVariable => "MERGE_VARIABLE"
  | mergeClass => "MERGE_CLASS"
  | splitParameter => "SPLIT_PARAMETER"
  | splitVariable => "SPLIT_VARIABLE"
  | splitClass => "SPLIT_CLASS"
  | other name => name

def known : List Kind :=
  [renameClass, renameMethod, renameAttribute, renameParameter, renameVariable, renamePackage,
   moveClass, moveMethod, moveAttribute, moveAndRenameClass, moveAndRenameMethod,
   moveAndRenameAttribute, extractMethod, extractClass, extractInterface, extractSuperclass,
   extractSubclass, extractVariable, extractAndMoveMethod, inlineMethod, inlineVariable,
   moveAndInlineMethod, changeParameterType, changeReturnType, addParameter, removeParameter,
   reorderParameter, addThrownExceptionType, removeThrownExceptionType,
   changeMethodAccessModifier, changeAttributeAccessModifier, pullUpMethod, pullUpAttribute,
   pushDownMethod, pushDownAttribute, replaceVariableWithAttribute, parameterizeVariable,
   mergeParameter, mergeVariable, mergeClass, splitParameter, splitVariable, splitClass]

/-- Older names, in which a method is an operation. -/
def aliases : List (String × Kind) :=
  [("MOVE_OPERATION", moveMethod),
   ("MOVE_AND_RENAME_OPERATION", moveAndRenameMethod),
   ("EXTRACT_OPERATION", extractMethod),
   ("EXTRACT_AND_MOVE_OPERATION", extractAndMoveMethod),
   ("INLINE_OPERATION", inlineMethod),
   ("MOVE_AND_INLINE_OPERATION", moveAndInlineMethod),
   ("CHANGE_OPERATION_ACCESS_MODIFIER", changeMethodAccessModifier),
   ("PULL_UP_OPERATION", pullUpMethod),
   ("PUSH_DOWN_OPERATION", pushDownMethod)]

def vocabulary : List (String × Kind) := known.map (fun k => (k.name, k)) ++ aliases

def ofName (s : String) : Kind := (vocabulary.lookup s).getD (other s)

def isOther : Kind → Bool
  | other _ => true
  | _ => false

/-- Blanks around the name are dropped, spaces and hyphens become underscores, and letters are
capitals. -/
def normalize (raw : String) : String :=
  (Text.trim raw).map fun c => if c = ' ' ∨ c = '-' then '_' else Text.asciiUpper c

def wellFormed (s : String) : Bool :=
  let isCapital (c : Char) := 'A' ≤ c && c ≤ 'Z'
  match s.toList with
  | [] => false
  | c :: cs => isCapital c && cs.all fun c => isCapital c || Text.isDigit c || c == '_'

def parse (raw : String) : Kind × List Warning :=
  let s := normalize raw
  if wellFormed s then (ofName s, [])
  else (other (if s = "" then "UNKNOWN" else s), [.malformedOperation raw])

def family : Kind → Family
  | renameClass | renameMethod | renameAttribute | renameParameter | renameVariable
  | renamePackage => .rename
  | moveClass | moveMethod | moveAttribute | moveAndRenameClass | moveAndRenameMethod
  | moveAndRenameAttribute => .move
  | extractMethod | extractClass | extractInterface | extractSuperclass | extractSubclass
  | extractVariable | extractAndMoveMethod => .extract
  | inlineMethod | inlineVariable | moveAndInlineMethod => .inline
  | changeParameterType | changeReturnType | addParameter | removeParameter | reorderParameter
  | addThrownExceptionType | removeThrownExceptionType | changeMethodAccessModifier
  | changeAttributeAccessModifier => .changeSignature
  | pullUpMethod | pullUpAttribute | pushDownMethod | pushDownAttribute
  | replaceVariableWithAttribute | parameterizeVariable | mergeParameter | mergeVariable
  | mergeClass | splitParameter | splitVariable | splitClass | other _ => .other

def edgeKind (k : Kind) : EdgeKind :=
  match k.family with
  | .rename => .renamed
  | .move => .moved
  | .extract => .extracted
  | .inline => .inlined
  | .changeSignature => .changedSignature
  | .other => .refactored

def subtype? : Kind → Option String
  | renameClass | moveClass | moveAndRenameClass | extractClass => some "class"
  | renameMethod | moveMethod | moveAndRenameMethod | extractMethod | extractAndMoveMethod
  | inlineMethod | moveAndInlineMethod => some "method"
  | renameAttribute | moveAttribute | moveAndRenameAttribute => some "field"
  | renameParameter => some "parameter"
  | renameVariable | extractVariable | inlineVariable => some "variable"
  | renamePackage => some "package"
  | extractInterface => some "interface"
  | extractSuperclass => some "superclass"
  | extractSubclass => some "subclass"
  | changeParameterType => some "parameter_type"
  | changeReturnType => some "return_type"
  | addParameter => some "add_parameter"
  | removeParameter => some "remove_parameter"
  | reorderParameter => some "reorder_parameter"
  | addThrownExceptionType => some "add_exception"
  | removeThrownExceptionType => some "remove_exception"
  | changeMethodAccessModifier | changeAttributeAccessModifier => some "modifier"
  | pullUpMethod | pullUpAttribute => some "pull_up"
  | pushDownMethod | pushDownAttribute => some "push_down"
  | replaceVariableWithAttribute => some "replace"
  | parameterizeVariable => some "parameterize"
  | mergeParameter | mergeVariable | mergeClass => some "merge"
  | splitParameter | splitVariable | splitClass => some "split"
  | other _ => none

/-- The kind of node that an operation's locations point at, if its type name tells. -/
def target? : Kind → Option NodeKind
  | renameClass | moveClass | moveAndRenameClass | extractClass | extractInterface
  | extractSuperclass | extractSubclass | mergeClass | splitClass => some .type
  | renameAttribute | moveAttribute | moveAndRenameAttribute | changeAttributeAccessModifier
  | pullUpAttribute | pushDownAttribute => some .field
  | renameMethod | moveMethod | moveAndRenameMethod | extractMethod | extractAndMoveMethod
  | inlineMethod | moveAndInlineMethod | changeParameterType | changeReturnType | addParameter
  | removeParameter | reorderParameter | addThrownExceptionType | removeThrownExceptionType
  | changeMethodAccessModifier | pullUpMethod | pushDownMethod | renameParameter | renameVariable
  | extractVariable | inlineVariable | replaceVariableWithAttribute | parameterizeVariable
  | mergeParameter | mergeVariable | splitParameter | splitVariable => some .method
  | renamePackage | other _ => none

/-- Whether the operation keeps a method and may change its key. -/
def rekeysMethod (k : Kind) : Bool :=
  (k.family == .rename || k.family == .move || k.family == .changeSignature) &&
    k.target? == some .method

end Kind

end Lineage.Refactoring
