import Lineage.Java.Tree
import Lineage.Text
/-! # Java tokens

A source is cut into tokens; each carries the blanks and comments before it. A closing angle bracket
is always a token of its own, or one with a following equals sign: what is a shift operator in an
expression closes two lists of type arguments in a type.
-/
namespace Lineage.Java

inductive TokenClass where
  | identifier
  | keyword
  | number
  | character
  | string
  | symbol
  | endOfFile
  deriving DecidableEq, Repr, Inhabited

structure Token where
  cls : TokenClass
  text : String
  firstLine : Nat
  lastLine : Nat
  trivia : String
  comments : List Tree
  deriving Inhabited

namespace Token

def keywords : List String :=
  ["abstract", "assert", "boolean", "break", "byte", "case", "catch", "char", "class", "const",
   "continue", "default", "do", "double", "else", "enum", "extends", "final", "finally", "float",
   "for", "goto", "if", "implements", "import", "instanceof", "int", "interface", "long", "native",
   "new", "package", "private", "protected", "public", "return", "short", "static", "strictfp",
   "super", "switch", "synchronized", "this", "throw", "throws", "transient", "try", "void",
   "volatile", "while", "true", "false", "null", "non-sealed"]

/-- Symbols of several characters, longer ones before those they begin with. -/
def symbols : List String :=
  ["<<=", "...", "->", "::", "++", "--", "&&", "||", "==", "!=", "<=", ">=", "+=", "-=", "*=", "/=",
   "&=", "|=", "^=", "%=", "<<"]

def isGap (c : Char) : Bool := Text.isBlank c || c == '\uFEFF'

def isWordStart (c : Char) : Bool :=
  ('a' ≤ c && c ≤ 'z') || ('A' ≤ c && c ≤ 'Z') || c == '_' || c == '$' ||
    (0x80 ≤ c.toNat && !isGap c)

def isWordPart (c : Char) : Bool := isWordStart c || Text.isDigit c

def quotedRest (quote : Char) : List Char → List Char
  | [] => []
  | '\\' :: c :: cs => '\\' :: c :: quotedRest quote cs
  | c :: cs => if c = quote then [c] else c :: quotedRest quote cs

def textBlockRest : List Char → List Char
  | [] => []
  | '\\' :: c :: cs => '\\' :: c :: textBlockRest cs
  | '"' :: '"' :: '"' :: _ => ['"', '"', '"']
  | c :: cs => c :: textBlockRest cs

def numberChars (hex : Bool) : List Char → List Char
  | [] => []
  | c :: cs =>
    if isWordPart c || c == '.' then
      match cs with
      | s :: rest =>
        if (s == '+' || s == '-') &&
            (if hex then c == 'p' || c == 'P' else c == 'e' || c == 'E') then
          c :: s :: numberChars hex rest
        else c :: numberChars hex (s :: rest)
      | [] => [c]
    else []

def blockCommentRest : List Char → List Char
  | [] => []
  | '*' :: '/' :: _ => ['*', '/']
  | c :: cs => c :: blockCommentRest cs

/-- A modifier that is written with a hyphen, and no difference of two variables. -/
def isNonSealed (cs : List Char) : Bool :=
  Text.startsWithChars "non-sealed".toList cs &&
    let rest := cs.drop "non-sealed".length
    rest.head?.any isGap && (rest.dropWhile isGap).head?.any fun c => isWordStart c || c == '@'

/-- The next token's class and characters, for a text that begins with neither blanks nor a
comment. -/
def scan (cs : List Char) : TokenClass × List Char :=
  match cs with
  | [] => (.endOfFile, [])
  | '"' :: '"' :: '"' :: rest => (.string, '"' :: '"' :: '"' :: textBlockRest rest)
  | '"' :: rest => (.string, '"' :: quotedRest '"' rest)
  | '\'' :: rest => (.character, '\'' :: quotedRest '\'' rest)
  | c :: rest =>
    if isWordStart c then
      if isNonSealed cs then (.keyword, "non-sealed".toList)
      else
        let word := c :: rest.takeWhile isWordPart
        (if keywords.contains (String.ofList word) then .keyword else .identifier, word)
    else if Text.isDigit c || (c == '.' && (rest.head?.any Text.isDigit)) then
      (.number, numberChars (c == '0' && (rest.head? == some 'x' || rest.head? == some 'X')) cs)
    else
      match symbols.find? fun s => Text.startsWithChars s.toList cs with
      | some s => (.symbol, s.toList)
      | none => (.symbol, [c])

def scanTrivia (cs : List Char) : Option (Option Kind × List Char) :=
  match cs with
  | [] => none
  | '/' :: '/' :: rest => some (some .lineComment, '/' :: '/' :: rest.takeWhile (· ≠ '\n'))
  | '/' :: '*' :: rest => some (some .blockComment, '/' :: '*' :: blockCommentRest rest)
  | c :: rest =>
    if isGap c then some (none, c :: rest.takeWhile Text.isBlank) else none

def lineBreaks (cs : List Char) : Nat := cs.count '\n'

/-- The tokens of a text that follows some trivia; every round consumes a character. -/
def tokenize : Nat → Nat → List Char → List Tree → List Char → List Token
  | 0, _, _, _, _ => []
  | fuel + 1, line, trivia, comments, cs =>
    match scanTrivia cs with
    | some (kind, run) =>
      let last := line + lineBreaks run
      let found := match kind with
        | some k => [Tree.node k none (String.ofList run) line last []]
        | none => []
      tokenize fuel last (trivia ++ run) (comments ++ found) (cs.drop run.length)
    | none =>
      let (cls, run) := scan cs
      let last := line + lineBreaks run
      let token : Token := ⟨cls, String.ofList run, line, last, String.ofList trivia, comments⟩
      if cs.isEmpty then [token]
      else token :: tokenize fuel last [] [] (cs.drop run.length)

def ofSource (source : String) : List Token :=
  let cs := source.toList
  tokenize (cs.length + 1) 1 [] [] cs

end Token

end Lineage.Java
