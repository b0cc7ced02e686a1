import Lineage.Text
/-! # Globs

Patterns for paths: `?`, `*`, `**`, classes in square brackets and groups of alternatives in curly
ones. `Glob.ofText` reads a pattern or says what is wrong with it, and `Glob.accepts` matches the
bytes of a path.
-/
namespace Lineage

inductive GlobError where
  | unclosedClass
  | invalidRange (first last : Char)
  | unopenedGroup
  | unclosedGroup
  | danglingEscape
  deriving DecidableEq, Repr

def GlobError.message : GlobError → String
  | .unclosedClass => "unclosed character class; missing ']'"
  | .invalidRange first last => s!"invalid range; '{first}' > '{last}'"
  | .unopenedGroup =>
    "unopened alternate group; missing '\x7b' (maybe escape '\x7d' with '[\x7d]'?)"
  | .unclosedGroup =>
    "unclosed alternate group; missing '\x7d' (maybe escape '\x7b' with '[\x7b]'?)"
  | .danglingEscape => "dangling '\\'"

namespace Glob

inductive Token where
  | literal (c : Char)
  | any
  | star
  /-- Any number of folders before the rest, `**/`. -/
  | leadingFolders
  /-- Everything below, `/**`. -/
  | wholeFolder
  /-- A slash, or any number of folders between two, `/**/`. -/
  | innerFolders
  | oneOf (negated : Bool) (ranges : List (Char × Char))
  | group (branches : List (List Token))
  deriving Inhabited

/-! ## Reading -/

structure Style where
  groups : Bool
  acrossSlashes : Bool

/-- The members of a class read so far; `open` tells whether a range waits for its end. -/
structure ClassState where
  ranges : List (Char × Char) := []
  first : Bool := true
  openRange : Bool := false

def ClassState.close (s : ClassState) (c : Char) : Except GlobError ClassState :=
  match s.ranges.getLast? with
  | some (a, _) =>
    if c < a then .error (.invalidRange a c)
    else .ok { s with ranges := s.ranges.dropLast ++ [(a, c)], openRange := false }
  | none => .ok s

def readMembers (s : ClassState) : List Char → Except GlobError (List (Char × Char) × List Char)
  | [] => .error .unclosedClass
  | c :: cs =>
    if c = ']' ∧ !s.first then
      .ok (if s.openRange then s.ranges ++ [('-', '-')] else s.ranges, cs)
    else if s.openRange then
      match s.close c with
      | .ok s => readMembers { s with first := false } cs
      | .error e => .error e
    else if c = '-' ∧ !s.first then readMembers { s with openRange := true } cs
    else readMembers { s with ranges := s.ranges ++ [(c, c)], first := false } cs

def readClass : List Char → Except GlobError (Token × List Char)
  | c :: cs =>
    if c = '!' ∨ c = '^' then (readMembers {} cs).map fun (rs, rest) => (.oneOf true rs, rest)
    else (readMembers {} (c :: cs)).map fun (rs, rest) => (.oneOf false rs, rest)
  | [] => .error .unclosedClass

/-- A group whose end was not met yet: what stands before it, and its finished branches. -/
structure OpenGroup where
  before : List Token
  branches : List (List Token)

/-- A pattern read up to some place: the groups around, innermost first, the tokens of the branch
there, and the last character. -/
structure ReadState where
  groups : List OpenGroup := []
  tokens : List Token := []
  last : Option Char := none

namespace ReadState

def push (s : ReadState) (t : Token) (last : Char) : ReadState :=
  { s with tokens := s.tokens ++ [t], last := some last }

/-- Puts a token for `**` in place of the slash before it. -/
def replaceLast (s : ReadState) (t : Token) (last : Char) : ReadState :=
  let kept := match s.tokens.getLast? with
    | some .leadingFolders => .leadingFolders
    | some .wholeFolder => .wholeFolder
    | _ => t
  { s with tokens := s.tokens.dropLast ++ [kept], last := some last }

def pushStars (s : ReadState) : ReadState := (s.push .star '*').push .star '*'

/-- Reads what two stars mean where they stand, given what follows them. -/
def readStars (s : ReadState) (rest : List Char) : ReadState × List Char :=
  if s.tokens.isEmpty then
    match rest with
    | [] => (s.push .leadingFolders '*', [])
    | c :: cs => if c = '/' then (s.push .leadingFolders '/', cs) else (s.pushStars, rest)
  else if s.last ≠ some '/' then (s.pushStars, rest)
  else
    match rest with
    | [] => (s.replaceLast .wholeFolder '*', [])
    | c :: cs =>
      if c = '/' then (s.replaceLast .innerFolders '/', cs)
      else if (c = ',' ∨ c = '\x7d') ∧ !s.groups.isEmpty then (s.replaceLast .wholeFolder '*', rest)
      else (s.pushStars, rest)

def closeGroup (s : ReadState) : Except GlobError ReadState :=
  match s.groups with
  | [] => .error .unopenedGroup
  | g :: outer =>
    .ok
      { groups := outer
        tokens := g.before ++ [.group (g.branches ++ [s.tokens])]
        last := some '\x7d' }

def nextBranch (s : ReadState) : ReadState :=
  match s.groups with
  | [] => s.push (.literal ',') ','
  | g :: outer =>
    { groups := { g with branches := g.branches ++ [s.tokens] } :: outer
      tokens := []
      last := some ',' }

end ReadState

/-- Reads a pattern from some place on; every step consumes at least one character of fuel. -/
def readFrom (style : Style) : Nat → ReadState → List Char → Except GlobError (List Token)
  | 0, s, _ => .ok s.tokens
  | _ + 1, s, [] => if s.groups.isEmpty then .ok s.tokens else .error .unclosedGroup
  | fuel + 1, s, c :: cs =>
    if c = '?' then readFrom style fuel (s.push .any c) cs
    else if c = '*' then
      match cs with
      | '*' :: rest =>
        let (s, rest) := s.readStars rest
        readFrom style fuel s rest
      | _ => readFrom style fuel (s.push .star c) cs
    else if c = '[' then
      match readClass cs with
      | .ok (t, rest) => readFrom style fuel (s.push t ']') rest
      | .error e => .error e
    else if c = '\\' then
      match cs with
      | d :: rest => readFrom style fuel (s.push (.literal d) d) rest
      | [] => .error .danglingEscape
    else if c = '\x7b' ∧ style.groups then
      readFrom style fuel
        { groups := ⟨s.tokens, []⟩ :: s.groups, tokens := [], last := some c } cs
    else if c = '\x7d' ∧ style.groups then
      match s.closeGroup with
      | .ok s => readFrom style fuel s cs
      | .error e => .error e
    else if c = ',' ∧ style.groups then readFrom style fuel s.nextBranch cs
    else readFrom style fuel (s.push (.literal c) c) cs

/-! ## Matching -/

def slashByte : UInt8 := 47

def dropStart : List UInt8 → List UInt8 → Option (List UInt8)
  | [], bs => some bs
  | _ :: _, [] => none
  | a :: as, b :: bs => if a = b then dropStart as bs else none

def someRest (pass : UInt8 → Bool) (test : List UInt8 → Bool) : List UInt8 → Bool
  | [] => test []
  | b :: bs => test (b :: bs) || (pass b && someRest pass test bs)

def someFolder (test : List UInt8 → Bool) : List UInt8 → Bool
  | [] => false
  | b :: bs => (b == slashByte && test bs) || someFolder test bs

def utf8 (c : Char) : List UInt8 := (String.singleton c).toUTF8.toList

/-- Whether a byte is in a range, whose ends may be characters of several bytes: between the last
byte of the one and the first of the other, or one of their other bytes. -/
def inRange (b : UInt8) (r : Char × Char) : Bool :=
  if r.1 = r.2 then (utf8 r.1).contains b
  else
    let first := utf8 r.1
    let last := utf8 r.2
    first.dropLast.contains b || (last.drop 1).contains b ||
      ((first.getLast?).any (· ≤ b) && (last.head?).any (b ≤ ·))

mutual

def isVoid : Token → Bool
  | .group branches => allVoid branches
  | _ => false

def allVoid : List (List Token) → Bool
  | [] => true
  | ts :: rest => isVoidAll ts && allVoid rest

def isVoidAll : List Token → Bool
  | [] => true
  | t :: ts => isVoid t && isVoidAll ts

end

mutual

def acceptsToken (style : Style) (test : List UInt8 → Bool) (bs : List UInt8) : Token → Bool
  | .literal c => (dropStart (utf8 c) bs).any test
  | .any =>
    match bs with
    | b :: rest => (style.acrossSlashes || b != slashByte) && test rest
    | [] => false
  | .star => someRest (fun b => style.acrossSlashes || b != slashByte) test bs
  | .leadingFolders => test bs || someFolder test bs
  | .wholeFolder =>
    match bs with
    | b :: rest => b == slashByte && someRest (fun _ => true) test rest
    | [] => false
  | .innerFolders =>
    match bs with
    | b :: rest => b == slashByte && (test rest || someFolder test rest)
    | [] => false
  | .oneOf negated ranges =>
    match bs with
    | b :: rest => ranges.any (inRange b) != negated && test rest
    | [] => false
  | .group branches => if allVoid branches then test bs else acceptsBranch style test bs branches

def acceptsBranch (style : Style) (test : List UInt8 → Bool) (bs : List UInt8) :
    List (List Token) → Bool
  | [] => false
  | ts :: rest =>
    (!isVoidAll ts && acceptsTokens style test bs ts) || acceptsBranch style test bs rest

def acceptsTokens (style : Style) (test : List UInt8 → Bool) (bs : List UInt8) :
    List Token → Bool
  | [] => test bs
  | t :: ts => acceptsToken style (fun rest => acceptsTokens style test rest ts) bs t

end

end Glob

structure Glob where
  style : Glob.Style
  tokens : List Glob.Token

namespace Glob

def ofText (style : Style) (pattern : String) : Except GlobError Glob :=
  (readFrom style (pattern.toList.length + 1) {} pattern.toList).map fun tokens => ⟨style, tokens⟩

/-- Whether a pattern stands for a path; two stars alone stand for all. -/
def accepts (g : Glob) (path : String) : Bool :=
  match g.tokens with
  | [.leadingFolders] => true
  | ts => acceptsTokens g.style List.isEmpty path.toUTF8.toList ts

def Style.path : Style := ⟨true, true⟩

def Style.name : Style := ⟨true, false⟩

def Style.plainName : Style := ⟨false, false⟩

def problem (pattern : String) (e : GlobError) : String :=
  s!"error parsing glob '{pattern}': {e.message}"

end Glob

end Lineage
