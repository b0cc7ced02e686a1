import Lineage.Decimal
import Lineage.Text
/-! # Reading JSON documents of a known shape

A reader takes a value of the shape it is made for off the front of a text. It stops at the first
problem in reading order and tells whether the text breaks the grammar, holds a value of another
shape, or ends too early. What no shape asks for is skipped without being understood.
-/
namespace Lineage.Json

inductive Fault where
  | malformed
  /-- A value has another shape. -/
  | misshapen
  | truncated
  deriving DecidableEq, Repr

abbrev Reader := StateT (List Char) (Except Fault)

namespace Reader

variable {α ρ : Type}

def fail (f : Fault) : Reader α := throw f

def isSpace (c : Char) : Bool := c = ' ' || c = '\n' || c = '\t' || c = '\r'

def skip : Reader Unit := modify (·.drop 1)

def peek? : Reader (Option Char) := do return (← get).head?

def ahead? : Reader (Option Char) := do
  modify (·.dropWhile isSpace)
  peek?

def next : Reader Char := do
  match ← peek? with
  | some c => skip; return c
  | none => fail .truncated

def restOf : List Char → Reader Unit
  | [] => return
  | c :: cs => do
    if (← next) ≠ c then fail .malformed
    restOf cs

/-! ## Texts -/

def unit? (a b c d : Char) : Option Nat :=
  match Text.hexDigit? a, Text.hexDigit? b, Text.hexDigit? c, Text.hexDigit? d with
  | some a, some b, some c, some d => some (((16 * a + b) * 16 + c) * 16 + d)
  | _, _, _, _ => none

/-- Takes four digits of base sixteen; fewer than four bytes make a text that ends too early. -/
def unit : Reader Nat := do
  let cs ← get
  if (String.ofList cs).utf8ByteSize < 4 then fail .truncated
  match cs with
  | a :: b :: c :: d :: rest =>
    match unit? a b c d with
    | some n => set rest; return n
    | none => fail .malformed
  | _ => fail .malformed

def characterFrom (first : Nat) : Reader Char := do
  if 0xDC00 ≤ first ∧ first ≤ 0xDFFF then fail .malformed
  if first < 0xD800 ∨ 0xDBFF < first then return Char.ofNat first
  if (← next) ≠ '\\' then fail .malformed
  if (← next) ≠ 'u' then fail .malformed
  let second ← unit
  if second < 0xDC00 ∨ 0xDFFF < second then fail .malformed
  return Char.ofNat (0x10000 + (first - 0xD800) * 0x400 + (second - 0xDC00))

/-- Takes what follows a backslash. Where a text is skipped, units need not make characters. -/
def escaped (skipped : Bool) : Reader Char := do
  match ← next with
  | '"' => return '"'
  | '\\' => return '\\'
  | '/' => return '/'
  | 'b' => return '\x08'
  | 'f' => return '\x0c'
  | 'n' => return '\n'
  | 'r' => return '\r'
  | 't' => return '\t'
  | 'u' =>
    let n ← unit
    if skipped then return ' ' else characterFrom n
  | _ => fail .malformed

def characters (skipped : Bool) : Nat → Reader (List Char)
  | 0 => fail .truncated
  | fuel + 1 => do
    let c ← next
    if c = '"' then return []
    else if c = '\\' then
      let c ← escaped skipped
      return c :: (← characters skipped fuel)
    else if c.toNat < 0x20 then fail .malformed
    else return c :: (← characters skipped fuel)

def quotedRest (skipped : Bool) : Reader String := do
  return String.ofList (← characters skipped ((← get).length + 1))

/-! ## Numbers -/

def digits : Reader (List Char) := do
  let cs ← get
  set (cs.dropWhile Text.isDigit)
  return cs.takeWhile Text.isDigit

/-- Takes the digits before a point; only a lone zero may begin with one. -/
def wholePart (atEnd : Fault) : Reader (List Char) := do
  match ← digits with
  | [] => fail (if (← peek?).isNone then atEnd else .malformed)
  | '0' :: _ :: _ => fail .malformed
  | ds => return ds

def fraction (atEnd : Fault) : Reader (Option (List Char)) := do
  if (← peek?) = some '.' then
    skip
    match ← digits with
    | [] => fail (if (← peek?).isNone then atEnd else .malformed)
    | ds => return some ds
  else return none

def power (atEnd : Fault) : Reader (Option Int) := do
  match ← peek? with
  | some 'e' | some 'E' =>
    skip
    let sign ← peek?
    if sign = some '+' ∨ sign = some '-' then skip
    match ← digits with
    | [] => fail (if (← peek?).isNone then atEnd else .malformed)
    | ds =>
      let n : Int := Text.digitsValue ds
      return some (if sign = some '-' then -n else n)
  | _ => return none

/-- Takes a number without its sign: its value if it is written as a whole one. Numbers beyond the
range of 64 bit fractions break the grammar. -/
def unsigned : Reader (Option Nat) := do
  let whole ← wholePart .truncated
  let fraction ← fraction .truncated
  let power ← power .truncated
  let ds := whole ++ fraction.getD []
  let isReal := fraction.isSome || power.isSome || UInt64.size ≤ Text.digitsValue whole
  if isReal && Decimal.isHuge (Text.digitsValue ds) (power.getD 0 - (fraction.getD []).length) then
    fail .malformed
  return if isReal then none else some (Text.digitsValue whole)

def skipUnsigned : Reader Unit := do
  let _ ← wholePart .malformed
  let _ ← fraction .malformed
  let _ ← power .malformed

/-! ## Values of no interest -/

/-- Refuses a value of another shape, which must follow the grammar as far as it is looked at. -/
def misfit : Reader α := do
  match ← peek? with
  | some 'n' => skip; restOf "ull".toList
  | some 't' => skip; restOf "rue".toList
  | some 'f' => skip; restOf "alse".toList
  | some '-' => skip; let _ ← unsigned
  | some '"' => skip; let _ ← quotedRest false
  | some '[' | some '\x7b' => pure ()
  | some c => if Text.isDigit c then let _ ← unsigned else fail .malformed
  | none => fail .truncated
  fail .misshapen

inductive Bracket where
  | list
  | record
  deriving DecidableEq

def colon : Reader Unit := do
  match ← ahead? with
  | some ':' => skip
  | some _ => fail .malformed
  | none => fail .truncated

def skipName : Reader Unit := do
  match ← ahead? with
  | some '"' => skip; let _ ← quotedRest true; colon
  | some _ => fail .malformed
  | none => fail .truncated

mutual

def skipValue : Nat → List Bracket → Reader Unit
  | 0, _ => fail .truncated
  | fuel + 1, stack => do
    match ← ahead? with
    | none => fail .truncated
    | some '[' =>
      skip
      match ← ahead? with
      | some ']' => skip; skipAfter fuel stack
      | some _ => skipValue fuel (.list :: stack)
      | none => fail .truncated
    | some '\x7b' =>
      skip
      match ← ahead? with
      | some '\x7d' => skip; skipAfter fuel stack
      | some _ => skipName; skipValue fuel (.record :: stack)
      | none => fail .truncated
    | some 'n' => skip; restOf "ull".toList; skipAfter fuel stack
    | some 't' => skip; restOf "rue".toList; skipAfter fuel stack
    | some 'f' => skip; restOf "alse".toList; skipAfter fuel stack
    | some '-' => skip; skipUnsigned; skipAfter fuel stack
    | some '"' => skip; let _ ← quotedRest true; skipAfter fuel stack
    | some c =>
      if Text.isDigit c then
        skipUnsigned
        skipAfter fuel stack
      else fail .malformed

/-- Skips what remains of the values around a skipped one. -/
def skipAfter : Nat → List Bracket → Reader Unit
  | 0, _ => fail .truncated
  | _ + 1, [] => return
  | fuel + 1, b :: stack => do
    match ← ahead?, b with
    | some ',', .list => skip; skipValue fuel (b :: stack)
    | some ',', .record => skip; skipName; skipValue fuel (b :: stack)
    | some ']', .list => skip; skipAfter fuel stack
    | some '\x7d', .record => skip; skipAfter fuel stack
    | some _, _ => fail .malformed
    | none, _ => fail .truncated

end

def skipAny : Reader Unit := do skipValue (2 * (← get).length + 2) []

/-! ## Values of a shape -/

def text : Reader String := do
  match ← ahead? with
  | none => fail .truncated
  | some '"' => skip; quotedRest false
  | some _ => misfit

def below (bound : Nat) : Reader Nat := do
  match ← ahead? with
  | none => fail .truncated
  | some '-' => skip; let _ ← unsigned; fail .misshapen
  | some c =>
    if Text.isDigit c then
      match ← unsigned with
      | some n => if n < bound then return n else fail .misshapen
      | none => fail .misshapen
    else misfit

def nullable (r : Reader α) : Reader (Option α) := do
  match ← ahead? with
  | some 'n' => skip; restOf "ull".toList; return none
  | _ => return some (← r)

def another (first : Bool) : Reader Bool := do
  match ← ahead? with
  | none => fail .truncated
  | some ']' => return false
  | some c =>
    if first then return true
    else if c ≠ ',' then fail .malformed
    else
      skip
      match ← ahead? with
      | some ']' => fail .malformed
      | some _ => return true
      | none => fail .truncated

def elements (r : Reader α) : Nat → Bool → Reader (List α)
  | 0, _ => fail .truncated
  | fuel + 1, first => do
    if ← another first then
      let x ← r
      return x :: (← elements r fuel false)
    else
      skip
      return []

def list (r : Reader α) : Reader (List α) := do
  match ← ahead? with
  | none => fail .truncated
  | some '[' => skip; elements r ((← get).length + 1) true
  | some _ => misfit

structure Field (ρ : Type) where
  name : String
  required : Bool
  read : ρ → Reader ρ

def anotherName (first : Bool) : Reader Bool := do
  match ← ahead? with
  | none => fail .truncated
  | some '\x7d' => skip; return false
  | some c =>
    if !first then
      if c ≠ ',' then fail .malformed
      skip
    match ← ahead? with
    | some '"' => skip; return true
    | some _ => fail .malformed
    | none => fail .truncated

/-- Fills a record from named fields. -/
def fromNames (fields : List (Field ρ)) : Nat → Bool → List String → ρ → Reader ρ
  | 0, _, _, _ => fail .truncated
  | fuel + 1, first, seen, x => do
    if ← anotherName first then
      let name ← quotedRest false
      match fields.find? (·.name = name) with
      | some f =>
        if seen.contains name then fail .misshapen
        colon
        let x ← f.read x
        fromNames fields fuel false (name :: seen) x
      | none =>
        colon
        skipAny
        fromNames fields fuel false seen x
    else if fields.all fun f => !f.required || seen.contains f.name then return x
    else fail .misshapen

def fromOrder : List (Field ρ) → Bool → ρ → Reader ρ
  | [], _, x => do
    match ← ahead? with
    | some ']' => skip; return x
    | some _ => fail .malformed
    | none => fail .truncated
  | f :: fields, first, x => do
    if ← another first then
      let x ← f.read x
      fromOrder fields false x
    else if f.required then fail .misshapen
    else fromOrder fields first x

def record (fields : List (Field ρ)) (start : ρ) : Reader ρ := do
  match ← ahead? with
  | none => fail .truncated
  | some '[' => skip; fromOrder fields true start
  | some '\x7b' => skip; fromNames fields ((← get).length + 1) true [] start
  | some _ => misfit

def document (r : Reader α) (s : String) : Except Fault α :=
  match r s.toList with
  | .ok (x, rest) => if rest.all isSpace then .ok x else .error .malformed
  | .error f => .error f

end Reader

end Lineage.Json
