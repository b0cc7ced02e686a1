import Lineage.Decimal
import Lineage.Toml
/-! # Scalars of a TOML document

Quoted texts, numbers, truth values, dates and times as they are written. A reader takes what it
reads off the front of the characters and gives the rest.
-/
namespace Lineage.Toml

/-! ## Quoted texts -/

def isPlain (c : Char) : Bool := c = '\t' || (0x20 ≤ c.toNat && c.toNat ≠ 0x7F)

def charOfHex? (digits : List Char) : Option Char := do
  let values ← digits.mapM Text.hexDigit?
  let code := values.foldl (fun n d => 16 * n + d) 0
  if code < 0xD800 ∨ (0xDFFF < code ∧ code < 0x110000) then some (Char.ofNat code) else none

def letterEscape? : Char → Option Char
  | 'b' => some '\x08'
  | 't' => some '\t'
  | 'n' => some '\n'
  | 'f' => some '\x0c'
  | 'r' => some '\r'
  | '"' => some '"'
  | '\\' => some '\\'
  | _ => none

def basic? : List Char → Option (List Char × List Char)
  | '"' :: cs => some ([], cs)
  | '\\' :: 'u' :: a :: b :: c :: d :: cs => do
    let x ← charOfHex? [a, b, c, d]
    let (xs, rest) ← basic? cs
    return (x :: xs, rest)
  | '\\' :: 'U' :: a :: b :: c :: d :: e :: f :: g :: h :: cs => do
    let x ← charOfHex? [a, b, c, d, e, f, g, h]
    let (xs, rest) ← basic? cs
    return (x :: xs, rest)
  | '\\' :: c :: cs => do
    let x ← letterEscape? c
    let (xs, rest) ← basic? cs
    return (x :: xs, rest)
  | c :: cs =>
    if isPlain c ∧ c ≠ '\\' then (basic? cs).map fun (xs, rest) => (c :: xs, rest) else none
  | [] => none

def raw? : List Char → Option (List Char × List Char)
  | [] => none
  | c :: cs =>
    if c = '\'' then some ([], cs)
    else if isPlain c then (raw? cs).map fun (xs, rest) => (c :: xs, rest)
    else none

/-- How far a backslash at the end of a line reaches: not at all, up to the line's end, or up to the
next character that is no blank. -/
inductive Joining where
  | off
  | toLineEnd
  | toText
  deriving DecidableEq

def basicLines? : Joining → List Char → Option (List Char × List Char)
  | .toLineEnd, c :: cs =>
    if c = '\n' then basicLines? .toText cs
    else if c = ' ' ∨ c = '\t' then basicLines? .toLineEnd cs
    else if c = '\r' ∧ cs.head? = some '\n' then basicLines? .toLineEnd cs
    else none
  | j, '\r' :: '\n' :: cs =>
    if j = .toText then basicLines? j cs
    else (basicLines? .off cs).map fun (xs, rest) => ('\n' :: xs, rest)
  | j, '"' :: '"' :: '"' :: '"' :: '"' :: cs =>
    if j = .toLineEnd then none else some (['"', '"'], cs)
  | j, '"' :: '"' :: '"' :: '"' :: cs => if j = .toLineEnd then none else some (['"'], cs)
  | j, '"' :: '"' :: '"' :: cs => if j = .toLineEnd then none else some ([], cs)
  | _, '\\' :: 'u' :: a :: b :: c :: d :: cs => do
    let x ← charOfHex? [a, b, c, d]
    let (xs, rest) ← basicLines? .off cs
    return (x :: xs, rest)
  | _, '\\' :: 'U' :: a :: b :: c :: d :: e :: f :: g :: h :: cs => do
    let x ← charOfHex? [a, b, c, d, e, f, g, h]
    let (xs, rest) ← basicLines? .off cs
    return (x :: xs, rest)
  | _, '\\' :: c :: cs =>
    match letterEscape? c with
    | some x => (basicLines? .off cs).map fun (xs, rest) => (x :: xs, rest)
    | none =>
      if c = '\n' then basicLines? .toText cs
      else if c = ' ' ∨ c = '\t' ∨ (c = '\r' ∧ cs.head? = some '\n') then basicLines? .toLineEnd cs
      else none
  | j, c :: cs =>
    if j = .toText ∧ (c = ' ' ∨ c = '\t' ∨ c = '\n') then basicLines? .toText cs
    else if (isPlain c ∧ c ≠ '\\') ∨ c = '\n' then
      (basicLines? .off cs).map fun (xs, rest) => (c :: xs, rest)
    else none
  | _, [] => none

def rawLines? : List Char → Option (List Char × List Char)
  | '\'' :: '\'' :: '\'' :: '\'' :: '\'' :: cs => some (['\'', '\''], cs)
  | '\'' :: '\'' :: '\'' :: '\'' :: cs => some (['\''], cs)
  | '\'' :: '\'' :: '\'' :: cs => some ([], cs)
  | '\r' :: '\n' :: cs => (rawLines? cs).map fun (xs, rest) => ('\n' :: xs, rest)
  | c :: cs =>
    if isPlain c ∨ c = '\n' then (rawLines? cs).map fun (xs, rest) => (c :: xs, rest) else none
  | [] => none

/-- A line end right after the opening quotes does not count. -/
def dropLineEnd : List Char → List Char
  | '\n' :: cs => cs
  | '\r' :: '\n' :: cs => cs
  | cs => cs

def quoted? (cs : List Char) : Option (String × List Char) :=
  (match cs with
  | '"' :: '"' :: '"' :: rest => basicLines? .off (dropLineEnd rest)
  | '\'' :: '\'' :: '\'' :: rest => rawLines? (dropLineEnd rest)
  | '"' :: rest => basic? rest
  | '\'' :: rest => raw? rest
  | _ => none).map fun (xs, rest) => (String.ofList xs, rest)

/-! ## Words -/

def digits? (isDigit : Char → Bool) : List Char → Option (List Char)
  | [] => none
  | [c] => if isDigit c then some [c] else none
  | c :: '_' :: cs => if isDigit c then (digits? isDigit cs).map (c :: ·) else none
  | c :: cs => if isDigit c then (digits? isDigit cs).map (c :: ·) else none

def decimal? (cs : List Char) : Option (List Char) := do
  let ds ← digits? Text.isDigit cs
  if ds.head? = some '0' ∧ 1 < ds.length then none else some ds

def baseValue (base : Nat) (ds : List Char) : Nat :=
  ds.foldl (fun n d => base * n + (Text.hexDigit? d).getD 0) 0

def signed (cs : List Char) : Bool × List Char :=
  match cs with
  | '-' :: rest => (true, rest)
  | '+' :: rest => (false, rest)
  | _ => (false, cs)

def integer? (cs : List Char) : Option Int :=
  let below (base : Nat) (c : Char) : Bool := (Text.hexDigit? c).any (· < base)
  let n : Option Int :=
    match cs with
    | '0' :: 'x' :: ds => (digits? (below 16) ds).map fun ds => (baseValue 16 ds : Int)
    | '0' :: 'o' :: ds => (digits? (below 8) ds).map fun ds => (baseValue 8 ds : Int)
    | '0' :: 'b' :: ds => (digits? (below 2) ds).map fun ds => (baseValue 2 ds : Int)
    | _ =>
      let (negative, ds) := signed cs
      (decimal? ds).map fun ds => if negative then -(baseValue 10 ds : Int) else baseValue 10 ds
  n.filter fun n => Int64.minValue.toInt ≤ n ∧ n ≤ Int64.maxValue.toInt

/-- Whether a word is a number with a fraction or an exponent, or one of the special numbers. -/
def isReal (word : List Char) : Bool :=
  let (negative, cs) := signed word
  if cs = ['i', 'n', 'f'] ∨ cs = ['n', 'a', 'n'] then true
  else
    let isMark (c : Char) : Bool := c = 'e' || c = 'E'
    let mantissa := cs.takeWhile (!isMark ·)
    let whole := mantissa.takeWhile (· ≠ '.')
    let fraction := mantissa.dropWhile (· ≠ '.')
    let power := cs.dropWhile (!isMark ·)
    match decimal? whole,
        (if fraction.isEmpty then some [] else digits? Text.isDigit (fraction.drop 1)),
        (if power.isEmpty then some (false, []) else
          (digits? Text.isDigit (signed (power.drop 1)).2).map fun ds =>
            ((signed (power.drop 1)).1, ds)) with
    | some ws, some fs, some (small, es) =>
      let exponent : Int := (if small then -1 else 1) * (baseValue 10 es : Int) - fs.length
      (!fraction.isEmpty || !power.isEmpty) &&
        (negative || !Decimal.isHuge (baseValue 10 (ws ++ fs)) exponent)
    | _, _, _ => false

def field? (least most : Nat) (cs : List Char) : Option Nat :=
  let n := baseValue 10 cs
  if cs.all Text.isDigit ∧ least ≤ n ∧ n ≤ most then some n else none

def daysIn (year month : Nat) : Nat :=
  if month = 2 then
    if year % 4 = 0 ∧ (year % 100 ≠ 0 ∨ year % 400 = 0) then 29 else 28
  else if month = 4 ∨ month = 6 ∨ month = 9 ∨ month = 11 then 30
  else 31

def isDate : List Char → Bool
  | [a, b, c, d, '-', e, f, '-', g, h] =>
    match field? 0 9999 [a, b, c, d], field? 1 12 [e, f] with
    | some year, some month => (field? 1 (daysIn year month) [g, h]).isSome
    | _, _ => false
  | _ => false

def isClock : List Char → Bool
  | [a, b, ':', c, d] => (field? 0 23 [a, b]).isSome && (field? 0 59 [c, d]).isSome
  | _ => false

def isTime (cs : List Char) : Bool :=
  isClock (cs.take 5) &&
    match cs.drop 5 with
    | ':' :: a :: b :: rest =>
      (field? 0 60 [a, b]).isSome &&
        match rest with
        | [] => true
        | c :: ds => c = '.' && !ds.isEmpty && ds.all Text.isDigit
    | _ => false

def isOffset : List Char → Bool
  | [] => true
  | [c] => c = 'Z' || c = 'z'
  | c :: cs => (c = '+' || c = '-') && isClock cs

def isTimeWithOffset (cs : List Char) : Bool :=
  let inTime (c : Char) : Bool := Text.isDigit c || c = ':' || c = '.'
  isTime (cs.takeWhile inTime) && isOffset (cs.dropWhile inTime)

def isMoment (cs : List Char) : Bool :=
  isDate cs || isTime cs ||
    (isDate (cs.take 10) && ((cs.drop 10).head?).any (fun c => c = 'T' || c = 't' || c = ' ') &&
      isTimeWithOffset (cs.drop 11))

def ofWord? (word : List Char) : Option Toml :=
  if word = "true".toList then some (.bool true)
  else if word = "false".toList then some (.bool false)
  else if isMoment word then some .moment
  else if isReal word then some .real
  else (integer? word).map .int

def inWord (c : Char) : Bool :=
  c.isAlphanum || c = '_' || c = '+' || c = '-' || c = '.' || c = ':'

/-- A value that is neither quoted nor in brackets; a date may have a blank before its time. -/
def word? (cs : List Char) : Option (Toml × List Char) :=
  let word := cs.takeWhile inWord
  let rest := cs.dropWhile inWord
  match rest with
  | ' ' :: c :: more =>
    if isDate word ∧ Text.isDigit c then
      (ofWord? (word ++ ' ' :: (c :: more).takeWhile inWord)).map (·, (c :: more).dropWhile inWord)
    else (ofWord? word).map (·, rest)
  | _ => (ofWord? word).map (·, rest)

end Lineage.Toml
