/-! # Decimals and the nearest binary fraction

A finite decimal, and the dyadic fraction of at most 24 significant bits that lies nearest to it.
The way back picks the decimal with the fewest digits that the fraction is nearest to. All
arithmetic is on natural numbers and exact.
-/
namespace Lineage

def scale (base n e : Nat) : Nat := n * Nat.pow base e

/-- The number `± digits · 10 ^ exponent`. -/
structure Decimal where
  negative : Bool
  digits : Nat
  exponent : Int
  deriving DecidableEq, Repr

def Decimal.isHuge (digits : Nat) (exponent : Int) : Bool :=
  let lead := ((Nat.toDigits 10 digits).length : Int) + exponent
  let bound := scale 2 1 1024 - scale 2 1 970
  if digits = 0 ∨ lead < 300 then false
  else if 320 < lead then true
  else if 0 ≤ exponent then bound ≤ scale 10 digits exponent.toNat
  else scale 10 bound (-exponent).toNat ≤ digits

namespace Dyadic

/-- The quotient rounded to the nearest integer, a half to the even neighbour. -/
def roundDiv (num den : Nat) : Nat :=
  let q := num / den
  let r := num % den
  if 2 * r < den then q else if den < 2 * r then q + 1 else if q % 2 = 0 then q else q + 1

def scaled (base n : Nat) (e : Int) : Nat × Nat :=
  if 0 ≤ e then (scale base n e.toNat, 1) else (n, scale base 1 (-e).toNat)

/-- The largest `e` with `2 ^ e ≤ num / den`, for a positive fraction. -/
def floorLog2 (num den : Nat) : Int :=
  let guess : Int := (num.log2 : Int) - (den.log2 : Int)
  let reached :=
    if 0 ≤ guess then scale 2 den guess.toNat ≤ num else den ≤ scale 2 num (-guess).toNat
  if reached then guess else guess - 1

def minExponent : Int := -149

/-- Rounds a positive fraction to `m · 2 ^ q` with `m ≤ 2 ^ 24`, and gives the position of that
number in the ascending list of all such numbers. -/
def rank (num den : Nat) : Nat :=
  let q : Int := max (floorLog2 num den - 23) minExponent
  let m :=
    if 0 ≤ q then roundDiv num (scale 2 den q.toNat) else roundDiv (scale 2 num (-q).toNat) den
  scale 2 (q - minExponent).toNat 23 + m

def infinityRank : Nat := 0x7F800000

def ofRank (r : Nat) : Nat × Int :=
  let block : Nat := scale 2 1 23
  let e : Nat := r / block
  let f : Nat := r % block
  if e = 0 then (f, minExponent) else (f + block, minExponent + ((e : Int) - 1))

/-- Whether `d · 10 ^ k` lies among the reals that are rounded to the number at rank `r`. -/
def readsBackAs (r : Nat) (d : Nat) (k : Int) : Bool :=
  d ≠ 0 && rank (scaled 10 d k).1 (scaled 10 d k).2 == r

def neighbours (m : Nat) (q k : Int) : Nat × Nat :=
  let (a, b) := scaled 2 m q
  let below : Nat := if 0 ≤ k then a / scale 10 b k.toNat else scale 10 a (-k).toNat / b
  (below, below + 1)

def lowerIsNearer (m : Nat) (q k : Int) (below : Nat) : Bool :=
  let (a, b) := scaled 2 m q
  let (num, den) := if 0 ≤ k then (a, scale 10 b k.toNat) else (scale 10 a (-k).toNat, b)
  2 * (num - below * den) ≤ den

def onGrid (r : Nat) (k : Int) : Option (Nat × Int) :=
  let (m, q) := ofRank r
  let (lo, hi) := neighbours m q k
  match readsBackAs r lo k, readsBackAs r hi k with
  | true, true => some (if lowerIsNearer m q k lo then lo else hi, k)
  | true, false => some (lo, k)
  | false, true => some (hi, k)
  | false, false => none

def grids : List Int := (List.range 86).map fun (i : Nat) => 39 - (i : Int)

/-- The shortest decimal that reads back as the number at rank `r`. -/
def shortest (r : Nat) : Nat × Int :=
  if r = 0 then (0, 0) else (grids.findSome? (onGrid r)).getD (0, 0)

end Dyadic

end Lineage
