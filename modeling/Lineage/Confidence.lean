import Lineage.Decimal
/-! # Confidence

How sure a detector is of an operation: a binary fraction of 24 significant bits with a sign,
compared by value and written with the fewest digits that identify it.
-/
namespace Lineage

/-- A sign and a rank in the ascending list of magnitudes. -/
structure Confidence where
  negative : Bool
  rank : Nat
  deriving DecidableEq, Repr

namespace Confidence

def zero : Confidence := ⟨false, 0⟩

def one : Confidence := ⟨false, 0x3F800000⟩

instance : Inhabited Confidence := ⟨one⟩

/-- A signed position on the number line; the two zeros share one. -/
def position (c : Confidence) : Int := if c.negative then -(c.rank : Int) else c.rank

instance : LT Confidence := ⟨fun a b => a.position < b.position⟩
instance : LE Confidence := ⟨fun a b => a.position ≤ b.position⟩

instance (a b : Confidence) : Decidable (a < b) :=
  inferInstanceAs (Decidable (a.position < b.position))
instance (a b : Confidence) : Decidable (a ≤ b) :=
  inferInstanceAs (Decidable (a.position ≤ b.position))

def ofDecimal (d : Decimal) : Confidence :=
  if d.digits = 0 then ⟨d.negative, 0⟩
  else
    let (num, den) := Dyadic.scaled 10 d.digits d.exponent
    ⟨d.negative, min (Dyadic.rank num den) Dyadic.infinityRank⟩

def clamp (c : Confidence) : Confidence := if c < zero then zero else if one < c then one else c

def isFinite (c : Confidence) : Bool := c.rank < Dyadic.infinityRank

def toDecimal (c : Confidence) : Decimal :=
  let (d, k) := Dyadic.shortest c.rank
  ⟨c.negative, d, k⟩

theorem lt_iff {a b : Confidence} : a < b ↔ a.position < b.position := Iff.rfl

end Confidence

structure NumberStyle where
  leastPositional : Int
  endPositional : Int
  positiveSign : String

/-- Fractions are positional from `10 ^ -5` to below `10 ^ 16`, always with a point or an exponent,
and a positive exponent has its sign. -/
def NumberStyle.document : NumberStyle := ⟨-5, 16, "+"⟩

namespace Decimal

def text (style : NumberStyle) (d : Decimal) : String :=
  let ds := Nat.toDigits 10 d.digits
  let lead := d.exponent + (ds.length : Int) - 1
  let body :=
    if d.digits = 0 then ['0', '.', '0']
    else if style.leastPositional ≤ lead ∧ lead < style.endPositional then
      if 0 ≤ d.exponent then ds ++ List.replicate d.exponent.toNat '0' ++ ['.', '0']
      else if 0 ≤ lead then
        ds.take (lead + 1).toNat ++ ['.'] ++ ds.drop (lead + 1).toNat
      else ['0', '.'] ++ List.replicate (-lead - 1).toNat '0' ++ ds
    else
      let fraction := if ds.length = 1 then [] else '.' :: ds.drop 1
      let sign := if lead < 0 then ['-'] else style.positiveSign.toList
      ds.take 1 ++ fraction ++ ['e'] ++ sign ++ Nat.toDigits 10 lead.natAbs
  String.ofList (if d.negative then '-' :: body else body)

end Decimal

end Lineage
