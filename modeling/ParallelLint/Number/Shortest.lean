import ParallelLint.Number.Binary64

set_option autoImplicit false

/-!
The fewest decimal digits that read back as a given binary64 number, and of those the nearest
to it. The candidates with `n` digits are the two neighbours of the number on the grid of `n`
digits; the first grid with a candidate inside the interval that rounds to the number wins.
-/
namespace ParallelLint.Number

/-- `digits * 10 ^ exponent`. -/
structure Decimal where
  digits : Nat
  exponent : Int
  deriving DecidableEq, Repr, Inhabited

def timesPowerOfTen (n d : Nat) (e : Int) : Nat × Nat :=
  if 0 ≤ e then (n * Nat.pow 10 e.toNat, d) else (n, d * Nat.pow 10 (-e).toNat)

/-- The least `p` from `p₀` on with `n / d < 10 ^ p`, tried `fuel` times. -/
def decimalMagnitude (n d : Nat) : Nat → Int → Int
  | 0, p => p
  | fuel + 1, p =>
    let s := timesPowerOfTen n d (-p)
    if s.1 < s.2 then p else decimalMagnitude n d fuel (p + 1)

/-- Twice the distances are compared, so that all stay whole: the interval around
`mantissa * 2 ^ exponent` runs from `lower` to `upper` in units of `2 ^ (exponent - 2)`. -/
structure RoundingInterval where
  lower : Nat
  value : Nat
  upper : Nat
  closed : Bool
  scale : Int

def roundingInterval (x : Binary64) : RoundingInterval :=
  { lower := if x.mantissa = 1 <<< 52 && -1074 < x.exponent then 4 * x.mantissa - 1
      else 4 * x.mantissa - 2
    value := 4 * x.mantissa
    upper := 4 * x.mantissa + 2
    closed := x.mantissa % 2 = 0
    scale := x.exponent - 2 }

def RoundingInterval.contains (i : RoundingInterval) (k : Nat) (e : Int) : Bool :=
  let decimal := timesPowerOfTen k 1 e
  let unit := scaled 1 1 i.scale
  let point := decimal.1 * unit.2
  let one := unit.1 * decimal.2
  if i.closed then i.lower * one ≤ point && point ≤ i.upper * one
  else i.lower * one < point && point < i.upper * one

def shortestFrom (i : RoundingInterval) (num den : Nat) (magnitude : Int) : Nat → Nat → Decimal
  | 0, n =>
    let e := magnitude - n
    let s := timesPowerOfTen num den (-e)
    ⟨roundHalfEven s.1 s.2, e⟩
  | fuel + 1, n =>
    let e := magnitude - n
    let s := timesPowerOfTen num den (-e)
    let low := s.1 / s.2
    match i.contains low e, i.contains (low + 1) e with
    | false, false => shortestFrom i num den magnitude fuel (n + 1)
    | true, false => ⟨low, e⟩
    | false, true => ⟨low + 1, e⟩
    | true, true => ⟨roundHalfEven s.1 s.2, e⟩

def Decimal.stripZeros : Nat → Decimal → Decimal
  | 0, x => x
  | fuel + 1, x =>
    if x.digits ≠ 0 && x.digits % 10 = 0 then stripZeros fuel ⟨x.digits / 10, x.exponent + 1⟩ else x

def shortest (x : Binary64) : Decimal :=
  if x.mantissa = 0 then ⟨0, 0⟩
  else
    let r := x.ratio
    let guess := ((Nat.log2 r.1 : Int) - Nat.log2 r.2) * 30103 / 100000 - 1
    let magnitude := decimalMagnitude r.1 r.2 5 guess
    (shortestFrom (roundingInterval x) r.1 r.2 magnitude 16 1).stripZeros 17

end ParallelLint.Number
