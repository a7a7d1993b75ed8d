import FramedTree.Decimal.Binary64

/-! # Shortest decimals

The decimal of a floating-point number is the one with the fewest digits among all that are nearer
to this number than to any other, and the nearest to it of those. It is written out in full near one
and with an exponent elsewhere.
-/

namespace FramedTree

/-- The number `digits * 10 ^ exponent`. -/
structure Decimal where
  digits : Nat
  exponent : Int
  deriving DecidableEq, Repr

namespace Decimal

/-- Compares the decimal with the fraction `num / den`. -/
def compareRatio (d : Decimal) (num den : Nat) : Ordering :=
  compare (d.digits * Nat.pow 10 d.exponent.toNat * den) (num * Nat.pow 10 (-d.exponent).toNat)

/-- Whether `x` is the floating-point number nearest to the decimal. The half-way points belong to
the even mantissa; below a power of two the neighbour is only half as far away. -/
def readsBack (x : Binary64) (d : Decimal) : Bool :=
  let narrow := x.mantissa == Nat.pow 2 52 && decide (Binary64.minExponent < x.exponent)
  let (low, den) := Binary64.scaled (4 * x.mantissa - (if narrow then 1 else 2)) 4 (-x.exponent)
  let (high, _) := Binary64.scaled (4 * x.mantissa + 2) 4 (-x.exponent)
  let ends := x.mantissa % 2 == 0
  let fromLow := d.compareRatio low den
  let fromHigh := d.compareRatio high den
  (fromLow == .gt || (ends && fromLow == .eq)) && (fromHigh == .lt || (ends && fromHigh == .eq))

/-- The decimal of a fraction cut off at `10 ^ exponent`. -/
def floor (num den : Nat) (exponent : Int) : Decimal :=
  ⟨num * Nat.pow 10 (-exponent).toNat / (den * Nat.pow 10 exponent.toNat), exponent⟩

/-- The better of two neighbours that read back: the nearer one, or the even one. -/
def nearer (x : Binary64) (low high : Decimal) : Decimal :=
  let (num, den) := x.toRatio
  match (⟨low.digits + high.digits, low.exponent⟩ : Decimal).compareRatio (2 * num) den with
  | .gt => low
  | .lt => high
  | .eq => if low.digits % 2 = 0 then low else high

/-- A decimal with the given exponent that reads back, if there is one. -/
def onGrid (x : Binary64) (exponent : Int) : Option Decimal :=
  let (num, den) := x.toRatio
  let low := floor num den exponent
  let high : Decimal := ⟨low.digits + 1, exponent⟩
  match readsBack x low, readsBack x high with
  | true, true => some (nearer x low high)
  | true, false => some low
  | false, true => some high
  | false, false => none

/-- The least power of ten above the number, near its estimate from the binary length. -/
def magnitude (x : Binary64) : Int :=
  let (num, den) := x.toRatio
  let guess := ((x.mantissa.log2 : Int) + x.exponent) * 30103 / 100000
  (([guess, guess + 1, guess + 2]).find? fun k =>
    (⟨1, k⟩ : Decimal).compareRatio num den == .gt).getD (guess + 3)

/-- Moves zeros at the end of the digits into the exponent. -/
def strip : (places : Nat) → Decimal → Decimal
  | 0, d => d
  | places + 1, d =>
    if d.digits ≠ 0 ∧ d.digits % 10 = 0 then strip places ⟨d.digits / 10, d.exponent + 1⟩ else d

/-- The shortest decimal of a number that is not zero. Seventeen digits always suffice. -/
def shortest (x : Binary64) : Decimal :=
  let top := magnitude x
  let found := (List.range 17).findSome? fun (n : Nat) => onGrid x (top - (n + 1))
  strip 20 (found.getD (floor x.toRatio.1 x.toRatio.2 (top - 17)))

structure Layout where
  /-- The smallest exponent of the leading digit that is written out in full. -/
  lowest : Int
  /-- The largest such exponent. -/
  highest : Int
  /-- The least number of digits of an exponent. -/
  exponentWidth : Nat

def padLeft (width : Nat) (text : String) : String :=
  String.join (List.replicate (width - text.length) "0") ++ text

def render (layout : Layout) (d : Decimal) : String :=
  let digits := toString d.digits
  let leading : Int := d.exponent + digits.length - 1
  if layout.lowest ≤ leading ∧ leading ≤ layout.highest then
    if leading < 0 then
      "0." ++ String.join (List.replicate (-leading - 1).toNat "0") ++ digits
    else
      let whole := digits.toList.take (leading.toNat + 1)
      let part := digits.toList.drop (leading.toNat + 1)
      String.ofList whole ++ String.join (List.replicate d.exponent.toNat "0") ++ "." ++
        (if part.isEmpty then "0" else String.ofList part)
  else
    let part := digits.toList.drop 1
    String.ofList (digits.toList.take 1) ++
      (if part.isEmpty then "" else "." ++ String.ofList part) ++
      (if leading < 0 then "e-" else "e+") ++
      padLeft layout.exponentWidth (toString leading.natAbs)

def textOf (layout : Layout) (negative : Bool) (x : Binary64) : String :=
  (if negative then "-" else "") ++ (if x.isZero then "0.0" else render layout (shortest x))

end Decimal
end FramedTree
