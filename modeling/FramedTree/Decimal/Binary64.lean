/-! # Binary floating point

Non-negative numbers of the form `m * 2 ^ e` with a mantissa of 53 bits. Every operation takes the
exact result, as a fraction, to the nearest such number, an exact half to the even mantissa. A
result past the largest one is none.
-/

namespace FramedTree

/-- The number `mantissa * 2 ^ exponent`. -/
structure Binary64 where
  mantissa : Nat
  exponent : Int
  deriving DecidableEq, Repr

namespace Binary64

def minExponent : Int := -1074

def maxExponent : Int := 971

def zero : Binary64 := ⟨0, minExponent⟩

def isZero (x : Binary64) : Bool := x.mantissa == 0

/-- The quotient to the nearest number, a half to the even one. -/
def divNearest (num den : Nat) : Nat :=
  let quotient := num / den
  let twice := 2 * (num % den)
  if twice < den then quotient
  else if den < twice then quotient + 1
  else if quotient % 2 = 0 then quotient else quotient + 1

/-- The fraction `num * 2 ^ (-shift)` over `den`, as two natural numbers. -/
def scaled (num den : Nat) (shift : Int) : Nat × Nat :=
  (num * Nat.pow 2 (-shift).toNat, den * Nat.pow 2 shift.toNat)

def ofRatio (num den : Nat) : Option Binary64 :=
  if num = 0 then some zero
  else
    let guess : Int := num.log2 - den.log2 - 52
    let (above, below) := scaled num den guess
    let exact := if above < Nat.pow 2 52 * below then guess - 1 else guess
    let exponent := max exact minExponent
    let (above, below) := scaled num den exponent
    let mantissa := divNearest above below
    let rounded : Binary64 :=
      if mantissa = Nat.pow 2 53 then ⟨Nat.pow 2 52, exponent + 1⟩ else ⟨mantissa, exponent⟩
    if maxExponent < rounded.exponent then none else some rounded

def ofNat (n : Nat) : Option Binary64 := ofRatio n 1

def toRatio (x : Binary64) : Nat × Nat := scaled x.mantissa 1 (-x.exponent)

def mul (x y : Binary64) : Option Binary64 :=
  ofRatio (x.toRatio.1 * y.toRatio.1) (x.toRatio.2 * y.toRatio.2)

def div (x y : Binary64) : Option Binary64 :=
  ofRatio (x.toRatio.1 * y.toRatio.2) (x.toRatio.2 * y.toRatio.1)

end Binary64
end FramedTree
