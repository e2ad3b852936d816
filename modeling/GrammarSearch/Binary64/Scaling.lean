import GrammarSearch.Binary64.Basic

/-!
# Scaling by powers of ten

A decimal is read as a significand that a power of ten scales, not as the word
nearest to it: `Binary64.scaled?` rounds the significand to a word and then
multiplies or divides it by the word of the power of ten, which rounds again.
The two roundings may leave a decimal with many digits next to its nearest word.
A decimal whose significand and power of ten are words themselves is read
without the first rounding, and so as the word nearest to it.
-/

namespace GrammarSearch

namespace Binary64

/-! ## Products and quotients -/

/-- The product of two finite words: exact, then rounded once. -/
def mulFinite (x y : Binary64) : Binary64 :=
  let (m, q) := x.decode
  let (n, r) := y.decode
  ofDyadic (x.isNegative != y.isNegative) (m * n) (q + r)

/-- The quotient of two finite words, of which the second is not zero: exact, then rounded once. -/
def divFinite (x y : Binary64) : Binary64 :=
  let (m, q) := x.decode
  let (n, r) := y.decode
  ofQuotient (x.isNegative != y.isNegative) m n (q - r)

/-! ## Powers of ten -/

/-- The exponent of the greatest power of ten that has a finite word. -/
def maxTenPower : Nat := 308

/-- The word nearest to a power of ten. -/
def tenPower (exponent : Nat) : Binary64 :=
  ofNat (Nat.pow 10 exponent)

/-- A finite word divided by a power of ten. A power that has no finite word is divided out
in parts, until nothing is left of the word. -/
def scaledDown (x : Binary64) (exponent : Nat) : Binary64 :=
  if exponent ≤ maxTenPower then x.divFinite (tenPower exponent)
  else if x.magnitude = 0 then x
  else (x.divFinite (tenPower maxTenPower)).scaledDown (exponent - maxTenPower)
termination_by exponent
decreasing_by simp only [maxTenPower] at *; omega

/-- A finite word multiplied by a power of ten, unless the product is too great for a word. -/
def scaledUp? (x : Binary64) (exponent : Nat) : Option Binary64 :=
  if x.magnitude = 0 then some x
  else if maxTenPower < exponent then none
  else
    let product := x.mulFinite (tenPower exponent)
    if product.isInfinite then none else some product

/-- The significand, as a word with the given sign, scaled by a power of ten. -/
def scaled? (negative : Bool) (significand : Nat) (exponent : Int) : Option Binary64 :=
  let x := ofDyadic negative significand 0
  if 0 ≤ exponent then x.scaledUp? exponent.toNat else some (x.scaledDown exponent.natAbs)

/-- Three tenths and the next word above are told apart. -/
example : scaled? false 3 (-1) = some ⟨0x3fd3333333333333⟩ ∧
    scaled? false 30000000000000004 (-17) = some ⟨0x3fd3333333333334⟩ := by decide +kernel

end Binary64

end GrammarSearch
