/-!
# Binary64 words

A cost is a 64-bit floating point number of the IEEE 754 standard, kept as its
word. Costs are ordered by the standard's `totalOrder`, which ranks every word,
signed zeros and NaNs included, so no two different words are ever tied. Every
operation on words is exact integer arithmetic followed by one rounding to
nearest, ties to even.
-/

namespace GrammarSearch

/-- A floating point number, as its 64-bit word. -/
structure Binary64 where
  bits : UInt64
deriving DecidableEq, Inhabited

namespace Binary64

/-! ## Fields -/

/-- The weight of the sign bit, the 63rd power of two. -/
def signWeight : Nat := 0x8000000000000000

/-- The number of words between one power of two and the next, the 52nd power of two. -/
def binadeSize : Nat := 0x10000000000000

/-- The sign bit is set. -/
def isNegative (x : Binary64) : Bool :=
  signWeight ≤ x.bits.toNat

/-- The word without its sign bit. -/
def magnitude (x : Binary64) : Nat :=
  x.bits.toNat % signWeight

/-- The magnitude of the infinities; larger magnitudes are NaNs. -/
def infiniteMagnitude : Nat := 0x7ff * binadeSize

/-- The word is no number. -/
def isNaN (x : Binary64) : Bool :=
  infiniteMagnitude < x.magnitude

/-- The word is one of the two infinities. -/
def isInfinite (x : Binary64) : Bool :=
  x.magnitude == infiniteMagnitude

/-- The word with a sign and a magnitude. -/
def ofMagnitude (negative : Bool) (magnitude : Nat) : Binary64 :=
  ⟨.ofNat (magnitude + if negative then signWeight else 0)⟩

/-- Zero with a positive sign. -/
def zero : Binary64 := ⟨0⟩

/-- The same number with the other sign. -/
def neg (x : Binary64) : Binary64 :=
  ofMagnitude (!x.isNegative) x.magnitude

/-- The significand `m` and scale `q` of a finite word: its absolute value is `m * 2 ^ q`. -/
def decode (x : Binary64) : Nat × Int :=
  let exponent : Nat := x.magnitude / binadeSize
  let fraction := x.magnitude % binadeSize
  if exponent = 0 then (fraction, -1074) else (binadeSize + fraction, (exponent : Int) - 1075)

/-! ## Order -/

/-- The place of a word in `totalOrder`, counted from the least NaN. Among
negative words a larger magnitude comes first, among positive ones later. -/
def rank (x : Binary64) : Nat :=
  if x.isNegative then signWeight - 1 - x.magnitude else signWeight + x.magnitude

instance : Ord Binary64 where
  compare x y := compare x.rank y.rank

/-- Words with one place in the order are one word. -/
theorem rank_injective {x y : Binary64} (h : x.rank = y.rank) : x = y := by
  obtain ⟨⟨x⟩⟩ := x
  obtain ⟨⟨y⟩⟩ := y
  have hx : x.toNat < 0x10000000000000000 := x.isLt
  have hy : y.toNat < 0x10000000000000000 := y.isLt
  simp only [rank, isNegative, magnitude, UInt64.toNat, decide_eq_true_eq] at h
  congr 2
  apply BitVec.eq_of_toNat_eq
  split at h <;> split at h <;> simp only [signWeight] at * <;> omega

/-! ## Rounding -/

/-- The quotient of `n` by `2 ^ s`, rounded to nearest and at a tie to the even neighbour. -/
def roundShift (n s : Nat) : Nat :=
  let quotient := n >>> s
  let rest := n - quotient <<< s
  let unit := 1 <<< s
  if rest * 2 < unit then quotient
  else if rest * 2 = unit ∧ quotient % 2 = 0 then quotient
  else quotient + 1

/-- The word nearest to `m * 2 ^ q`, with the given sign. -/
def ofDyadic (negative : Bool) (m : Nat) (q : Int) : Binary64 :=
  if m = 0 then ofMagnitude negative 0
  else
    let scale : Int := max (q + (Nat.log2 m : Nat) - 52) (-1074)
    let significand :=
      if q < scale then roundShift m (scale - q).toNat else m <<< (q - scale).toNat
    let magnitude :=
      if significand < binadeSize then significand
      else (scale + 1074).toNat * binadeSize + significand
    ofMagnitude negative (min magnitude infiniteMagnitude)

/-- The word nearest to a natural number. -/
def ofNat (n : Nat) : Binary64 :=
  ofDyadic false n 0

/-- The word nearest to an integer. -/
def ofInt (n : Int) : Binary64 :=
  ofDyadic (n < 0) n.natAbs 0

/-- The word nearest to `m / divisor * 2 ^ q`, with the given sign. The quotient is cut
off far below the last place of a word, and one further bit says whether the
cut lost anything, which is all that rounding can notice. -/
def ofQuotient (negative : Bool) (m divisor : Nat) (q : Int) : Binary64 :=
  let shift := Nat.log2 divisor + 66
  let quotient := (m <<< shift) / divisor
  let lost := if quotient * divisor = m <<< shift then 0 else 1
  ofDyadic negative (2 * quotient + lost) (q - shift - 1)

/-! ## Addition -/

/-- A NaN that arises from an operation on numbers. -/
def invalid : Binary64 := ⟨0xfff8000000000000⟩

/-- A NaN as an operation hands it on: its payload is kept and it is made quiet. -/
def quieted (x : Binary64) : Binary64 :=
  ⟨x.bits ||| 0x0008000000000000⟩

/-- The sum of two finite words: exact, then rounded once. An exact zero is
negative only if both summands are. -/
def addFinite (x y : Binary64) : Binary64 :=
  let (m, q) := x.decode
  let (n, r) := y.decode
  let scale := min q r
  let signed (negative : Bool) (k : Nat) : Int := if negative then -k else k
  let sum := signed x.isNegative (m <<< (q - scale).toNat)
    + signed y.isNegative (n <<< (r - scale).toNat)
  if sum = 0 then ofMagnitude (x.isNegative && y.isNegative) 0
  else ofDyadic (sum < 0) sum.natAbs scale

/-- The sum of two words. The first NaN is handed on, and opposite infinities have no sum. -/
def add (x y : Binary64) : Binary64 :=
  if x.isNaN then x.quieted
  else if y.isNaN then y.quieted
  else if x.isInfinite then
    if y.isInfinite && x.isNegative != y.isNegative then invalid else x
  else if y.isInfinite then y
  else addFinite x y

end Binary64

end GrammarSearch
