import GrammarSearch.Binary64.Basic

/-!
# Shortest decimals

Of the decimals to which a given finite word is nearest, `Binary64.shortest`
finds one with the fewest digits, and among those the nearest to the word; where
two are equally near, the caller says which. A decimal with `n` digits lies on a
grid of powers of ten; if some point of the grid rounds to the word, one of the
word's two neighbours on the grid does, so only those two are tried, for one
digit, two digits, and so on. Seventeen digits always suffice.
-/

namespace GrammarSearch

namespace Binary64

/-- A decimal: the digits of `digits` times ten to the power `exponent`. -/
structure Decimal where
  digits : Nat
  exponent : Int
deriving DecidableEq

/-- Which of two equally near decimals is chosen. -/
inductive Tie
  /-- The one whose last digit is even. -/
  | toEven
  /-- The greater one. -/
  | up
deriving DecidableEq

/-- The positive rationals that round to a word: the word itself and the two ends, over one
denominator. The ends belong to the interval when the significand is even. -/
structure Interval where
  lower : Nat
  value : Nat
  upper : Nat
  denominator : Nat
  closed : Bool

/-- The interval around a finite word. Below a power of two words lie twice as close. -/
def interval (x : Binary64) : Interval :=
  let (m, q) := x.decode
  let below := if m = binadeSize ∧ -1074 < q then 1 else 2
  let up := (q - 2).toNat
  { lower := (4 * m - below) <<< up
    value := (4 * m) <<< up
    upper := (4 * m + 2) <<< up
    denominator := 1 <<< (2 - q).toNat
    closed := m % 2 == 0 }

/-- The exponent `k` with `10 ^ (k - 1) ≤ value < 10 ^ k`. -/
def Interval.decade (i : Interval) : Int :=
  if i.denominator ≤ i.value then (Nat.toDigits 10 (i.value / i.denominator)).length
  else 1 - (Nat.toDigits 10 ((i.denominator - 1) / i.value)).length

/-- The point of the grid of multiples of `10 ^ exponent` that rounds to the word and is nearest
to the value. -/
def Interval.gridPoint? (i : Interval) (tie : Tie) (exponent : Int) : Option Nat :=
  let scale := Nat.pow 10 (-exponent).toNat
  let unit := i.denominator * Nat.pow 10 exponent.toNat
  let value := i.value * scale
  let inside (n : Nat) : Bool :=
    if i.closed then i.lower * scale ≤ n * unit && n * unit ≤ i.upper * scale
    else i.lower * scale < n * unit && n * unit < i.upper * scale
  let floor := value / unit
  let rest := value - floor * unit
  let tieGoesDown := tie = .toEven ∧ floor % 2 = 0
  let lowFirst := rest * 2 < unit ∨ (rest * 2 = unit ∧ tieGoesDown)
  if lowFirst then
    if inside floor then some floor else if inside (floor + 1) then some (floor + 1) else none
  else
    if inside (floor + 1) then some (floor + 1) else if inside floor then some floor else none

/-- The first grid with a point that rounds to the word, among those with at least `count`
digits. -/
def Interval.search (i : Interval) (tie : Tie) (decade : Int) : Nat → Nat → Decimal
  | 0, count => ⟨i.value / i.denominator, decade - count⟩
  | fuel + 1, count =>
    match i.gridPoint? tie (decade - count) with
    | some n => ⟨n, decade - count⟩
    | none => i.search tie decade fuel (count + 1)

/-- A decimal without trailing zeros. -/
def Decimal.trimmed (d : Decimal) : Decimal :=
  let digits := Nat.toDigits 10 d.digits
  let zeros := (digits.reverse.takeWhile (· == '0')).length
  if d.digits = 0 then ⟨0, 0⟩ else ⟨d.digits / Nat.pow 10 zeros, d.exponent + zeros⟩

/-- The shortest decimal that rounds to the absolute value of a finite word. -/
def shortest (x : Binary64) (tie : Tie) : Decimal :=
  if x.magnitude = 0 then ⟨0, 0⟩
  else
    let i := x.interval
    (i.search tie i.decade 17 1).trimmed

/-- One tenth has one digit, though no word is one tenth. -/
example : shortest ⟨0x3fb999999999999a⟩ .toEven = ⟨1, -1⟩ := by decide +kernel

/-- The 25th power of one half is halfway between two decimals of seventeen digits. -/
example : shortest ⟨0x3e60000000000000⟩ .toEven = ⟨29802322387695312, -24⟩ ∧
    shortest ⟨0x3e60000000000000⟩ .up = ⟨29802322387695313, -24⟩ := by decide +kernel

end Binary64

end GrammarSearch
