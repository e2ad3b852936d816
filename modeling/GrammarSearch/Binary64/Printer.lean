import GrammarSearch.Binary64.Shortest

/-!
# Texts of words

Two texts of a floating point word, both from its shortest decimal. Diagnostics
write every number positionally, whole ones without a point, and of two equally
near decimals the greater. JSON writes whole numbers with `.0` and very large and
very small ones with an exponent, and of two equally near decimals the even one.
-/

namespace GrammarSearch

namespace Binary64

/-- A decimal written positionally; `whole` follows a number without a fraction. -/
def Decimal.positional (d : Decimal) (whole : String) : String :=
  let digits := Nat.toDigits 10 d.digits
  if 0 ≤ d.exponent then
    String.ofList (digits ++ List.replicate d.exponent.toNat '0') ++ whole
  else
    let places := (-d.exponent).toNat
    if places < digits.length then
      String.ofList (digits.take (digits.length - places)) ++ "." ++
        String.ofList (digits.drop (digits.length - places))
    else
      "0." ++ String.ofList (List.replicate (places - digits.length) '0' ++ digits)

/-- A decimal written with one digit before the point and an explicit exponent. -/
def Decimal.scientific (d : Decimal) : String :=
  let digits := Nat.toDigits 10 d.digits
  let exponent := d.exponent + (digits.length : Int) - 1
  let point := if digits.length = 1 then "" else "."
  String.ofList (digits.take 1) ++ point ++ String.ofList (digits.drop 1) ++ "e" ++
    (if 0 ≤ exponent then "+" else "-") ++ toString exponent.natAbs

/-- The sign that stands before a text. -/
def signText (x : Binary64) : String :=
  if x.isNegative then "-" else ""

/-- A word as diagnostics write it: `1`, `0.5`, `-0`, `inf`. A NaN shows no sign. -/
def text (x : Binary64) : String :=
  if x.isNaN then "NaN"
  else if x.isInfinite then x.signText ++ "inf"
  else x.signText ++ (x.shortest .up).positional ""

/-- A finite word as JSON writes it: `1.0`, `123456.789`, `1e+30`. -/
def jsonText (x : Binary64) : String :=
  let d := x.shortest .toEven
  let decade : Int := d.exponent + (Nat.toDigits 10 d.digits).length
  x.signText ++ if -5 < decade ∧ decade ≤ 16 then d.positional ".0" else d.scientific

end Binary64

end GrammarSearch
