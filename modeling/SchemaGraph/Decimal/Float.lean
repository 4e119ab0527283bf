import SchemaGraph.Decimal.Shortest

/-! The text of a floating-point number: the fewest digits that read back, positional from `1e-5` up to
below `1e16`, with a decimal point in every positional form. -/
namespace SchemaGraph.Decimal

structure ExponentStyle where
  /-- Whether a positive exponent carries a sign. -/
  signed : Bool

/-- The text of a positive decimal. -/
def Scaled.text (style : ExponentStyle) (s : Scaled) : String :=
  let digits := Nat.toDigits 10 s.digits
  let count : Int := digits.length
  let point := count + s.exponent
  if 0 ≤ s.exponent ∧ point ≤ 16 then
    String.ofList (digits ++ List.replicate s.exponent.toNat '0') ++ ".0"
  else if 0 < point ∧ point ≤ 16 then
    String.ofList (digits.take point.toNat ++ '.' :: digits.drop point.toNat)
  else if -5 < point ∧ point ≤ 0 then
    "0." ++ String.ofList (List.replicate (-point).toNat '0' ++ digits)
  else
    let power := point - 1
    let sign := if 0 ≤ power ∧ style.signed then "+" else ""
    let fraction := if digits.length ≤ 1 then [] else '.' :: digits.drop 1
    String.ofList (digits.take 1 ++ fraction) ++ "e" ++ sign ++ toString power

def floatText (style : ExponentStyle) (x : Float) : String :=
  let bits := x.toBits.toNat
  let sign := if bits / Nat.pow 2 63 = 1 then "-" else ""
  let magnitude := bits % Nat.pow 2 63
  sign ++ if magnitude = 0 then "0.0" else (Binary.ofBits magnitude).shortest.text style

/-- The double nearest to `mantissa · 10 ^ exponent`.  Exponents beyond the range of doubles are
replaced by ones that lead to the same result. -/
def nearestFloat (negative : Bool) (mantissa : Nat) (exponent : Int) : Float :=
  let magnitude :=
    if mantissa = 0 then 0.0
    else
      let size : Int := (Nat.toDigits 10 mantissa).length
      if 400 < size + exponent then Float.ofScientific 1 false 400
      else if size + exponent < -400 then 0.0
      else Float.ofScientific mantissa (exponent < 0) exponent.natAbs
  if negative then -magnitude else magnitude

end SchemaGraph.Decimal
