/-! The shortest decimal that reads back as a given binary floating-point number.

A finite double is `m · 2 ^ q`.  The reals that round to it form an interval, closed exactly when `m` is
even.  For each number of digits only the two neighbours of the value on that decimal grid need a
look: if any point of the grid lies in the interval, so does one of these. -/
namespace SchemaGraph.Decimal

/-- A positive binary number `mantissa · 2 ^ exponent`; at a power of two the next smaller double is
only half as far away as the next larger one. -/
structure Binary where
  mantissa : Nat
  exponent : Int
  atPower : Bool

/-- The decimal `digits · 10 ^ exponent`. -/
structure Scaled where
  digits : Nat
  exponent : Int

def Binary.ofBits (bits : Nat) : Binary :=
  let fraction : Nat := bits % Nat.pow 2 52
  let biased : Nat := bits / Nat.pow 2 52 % Nat.pow 2 11
  if biased = 0 then ⟨fraction, -1074, false⟩
  else ⟨fraction + Nat.pow 2 52, Int.ofNat biased - 1075, fraction == 0 && biased != 1⟩

def power (base : Nat) (e : Int) : Nat := if 0 ≤ e then base.pow e.toNat else 1

/-- The neighbour of `b` on the grid of multiples of `10 ^ k` that is closest to it among those that
round to `b`.  All quantities are counted in quarters of the last binary place. -/
def Binary.neighbour? (b : Binary) (k : Int) : Option Nat :=
  let q := b.exponent - 2
  let left := power 2 q * power 10 (-k)
  let right := power 2 (-q) * power 10 k
  let value := 4 * b.mantissa * left
  let low := (4 * b.mantissa - if b.atPower then 1 else 2) * left
  let high := (4 * b.mantissa + 2) * left
  let inside := fun c =>
    if b.mantissa % 2 = 0 then low ≤ c * right && c * right ≤ high
    else low < c * right && c * right < high
  let below := value / right
  let above := below + 1
  match inside below, inside above with
  | true, true =>
    let toBelow := value - below * right
    let toAbove := above * right - value
    some (if toBelow < toAbove ∨ (toBelow = toAbove ∧ below % 2 = 0) then below else above)
  | true, false => some below
  | false, true => some above
  | false, false => none

/-- The decimal exponent of the leading digit.  No finite double is as small as `10 ^ (-400)`. -/
def Binary.leading (b : Binary) : Int :=
  let scaled := b.mantissa * power 2 b.exponent * power 10 400 / power 2 (-b.exponent)
  ((Nat.toDigits 10 scaled).length : Int) - 401

/-- Drops trailing zeros of the digits; `fuel` is the number of digits. -/
def Scaled.reduce : Nat → Scaled → Scaled
  | 0, s => s
  | fuel + 1, s =>
    if s.digits ≠ 0 ∧ s.digits % 10 = 0 then reduce fuel ⟨s.digits / 10, s.exponent + 1⟩ else s

/-- Tries ever more digits; seventeen always suffice. -/
def Binary.shortestFrom (b : Binary) (count : Nat) : Nat → Scaled
  | 0 => ⟨b.mantissa, b.exponent⟩
  | fuel + 1 =>
    let k := b.leading - count + 1
    match b.neighbour? k with
    | some digits => Scaled.reduce 18 ⟨digits, k⟩
    | none => b.shortestFrom (count + 1) fuel

def Binary.shortest (b : Binary) : Scaled := b.shortestFrom 1 17

end SchemaGraph.Decimal
