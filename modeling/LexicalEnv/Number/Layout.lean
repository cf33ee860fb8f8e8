import LexicalEnv.Number.Shortest

/-!
# Layout of decimals

How the digits of a number become text is a small set of decisions, collected
in one record. The record itself is chosen where numbers are displayed.
-/

namespace LexicalEnv

/-- The decisions of a number format. The point position of `d₁d₂… * 10 ^ e` is the number
of digits before the point. -/
structure NumberFormat where
  firstPoint : Int
  lastPoint : Int
  wholeTail : String
  exponentDigits : Nat
  infinity : String
  undefined : String

namespace NumberFormat

def zeros (n : Nat) : String := String.ofList (List.replicate n '0')

def padded (width : Nat) (n : Nat) : String :=
  let text := Nat.repr n
  zeros (width - text.length) ++ text

def positional (format : NumberFormat) (digits : String) (point : Int) : String :=
  if point ≤ 0 then "0." ++ zeros (-point).toNat ++ digits
  else if digits.length ≤ point.toNat then
    digits ++ zeros (point.toNat - digits.length) ++ format.wholeTail
  else
    let cut := digits.toList.splitAt point.toNat
    String.ofList cut.1 ++ "." ++ String.ofList cut.2

def scientific (format : NumberFormat) (digits : String) (point : Int) : String :=
  let power := point - 1
  let mantissa := match digits.toList with
    | [] => ""
    | [d] => String.singleton d
    | d :: rest => String.singleton d ++ "." ++ String.ofList rest
  mantissa ++ "e" ++ (if power < 0 then "-" else "+") ++ padded format.exponentDigits power.natAbs

def decimal (format : NumberFormat) (d : Decimal) : String :=
  let digits := Nat.repr d.digits
  let point := d.exponent + digits.length
  if d.digits = 0 ∨ (format.firstPoint ≤ point ∧ point ≤ format.lastPoint) then
    format.positional digits point
  else format.scientific digits point

def binary (format : NumberFormat) : Binary64 → String
  | .infinite negative => (if negative then "-" else "") ++ format.infinity
  | .finite negative m e => (if negative then "-" else "") ++ format.decimal (Decimal.shortest m e)

end NumberFormat

end LexicalEnv
