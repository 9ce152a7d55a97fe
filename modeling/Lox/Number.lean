import Lox.Decimal.Shortest

namespace Lox.Number

open Decimal

structure Layout where
  positionalFrom : Int
  positionalBelow : Int
  wholeSuffix : String
  exponentWidth : Nat

/-- Positional from `1e-4` to below `1e16`; an exponent has a sign and two digits at least. -/
def layout : Layout := ⟨-4, 16, "", 2⟩

def plainLayout : Layout := { layout with wholeSuffix := ".0" }

def significantDigits (d : Decimal) : List Char :=
  ((Nat.toDigits 10 d.significand).reverse.dropWhile (· == '0')).reverse

def Layout.positional (l : Layout) (digits : List Char) (whole : Int) : String :=
  if whole ≤ 0 then
    "0." ++ String.ofList (List.replicate (-whole).toNat '0' ++ digits)
  else
    let n := whole.toNat
    let integer := digits.take n ++ List.replicate (n - digits.length) '0'
    match digits.drop n with
    | [] => String.ofList integer ++ l.wholeSuffix
    | fraction => String.ofList integer ++ "." ++ String.ofList fraction

def Layout.scientific (l : Layout) (digits : List Char) (exponent : Int) : String :=
  let mantissa := match digits with
    | d :: e :: rest => d :: '.' :: e :: rest
    | _ => digits
  let power := Nat.toDigits 10 exponent.natAbs
  let sign := if exponent < 0 then "-" else "+"
  String.ofList mantissa ++ "e" ++ sign
    ++ String.ofList (List.replicate (l.exponentWidth - power.length) '0' ++ power)

def Layout.decimal (l : Layout) (d : Decimal) : String :=
  let exponent := d.exponent + digitCount d.significand - 1
  let digits := significantDigits d
  if l.positionalFrom ≤ exponent ∧ exponent < l.positionalBelow then
    l.positional digits (exponent + 1)
  else
    l.scientific digits exponent

/-- The text of a double. Zero keeps its sign; a value that is not a number has none. -/
def Layout.number (l : Layout) (x : Float) : String :=
  let sign := if negative x then "-" else ""
  match magnitude x with
  | .nan => "nan"
  | .infinite => sign ++ "inf"
  | .finite 0 _ => sign ++ "0" ++ l.wholeSuffix
  | .finite m q => sign ++ l.decimal (shortest m q)

def text (x : Float) : String := layout.number x

def plainText (x : Float) : String := plainLayout.number x

def naturalOfDigits (digits : List Char) : Nat :=
  digits.foldl (fun n d => 10 * n + (d.toNat - '0'.toNat)) 0

def ofDigits (whole fraction : List Char) : Float :=
  Float.ofScientific (naturalOfDigits (whole ++ fraction)) true fraction.length

end Lox.Number
