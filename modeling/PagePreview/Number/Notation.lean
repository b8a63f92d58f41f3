/-
PagePreview.Number.Notation — how doubles are written.

A notation says up to where digits are written plainly and when an
exponent takes over, and settles the details that remain. Two notations
are in use: `Notation.page`, in which values appear on a page, and
`Notation.json`, in which they travel.
-/
import PagePreview.Number.Decimal

namespace PagePreview

/-- A way of writing doubles. -/
structure Notation where
  /-- The least place of the point at which no exponent is written. -/
  plainFrom : Int
  /-- The greatest place of the point at which no exponent is written. -/
  plainTo : Int
  /-- Whether a whole number written plainly ends in `.0`. -/
  pointZero : Bool
  /-- Whether a negative zero shows its sign. -/
  signedZero : Bool
  /-- Which of two equally near shortest decimals is written. -/
  tie : TieRule

namespace Notation

/-- On a page, numbers from one millionth up to 10²¹ are written plainly,
whole numbers without a point, and zero never has a sign. -/
def page : Notation := ⟨-5, 21, false, false, .up⟩

/-- In transit, numbers from 10⁻⁵ up to 10¹⁶ are written plainly, and a
number that is not an integer always shows a point or an exponent. -/
def json : Notation := ⟨-4, 16, true, true, .even⟩

def digitChar (d : Nat) : Char :=
  Char.ofNat (48 + d)

def digitText (ds : List Nat) : List Char :=
  ds.map digitChar

def natText (n : Nat) : List Char :=
  digitText (digitsOf n)

def natString (n : Nat) : String :=
  String.ofList (natText n)

def intText (n : Int) : List Char :=
  if n < 0 then '-' :: natText n.natAbs else natText n.natAbs

/-- Digits with a point, and without an exponent. -/
def plain (style : Notation) (d : Decimal) : List Char :=
  let count := d.digits.length
  if d.point ≤ 0 then
    '0' :: '.' :: (List.replicate (-d.point).toNat '0' ++ digitText d.digits)
  else if count ≤ d.point.toNat then
    digitText d.digits ++ List.replicate (d.point.toNat - count) '0' ++
      (if style.pointZero then ['.', '0'] else [])
  else
    digitText (d.digits.take d.point.toNat) ++
      '.' :: digitText (d.digits.drop d.point.toNat)

/-- One digit before the point, and an exponent with its sign. -/
def scientific (d : Decimal) : List Char :=
  let exponent := d.point - 1
  let fraction := digitText (d.digits.drop 1)
  digitText (d.digits.take 1) ++ (if fraction = [] then [] else '.' :: fraction) ++
    'e' :: (if exponent < 0 then '-' else '+') :: natText exponent.natAbs

def decimal (style : Notation) (d : Decimal) : List Char :=
  if style.plainFrom ≤ d.point ∧ d.point ≤ style.plainTo then style.plain d
  else scientific d

/-- A finite double `± m · 2 ^ e` as text. -/
def finite (style : Notation) (negative : Bool) (m : Nat) (e : Int) : List Char :=
  let d := if m = 0 then ⟨[0], 1⟩ else Decimal.shortest style.tie m e
  if negative ∧ (m ≠ 0 ∨ style.signedZero) then '-' :: style.decimal d else style.decimal d

end Notation

/-- A double as it appears on a page. -/
def Double.pageText : Double → String
  | nan => "NaN"
  | infinite false => "Infinity"
  | infinite true => "-Infinity"
  | finite negative m e _ => String.ofList (Notation.page.finite negative m e)

end PagePreview
