/-
PagePreview.Number.Decimal — the shortest decimal that stands for a double.

The reals that round to a double `m · 2 ^ e` are an interval around it; its
ends belong to it iff `m` is even. Among the decimals in that interval the
ones with the fewest digits are wanted, and of those the nearest to the
double.

The decimals with digits down to `10 ^ k` are the grid of `k`. Grids are
tried from the leading digit of the double downwards, and on each only the
two neighbours of the double need a look: the grid has a point in the
interval only if one of them is.

* `Decimal` — digits and the place of the point.
* `gridPoint?` — the point of one grid.
* `shortest` — the first grid with a point gives the digits.
-/
import PagePreview.Number.Rounding

namespace PagePreview

/-- The value `0.d₁d₂… · 10 ^ point`. -/
structure Decimal where
  digits : List Nat
  point : Int
  deriving Repr, DecidableEq

/-- Which of two equally near decimals is taken. -/
inductive TieRule
  /-- The larger one. -/
  | up
  /-- The one whose last digit is even. -/
  | even
  deriving Repr, DecidableEq

namespace Decimal

/-- The decimal `n · 10 ^ k`, without zeros at its end. -/
def ofScaled (n : Nat) (k : Int) : Decimal :=
  let ds := digitsOf n
  ⟨(ds.reverse.dropWhile (· == 0)).reverse, ds.length + k⟩

/-- Where the point of `n / d` stands, both positive: the least `p` with
`n / d < 10 ^ p`. -/
def pointOf (n d : Nat) : Int :=
  if d ≤ n then (digitsOf (n / d)).length
  else 1 - (digitsOf ((d - 1) / n)).length

/-- The lower end of the interval that rounds to `m · 2 ^ e`, in quarters
of `2 ^ e`. Below a power of two doubles lie twice as close. -/
def lowQuarters (m : Nat) (e : Int) : Nat :=
  if m = Nat.pow 2 52 ∧ -1074 < e then 4 * m - 1 else 4 * m - 2

def highQuarters (m : Nat) : Nat :=
  4 * m + 2

/-- Whether `n`, in units in which the interval has the given ends, lies in
the interval of a significand. -/
def inInterval (m low high n : Nat) : Bool :=
  if m % 2 = 0 then low ≤ n && n ≤ high else low < n && n < high

/-- The multiple of `10 ^ k` that stands for `m · 2 ^ e`, if a neighbour of
it on that grid does. All lengths are scaled to be natural numbers. -/
def gridPoint? (tie : TieRule) (m : Nat) (e k : Int) : Option Nat :=
  let quarter := Nat.pow 2 (e - 2).toNat * Nat.pow 10 (-k).toNat
  let unit := Nat.pow 2 (2 - e).toNat * Nat.pow 10 k.toNat
  let value := 4 * m * quarter
  let reads n := inInterval m (lowQuarters m e * quarter) (highQuarters m * quarter) (n * unit)
  let below := value / unit
  let above := below + 1
  let rest := value % unit
  let lower : Bool :=
    if 2 * rest = unit then
      match tie with
      | .up => false
      | .even => below % 2 == 0
    else decide (2 * rest < unit)
  match reads below, reads above with
  | true, true => some (if lower then below else above)
  | true, false => some below
  | false, true => some above
  | false, false => none

def exact (m : Nat) (e : Int) : Decimal :=
  ofScaled (m * Nat.pow 2 e.toNat * Nat.pow 5 (-e).toNat) (min e 0)

/-- The shortest decimal that stands for `m · 2 ^ e`. -/
def shortest (tie : TieRule) (m : Nat) (e : Int) : Decimal :=
  let point := pointOf (m * Nat.pow 2 e.toNat) (Nat.pow 2 (-e).toNat)
  let grids := (List.range 17).map fun (i : Nat) => point - 1 - (i : Int)
  (grids.findSome? fun k => (gridPoint? tie m e k).map (ofScaled · k)).getD (exact m e)

end Decimal

end PagePreview
