/-! Bisection of a list whose front part satisfies a test.
Half of the remaining range is dropped at each step whatever the test says, so the number of steps
depends on the length of the list only.
-/

namespace CivilTime.Bisection

/-- Whether the element at a position satisfies the test. -/
def holdsAt (test : α → Bool) (xs : List α) (position : Nat) : Bool := xs[position]?.any test

/-- Narrows the range of `size` positions from `base` to a single one. -/
def narrow (test : α → Bool) (xs : List α) (base size : Nat) : Nat :=
  if size ≤ 1 then base
  else
    let half := size / 2
    narrow test xs (if holdsAt test xs (base + half) then base + half else base) (size - half)
termination_by size
decreasing_by omega

/-- The length of the front part that satisfies the test. -/
def partitionPoint (test : α → Bool) (xs : List α) : Nat :=
  let position := narrow test xs 0 xs.length
  if holdsAt test xs position then position + 1 else position

end CivilTime.Bisection
