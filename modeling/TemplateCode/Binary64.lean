/-!
# Floating-point numbers of 64 bits

What it takes to tell whether a decimal is too large: a number is stored with 53 significant bits, and
from half a unit above the largest finite number on it is infinite.

* `Binary64.round` rounds a natural number to 53 significant bits.
* `Binary64.infinite` is the smallest natural number that rounds to infinity.
-/

namespace TemplateCode

/-- The power of ten with the given exponent. -/
def powerOfTen (exponent : Nat) : Nat :=
  Nat.pow 10 exponent

/-- The bound of natural numbers of 64 bits. -/
def wordBound : Nat := 1 <<< 64

namespace Binary64

/-- A natural number to 53 significant bits, a tie to the even neighbour. -/
def round (n : Nat) : Nat :=
  let unit := 1 <<< (n.log2 - 52)
  let quotient := n / unit
  let rest := 2 * (n % unit)
  if rest < unit || (rest = unit && quotient % 2 = 0) then quotient * unit else (quotient + 1) * unit

/-- The smallest natural number that rounds to infinity: half a unit above the largest finite number,
which has 53 bits set. -/
def infinite : Nat := (1 <<< 54 - 1) <<< 970

end Binary64

end TemplateCode
