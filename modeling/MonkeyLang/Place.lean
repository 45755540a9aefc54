/-!
# Places

Where something stands in a sequence is counted in 64 bits. Places are numbers of any size here; a place that is reached by
moving on from another one exists only if it fits.
-/

namespace MonkeyLang.Place

/-- The first number that does not fit a 64-bit place. -/
def limit : Nat := 18446744073709551616

/-- The place that is `n` behind another one, if it fits. -/
def after? (place n : Nat) : Option Nat := if place + n < limit then some (place + n) else none

end MonkeyLang.Place
