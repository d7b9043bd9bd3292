/-!
# Bounded computations

A computation with a bound on its steps ends without an answer for one of two reasons: it fails,
or the bound is too low. The two are kept apart, so that a failure never depends on the bound.
-/

namespace Formula

/-- Why a bounded computation gives no answer. -/
inductive Stop (ε : Type) where
  | error (e : ε)
  | exhausted
deriving DecidableEq, Repr

end Formula
