import Formula.Value
import Formula.Number.Elementary

/-!
# The standard language

The standard tables with the constants of the language: the truth values and two numbers.
-/

namespace Formula

/-- The constants of the standard language. -/
def standardConstants : Record Value :=
  [("E", .number Number.euler), ("PI", .number Number.pi), ("false", .bool false),
   ("true", .bool true)]

/-- The standard language under some options; its functions have identities from `id` on. -/
def Language.ofOptions (id : Nat) (options : Options) : Language Value :=
  Language.standard id options standardConstants

end Formula
