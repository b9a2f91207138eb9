import Persista.Json.Value

/-!
# Field names

The names that `store/validation.py` lets into a query.
-/

namespace Persista

open Json

/-- `[A-Za-z]`. -/
def isLetter (c : CodePoint) : Bool :=
  decide (65 ≤ c.val ∧ c.val ≤ 90) || decide (97 ≤ c.val ∧ c.val ≤ 122)

/-- `[A-Za-z0-9_]`. -/
def isWord (c : CodePoint) : Bool :=
  isLetter c || decide (48 ≤ c.val ∧ c.val ≤ 57) || decide (c.val = 95)

/-- The string is `[A-Za-z_][A-Za-z0-9_]*`. -/
def isIdentifier : PyStr → Bool
  | [] => false
  | c :: cs => (isLetter c || decide (c.val = 95)) && cs.all isWord

/-- `_FIELD_NAME_PATTERN.match(name)`: `$` also matches before a newline that ends the string. -/
def fieldNameMatches (name : PyStr) : Bool :=
  isIdentifier name || (name.getLast?.any (fun c => decide (c.val = 10)) &&
    isIdentifier name.dropLast)

theorem fieldNameMatches_of_isIdentifier {name : PyStr} (h : isIdentifier name) :
    fieldNameMatches name := by
  rw [fieldNameMatches, h, Bool.true_or]

end Persista
