import Persista.Json.Value

/-!
# Metadata values

What the functions of `record/analysis` see of a Python value: its type, whether it is `None` or
equal to the empty string, its `str`, how it compares with others in a set or a `dict`, and whether
it can be hashed. A value may have no `str`: an integer of more than 4300 digits raises `ValueError`
there, and a `__str__` may raise anything.

There are two answers to the last question. `isinstance(value, Hashable)` asks the type for a
`__hash__`; `hash(value)` calls it. A tuple has one, and it raises `TypeError` when an element of
the tuple cannot be hashed.

## Main definitions

* `Objects` — values of any kind, with what is known of them
* `Objects.text` — the `str` of a value that has one
* `Value`, `Value.objects` — some built-in values
-/

namespace Persista

namespace Analysis

open Json

/-- Values and their types. In a set or a `dict` a value is found as another one when it is the same
object or equal to it, which is an equivalence of values. -/
structure Objects (V Ty : Type) where
  typeOf : V → Ty
  /-- `type(value).__name__`. -/
  typeName : Ty → PyStr
  /-- `value is None`. -/
  isNone : V → Bool
  /-- `value == ""`. -/
  isEmptyStr : V → Bool
  /-- `isinstance(value, Hashable)`. -/
  isHashable : V → Bool
  /-- `hash(value)` does not raise. -/
  hashes : V → Bool
  /-- `value is other or value == other`. -/
  same : V → V → Bool
  /-- `str(value)`; `none` when it raises. -/
  str : V → Option PyStr
  /-- A `str`, as a value. -/
  ofStr : PyStr → V
  /-- The order in which a set of values is iterated that were added in some order. -/
  iter : List V → List V
  same_refl : ∀ v, same v v = true
  same_symm : ∀ v w, same v w = true → same w v = true
  same_trans : ∀ u v w, same u v = true → same v w = true → same u w = true
  isHashable_of_hashes : ∀ v, hashes v = true → isHashable v = true
  hashes_ofStr : ∀ s, hashes (ofStr s) = true
  same_ofStr : ∀ s t, same (ofStr s) (ofStr t) = true ↔ s = t
  iter_perm : ∀ vs, (iter vs).Perm vs

theorem Objects.equivalence {V Ty : Type} (py : Objects V Ty) :
    Equivalence fun v w => py.same v w = true where
  refl := py.same_refl
  symm h := py.same_symm _ _ h
  trans h h' := py.same_trans _ _ _ h h'

/-- `str(value)`, where it returns. -/
def Objects.text {V Ty : Type} (py : Objects V Ty) (v : V) : PyStr := (py.str v).getD []

/-! ### Some built-in values -/

/-- `None`, numbers, strings, lists of integers, and the tuples of one such list. -/
inductive Value
  | none
  | bool (b : Bool)
  | int (n : ℤ)
  | str (s : PyStr)
  | list (items : List ℤ)
  | tuple (items : List ℤ)
  deriving DecidableEq

namespace Value

/-- The types of the values. -/
inductive Kind
  | noneType
  | bool
  | int
  | str
  | list
  | tuple
  deriving DecidableEq

/-- `type(value)`. -/
def kind : Value → Kind
  | .none => .noneType
  | .bool _ => .bool
  | .int _ => .int
  | .str _ => .str
  | .list _ => .list
  | .tuple _ => .tuple

/-- The name of a type. -/
def Kind.name : Kind → PyStr
  | .noneType => ofString "NoneType"
  | .bool => ofString "bool"
  | .int => ofString "int"
  | .str => ofString "str"
  | .list => ofString "list"
  | .tuple => ofString "tuple"

/-- What a value is compared by: numbers by their number, and the others as they are. -/
def plain : Value → Value
  | .bool b => .int b.toNat
  | v => v

/-- `int.__repr__`, which writes no more than 4300 digits. -/
def intRepr (n : ℤ) : Option (List Char) :=
  if (intText n.natAbs).length ≤ 4300 then some (intText n) else Option.none

/-- The text of a list of integers. -/
def listText (items : List ℤ) : Option (List Char) :=
  (items.mapM intRepr).map fun texts => '[' :: (", ".toList.intercalate texts ++ [']'])

/-- `str(value)`; `none` when it raises. -/
def str? : Value → Option PyStr
  | .none => some (ofString "None")
  | .bool true => some (ofString "True")
  | .bool false => some (ofString "False")
  | .int n => (intRepr n).map fun text => ofString (String.ofList text)
  | .str s => some s
  | .list items => (listText items).map fun text => ofString (String.ofList text)
  | .tuple items =>
    (listText items).map fun text => ofString (String.ofList ('(' :: (text ++ [',', ')'])))

/-- The values, in a set that is iterated in the order of its insertions. -/
def objects : Objects Value Kind where
  typeOf := kind
  typeName := Kind.name
  isNone v := decide (v = .none)
  isEmptyStr v := decide (v = .str [])
  isHashable v := decide (v.kind ≠ .list)
  hashes v := decide (v.kind ≠ .list ∧ v.kind ≠ .tuple)
  same v w := decide (v.plain = w.plain)
  str := str?
  ofStr := .str
  iter := id
  same_refl v := decide_eq_true rfl
  same_symm v w h := decide_eq_true (of_decide_eq_true h).symm
  same_trans u v w h h' := decide_eq_true ((of_decide_eq_true h).trans (of_decide_eq_true h'))
  isHashable_of_hashes v h := decide_eq_true (of_decide_eq_true h).1
  hashes_ofStr _ := rfl
  same_ofStr s t := by
    show decide (Value.str s = Value.str t) = true ↔ s = t
    rw [decide_eq_true_eq, Value.str.injEq]
  iter_perm vs := .refl vs

end Value

end Analysis

end Persista
