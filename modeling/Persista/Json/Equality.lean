import Persista.Json.Value

/-!
# `==` on Python values

Numbers are compared as numbers, whatever their type: `True == 1 == 1.0`. Lists are compared item by
item, dictionaries key by key, and a list never equals a tuple. The float that is not a number
equals nothing.

What number an integer or a float is, is given by two functions into a type of numbers; comparing an
integer with a float is exact in Python.
-/

namespace Persista

namespace Json

/-- The numbers that integers and floats are. -/
structure Numbers (N : Type) where
  ofInt : ℤ → N
  ofFloat : PyFloat → N

variable {N : Type} [DecidableEq N] (num : Numbers N)

/-- The number that a float is, when it is one. -/
def floatNumber (x : PyFloat) : Option N :=
  if x.text = "NaN".toList then none else some (num.ofFloat x)

/-- The number that a value is, when it is one. -/
def PyVal.number : PyVal → Option N
  | .bool b => some (num.ofInt b.toNat)
  | .int n => some (num.ofInt n)
  | .float x => floatNumber num x
  | _ => Option.none

/-- The two are there and are the same. -/
def sameNumber (x y : Option N) : Bool := x.isSome && decide (x = y)

/-- Two keys of a `dict` are the same key. -/
def PyKey.same : PyKey → PyKey → Bool
  | .str s, .str t => decide (s = t)
  | .none, .none => true
  | k, k' => sameNumber k.num? k'.num?

/-- The value of a key. -/
def item? (key : PyKey) (items : List (PyKey × PyVal)) : Option PyVal :=
  (items.find? fun item => key.same item.1).map Prod.snd

mutual

/-- `v == w`. -/
def PyVal.eq : PyVal → PyVal → Bool
  | .none, .none => true
  | .str s, .str t => decide (s = t)
  | .list vs, .list ws => eqItems vs ws
  | .tuple vs, .tuple ws => eqItems vs ws
  | .dict vs, .dict ws => decide (vs.length = ws.length) && eqMembers vs ws
  | v, w => sameNumber (v.number num) (w.number num)

/-- The items of two lists or of two tuples. -/
def eqItems : List PyVal → List PyVal → Bool
  | [], [] => true
  | v :: vs, w :: ws => v.eq w && eqItems vs ws
  | _, _ => false

/-- Each member of a `dict` is one of another `dict`. -/
def eqMembers : List (PyKey × PyVal) → List (PyKey × PyVal) → Bool
  | [], _ => true
  | (k, v) :: vs, ws =>
    (match item? k ws with
      | some w => v.eq w
      | none => false) && eqMembers vs ws

end

theorem sameNumber_none (x : Option N) : sameNumber x none = false := by
  cases x with
  | none => rfl
  | some n => rfl

/-- Only `None` equals `None`. -/
theorem eq_none_iff {v : PyVal} : v.eq num .none ↔ v = .none := by
  constructor
  · intro h
    by_contra hne
    have hnumber : v.eq num .none = sameNumber (v.number num) none := by
      cases v with
      | none => exact absurd rfl hne
      | _ => rfl
    rw [hnumber, sameNumber_none] at h
    cases h
  · rintro rfl
    rfl

theorem none_eq_iff {v : PyVal} : PyVal.none.eq num v ↔ v = .none := by
  cases v with
  | none => exact iff_of_true rfl rfl
  | _ =>
    refine iff_of_false (fun h => ?_) fun h => ?_
    · exact absurd (show false = true from h) Bool.false_ne_true
    · cases h

/-- Only a string equals a string. -/
theorem eq_str_iff {v : PyVal} {s : PyStr} : v.eq num (.str s) ↔ v = .str s := by
  constructor
  · intro h
    cases v with
    | str t => exact congrArg PyVal.str (of_decide_eq_true h)
    | _ => exact absurd h (ne_true_of_eq_false (sameNumber_none _))
  · rintro rfl
    exact decide_eq_true rfl

theorem str_eq_iff {s : PyStr} {v : PyVal} : (PyVal.str s).eq num v ↔ v = .str s := by
  cases v with
  | str t =>
    change decide (s = t) = true ↔ _
    rw [decide_eq_true_iff, PyVal.str.injEq]
    exact eq_comm
  | _ =>
    refine iff_of_false (fun h => ?_) fun h => ?_
    · exact absurd (show false = true from h) Bool.false_ne_true
    · cases h

example : (PyVal.list [.bool true]).eq ⟨id, fun _ => 0⟩ (.list [.int 1]) = true := by decide

end Json

end Persista
