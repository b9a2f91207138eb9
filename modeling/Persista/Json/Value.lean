import Persista.Lib.Dict
import Persista.Lib.Utf8
import Mathlib.Data.List.Sort
import Mathlib.Data.List.Lex
import Mathlib.Order.Fin.Basic

/-!
# Python values and their JSON reading

The values that `json.dumps` accepts, and what its text says of them: a `reading`. A reading forgets
what JSON cannot express. A tuple is an array like a list, a key of a `dict` is a string whatever it
was before, and a string is its UTF-16 code units.

With `sort_keys` the pairs of a `dict` are sorted before they are written, and keys that Python
cannot compare with each other make `json.dumps` raise `TypeError` (`reading` is `none`).

Floats are given by the text that `float.__repr__` writes, which determines them. Integers are those
that `int.__repr__` writes out.
-/

namespace Persista

namespace Json

/-! ### Python values -/

/-- An element of a `str`; lone surrogates are allowed. -/
abbrev CodePoint := Fin 0x110000

/-- A `str`. -/
abbrev PyStr := List CodePoint

/-- The `str` of a literal. -/
def ofString (s : String) : PyStr := s.toList.map fun c => Fin.ofNat 0x110000 c.toNat

theorem ofString_injective : Function.Injective ofString := by
  have hchar : Function.Injective fun c : Char => Fin.ofNat 0x110000 c.toNat := by
    have hlt : ∀ c : Char, c.toNat < 0x110000 := fun c => by
      have h := c.valid
      simp only [UInt32.isValidChar, Nat.isValidChar] at h
      show c.val.toNat < _
      omega
    intro c d hcd
    have hval := congrArg Fin.val hcd
    simp only [Fin.ofNat, Nat.mod_eq_of_lt (hlt c), Nat.mod_eq_of_lt (hlt d)] at hval
    exact Char.toNat_inj.mp hval
  intro s t h
  exact String.toList_inj.mp (List.map_injective_iff.mpr hchar h)

/-- `s.encode()`; `none` when it raises, as it does on a surrogate. -/
def encodeStr (s : PyStr) : Option (List UInt8) :=
  (s.mapM fun c : CodePoint =>
    if c.val.isValidChar then some (Char.ofNat c.val) else none).map Utf8.encode

/-- The texts of floats: `float.__repr__`, and the three texts of the values it has no digits
for. -/
def IsFloatText (text : List Char) : Prop :=
  text ∈ ["NaN".toList, "Infinity".toList, "-Infinity".toList] ∨
    text.all ("0123456789+-.e".toList.contains ·) = true ∧ ('.' ∈ text ∨ 'e' ∈ text)

instance (text : List Char) : Decidable (IsFloatText text) :=
  inferInstanceAs (Decidable (_ ∨ _ ∧ (_ ∨ _)))

/-- A `float`. -/
structure PyFloat where
  text : List Char
  isFloat : IsFloatText text

@[ext] theorem PyFloat.ext {x y : PyFloat} (h : x.text = y.text) : x = y := by
  cases x; cases y; cases h; rfl

/-- The keys of a `dict`. -/
inductive PyKey
  | str (s : PyStr)
  | int (n : ℤ)
  | bool (b : Bool)
  | none

/-- A value that `json.dumps` serializes. The keys of a `dict` are distinct. -/
inductive PyVal
  | none
  | bool (b : Bool)
  | int (n : ℤ)
  | float (x : PyFloat)
  | str (s : PyStr)
  | list (items : List PyVal)
  | tuple (items : List PyVal)
  | dict (items : List (PyKey × PyVal))

/-- A `dict` with `str` keys. -/
def PyVal.ofDict (d : Dict PyStr PyVal) : PyVal := .dict (d.entries.map fun p => (.str p.1, p.2))

/-! ### Readings -/

/-- A UTF-16 code unit. -/
abbrev CodeUnit := Fin 0x10000

/-- The code unit of a number. -/
def unit (n : ℕ) : CodeUnit := Fin.ofNat 0x10000 n

/-- A JSON value that is written without brackets or quotes. -/
inductive Atom
  | null
  | bool (b : Bool)
  | int (n : ℤ)
  | float (x : PyFloat)

/-- A JSON value; the members of an object are in the order of the text. -/
inductive Reading
  | atom (a : Atom)
  | str (s : List CodeUnit)
  | arr (items : List Reading)
  | obj (members : List (List CodeUnit × Reading))

/-- The UTF-16 code units of a code point. -/
def utf16 (c : CodePoint) : List CodeUnit :=
  if c.val < 0x10000 then [unit c.val]
  else [unit (0xd800 + (c.val - 0x10000) / 0x400), unit (0xdc00 + (c.val - 0x10000) % 0x400)]

/-- The code units of a `str`. -/
def units (s : PyStr) : List CodeUnit := s.flatMap utf16

/-- `int.__repr__`. -/
def intText (n : ℤ) : List Char :=
  if n < 0 then '-' :: Nat.toDigits 10 n.natAbs else Nat.toDigits 10 n.natAbs

/-- What the text of an atom is. -/
def Atom.text : Atom → List Char
  | .null => "null".toList
  | .bool true => "true".toList
  | .bool false => "false".toList
  | .int n => intText n
  | .float x => x.text

/-- The code units of an ASCII text. -/
def asciiUnits (text : List Char) : List CodeUnit := text.map fun c => unit c.toNat

/-- The string that a key is written as. -/
def PyKey.text : PyKey → List CodeUnit
  | .str s => units s
  | .int n => asciiUnits (intText n)
  | .bool b => asciiUnits (Atom.bool b).text
  | .none => asciiUnits Atom.null.text

/-- The number a key is, when it is one: `True == 1` and `False == 0`. -/
def PyKey.num? : PyKey → Option ℤ
  | .int n => some n
  | .bool b => some b.toNat
  | _ => Option.none

/-- The key is a `str`. -/
def PyKey.isStr : PyKey → Bool
  | .str _ => true
  | _ => false

/-- Python can compare each of the keys with each other one. -/
def sortable (keys : List PyKey) : Bool :=
  keys.all PyKey.isStr || keys.all (·.num?.isSome) || keys.length ≤ 1

/-- `k <= k'`, for keys that can be compared: strings by their code points. -/
def PyKey.le : PyKey → PyKey → Bool
  | .str s, .str s' => decide (s ≤ s')
  | k, k' => decide (k.num?.getD 0 ≤ k'.num?.getD 0)

/-- `sorted(dct.items())`. -/
def sortItems (items : List (PyKey × Reading)) : List (PyKey × Reading) :=
  items.insertionSort fun a b => a.1.le b.1

/-- The members of an object. -/
def members (items : List (PyKey × Reading)) : List (List CodeUnit × Reading) :=
  items.map fun item => (item.1.text, item.2)

/-- The object of a `dict` whose values have been read. -/
def readingDict (sortKeys : Bool) (items : List (PyKey × Reading)) : Option Reading :=
  if sortKeys then
    if sortable (items.map Prod.fst) then some (.obj (members (sortItems items))) else none
  else some (.obj (members items))

mutual

/-- What `json.dumps(value, sort_keys=sortKeys)` says; `none` when it raises `TypeError`. -/
def reading (sortKeys : Bool) : PyVal → Option Reading
  | .none => some (.atom .null)
  | .bool b => some (.atom (.bool b))
  | .int n => some (.atom (.int n))
  | .float x => some (.atom (.float x))
  | .str s => some (.str (units s))
  | .list items => (readingList sortKeys items).map .arr
  | .tuple items => (readingList sortKeys items).map .arr
  | .dict items => (readingItems sortKeys items).bind (readingDict sortKeys)

/-- The items of a `list` or `tuple`. -/
def readingList (sortKeys : Bool) : List PyVal → Option (List Reading)
  | [] => some []
  | v :: vs => do
    let r ← reading sortKeys v
    let rs ← readingList sortKeys vs
    return r :: rs

/-- The items of a `dict`. -/
def readingItems (sortKeys : Bool) : List (PyKey × PyVal) → Option (List (PyKey × Reading))
  | [] => some []
  | (k, v) :: items => do
    let r ← reading sortKeys v
    let rs ← readingItems sortKeys items
    return (k, r) :: rs

end

example : reading true (.list [.int 1]) = reading true (.tuple [.int 1]) := rfl

theorem readingItems_eq_mapM (sortKeys : Bool) (items : List (PyKey × PyVal)) :
    readingItems sortKeys items =
      items.mapM fun item => (reading sortKeys item.2).map (item.1, ·) := by
  induction items with
  | nil => rw [readingItems]; rfl
  | cons item items ih =>
    obtain ⟨k, v⟩ := item
    rw [readingItems, ih, List.mapM_cons]
    cases reading sortKeys v with
    | none => rfl
    | some r => rfl

/-- The members of the object of a `dict` with `str` keys: its items, each of which was read. -/
theorem reading_ofDict {d : Dict PyStr PyVal} {r : Reading}
    (h : reading true (.ofDict d) = some r) :
    ∃ ms, r = .obj ms ∧
      (∀ name v, d.get? name = some v →
        ∃ rv, reading true v = some rv ∧ (units name, rv) ∈ ms) ∧
      ∀ m ∈ ms, ∃ name v, d.get? name = some v ∧ units name = m.1 ∧ reading true v = some m.2 := by
  rw [PyVal.ofDict, reading] at h
  obtain ⟨items, hitems, h⟩ := Option.bind_eq_some_iff.mp h
  rw [readingDict, if_pos rfl, Option.ite_none_right_eq_some, Option.some.injEq] at h
  rw [readingItems_eq_mapM] at hitems
  have hmem : ∀ item, item ∈ sortItems items ↔ item ∈ items := fun item =>
    (List.perm_insertionSort _ items).mem_iff
  refine ⟨members (sortItems items), h.2.symm, fun name v hv => ?_, fun m hm => ?_⟩
  · have hin : (PyKey.str name, v) ∈ d.entries.map fun p => (PyKey.str p.1, p.2) :=
      List.mem_map.mpr ⟨(name, v), Dict.get?_eq_some_iff.mp hv, rfl⟩
    have hsome := isSome_mapM.mp (Option.isSome_of_eq_some hitems) _ hin
    obtain ⟨rv, hrv⟩ := Option.isSome_iff_exists.mp (Option.isSome_map .. ▸ hsome)
    refine ⟨rv, hrv, List.mem_map.mpr ⟨(.str name, rv), (hmem _).mpr ?_, rfl⟩⟩
    exact (mem_mapM_iff hitems).mpr ⟨_, hin, by rw [hrv]; rfl⟩
  · obtain ⟨item, hitem, rfl⟩ := List.mem_map.mp hm
    obtain ⟨q, hq, hitem⟩ := (mem_mapM_iff hitems).mp ((hmem _).mp hitem)
    obtain ⟨rv, hrv, rfl⟩ := Option.map_eq_some_iff.mp hitem
    obtain ⟨p, hp, rfl⟩ := List.mem_map.mp hq
    exact ⟨p.1, p.2, Dict.get?_eq_some_iff.mpr hp, rfl, hrv⟩

end Json

end Persista
