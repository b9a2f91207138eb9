import Persista.Lib.Lru
import Mathlib.Data.List.Induction
import Mathlib.Data.Int.Notation

/-!
# `is_json_serializable` and `is_picklable`

`cache/utils.py`: the two tests, each a `try` around a memoized test around a plain one. The plain
tests serialize the value and answer whether that raised. What is hashable, which values a lookup
takes for the same, and what the serializers do are parameters.

An unhashable value is tested plainly each time. A hashable value is answered by the memo when that
has an entry for an equal value, and `==` does not know what a serializer knows: `1.0` is equal to
`Decimal("1.0")`, which JSON cannot write, and `b"abc"` to a `memoryview` of it, which cannot be
pickled.

## Main results

* `memoized_tests_agree_iff` — after any calls, a test answers as the plain test does if and only if
  the entry that it recalls, when it recalls one, is of a value that is tested alike
* `tested_memoAfter_eq_impl` — where the values that were asked for before and are equal to a value
  are tested alike, the memo makes no difference
-/

namespace Persista

namespace Cache

/-- What a serializer raises. -/
inductive PyError
  | typeError
  | valueError
  | attributeError
  | picklingError
  | other (name : String)
  deriving DecidableEq

/-- What a lookup in a memo knows of the values of a type. -/
structure Hashing (V : Type) where
  hashable : V → Bool
  /-- A lookup of the second value finds an entry of the first: one hash, and `==`. -/
  same : V → V → Bool

/-- What `lru_cache(maxsize=1024)` keeps. -/
abbrev Memo (V : Type) := Lru V Bool 1024

variable {V : Type}

/-! ### The plain tests -/

/-- `_is_json_serializable_impl`. -/
def isJsonSerializableImpl (jsonDumps : V → Except PyError String) (value : V) :
    Except PyError Bool :=
  match jsonDumps value with
  | .ok _ => .ok true
  | .error .typeError => .ok false
  | .error e => .error e

/-- `_is_picklable_impl`. -/
def isPicklableImpl (pickleDumps : V → Except PyError ByteArray) (value : V) :
    Except PyError Bool :=
  match pickleDumps value with
  | .ok _ => .ok true
  | .error .picklingError => .ok false
  | .error .typeError => .ok false
  | .error .attributeError => .ok false
  | .error e => .error e

/-! ### The memoized tests -/

variable (py : Hashing V) (impl : V → Except PyError Bool)

/-- A test behind `lru_cache`. -/
def cached (memo : Memo V) (value : V) : Except PyError Bool × Memo V :=
  if py.hashable value then memo.call py.same impl value else (.error .typeError, memo)

/-- A test that is memoized where it can be. -/
def tested (memo : Memo V) (value : V) : Except PyError Bool × Memo V :=
  match cached py impl memo value with
  | (.error .typeError, memo) => (impl value, memo)
  | (answer, memo) => (answer, memo)

/-- `is_json_serializable`. -/
def isJsonSerializable (jsonDumps : V → Except PyError String) (memo : Memo V) (value : V) :
    Except PyError Bool × Memo V :=
  tested py (isJsonSerializableImpl jsonDumps) memo value

/-- `is_picklable`. -/
def isPicklable (pickleDumps : V → Except PyError ByteArray) (memo : Memo V) (value : V) :
    Except PyError Bool × Memo V :=
  tested py (isPicklableImpl pickleDumps) memo value

/-- The memo after some calls of a test. -/
def memoAfter (history : List V) : Memo V :=
  history.foldl (fun memo value => (tested py impl memo value).2) Lru.empty

/-- The entry that a call recalls, when it recalls one, is of a value that is tested alike. -/
def RecallsAlike (memo : Memo V) (value : V) : Prop :=
  py.hashable value → ∀ e, memo.lookup py.same value = some e → impl e.1 = impl value

/-- No value that was asked for before is equal to the value and tested differently. -/
def Undisturbed (history : List V) (value : V) : Prop :=
  py.hashable value → ∀ w ∈ history, py.same w value → impl w = impl value

/-! ### What a call answers -/

variable {py impl} {memo : Memo V} {value : V}

theorem tested_of_not_hashable (h : py.hashable value = false) :
    tested py impl memo value = (impl value, memo) := by
  simp [tested, cached, h]

theorem snd_tested_of_hashable (h : py.hashable value) :
    (tested py impl memo value).2 = (memo.call py.same impl value).2 := by
  have hcall : cached py impl memo value = memo.call py.same impl value := if_pos h
  rw [tested, hcall]
  rcases memo.call py.same impl value with ⟨answer, memo'⟩
  cases answer with
  | ok answer => rfl
  | error e => cases e <;> rfl

/-- The plain test is asked again after it raised `TypeError`, to the same effect. -/
theorem fst_tested_of_hashable (h : py.hashable value) :
    (tested py impl memo value).1 = (memo.call py.same impl value).1 := by
  have hcall : cached py impl memo value = memo.call py.same impl value := if_pos h
  rw [tested, hcall]
  cases hr : memo.lookup py.same value with
  | some e => rw [Lru.call_of_lookup hr]
  | none =>
    have hfst : (memo.call py.same impl value).1 = impl value := Lru.fst_call_of_not_lookup hr
    split
    · exact hfst.symm
    · next heq => rw [heq]

/-- A call keeps the memo sound. -/
theorem sound_tested (h : memo.Sound impl) : (tested py impl memo value).2.Sound impl := by
  cases hv : py.hashable value with
  | true =>
    rw [snd_tested_of_hashable hv]
    exact h.call
  | false =>
    rw [tested_of_not_hashable hv]
    exact h

/-- A call brings in no key but its own. -/
theorem keys_tested {k : V} (h : k ∈ (tested py impl memo value).2.keys) :
    k = value ∨ k ∈ memo.keys := by
  cases hv : py.hashable value with
  | true =>
    rw [snd_tested_of_hashable hv] at h
    exact Lru.keys_snd_call h
  | false =>
    rw [tested_of_not_hashable hv] at h
    exact .inr h

theorem memoAfter_concat (history : List V) (value : V) :
    memoAfter py impl (history ++ [value]) =
      (tested py impl (memoAfter py impl history) value).2 := by
  simp [memoAfter]

/-- Calls keep the memo sound. -/
theorem sound_memoAfter (history : List V) : (memoAfter py impl history).Sound impl := by
  induction history using List.reverseRecOn with
  | nil => exact Lru.sound_empty
  | append_singleton history value ih =>
    rw [memoAfter_concat]
    exact sound_tested ih

/-- The keys of the memo were asked for. -/
theorem keys_memoAfter {history : List V} {k : V} (h : k ∈ (memoAfter py impl history).keys) :
    k ∈ history := by
  induction history using List.reverseRecOn with
  | nil => cases h
  | append_singleton history value ih =>
    rw [memoAfter_concat] at h
    rcases keys_tested h with rfl | h
    · simp
    · simp [ih h]

/-- **One call.** -/
theorem fst_tested_eq_iff (h : memo.Sound impl) :
    (tested py impl memo value).1 = impl value ↔ RecallsAlike py impl memo value := by
  cases hv : py.hashable value with
  | true =>
    rw [fst_tested_of_hashable hv, h.fst_call_eq_iff]
    simp [RecallsAlike, hv]
  | false =>
    rw [tested_of_not_hashable hv]
    simp [RecallsAlike, hv]

/-- **After calls for values that are tested alike** where they are equal, a call answers as the
plain test does. -/
theorem tested_memoAfter_eq_impl {history : List V} (h : Undisturbed py impl history value) :
    (tested py impl (memoAfter py impl history) value).1 = impl value := by
  rw [fst_tested_eq_iff (sound_memoAfter history)]
  intro hv e he
  have hkey : e.1 ∈ history := keys_memoAfter (List.mem_map_of_mem (Lru.mem_of_lookup he))
  exact h hv e.1 hkey (Lru.same_of_lookup he)

/-- **When the memoized tests agree with the plain ones**, after any earlier calls. -/
theorem memoized_tests_agree_iff (py : Hashing V) (jsonDumps : V → Except PyError String)
    (pickleDumps : V → Except PyError ByteArray) (history : List V) (value : V) :
    ((isJsonSerializable py jsonDumps
          (memoAfter py (isJsonSerializableImpl jsonDumps) history) value).1 =
        isJsonSerializableImpl jsonDumps value ↔
      RecallsAlike py (isJsonSerializableImpl jsonDumps)
        (memoAfter py (isJsonSerializableImpl jsonDumps) history) value) ∧
    ((isPicklable py pickleDumps
          (memoAfter py (isPicklableImpl pickleDumps) history) value).1 =
        isPicklableImpl pickleDumps value ↔
      RecallsAlike py (isPicklableImpl pickleDumps)
        (memoAfter py (isPicklableImpl pickleDumps) history) value) := by
  constructor
  · exact fst_tested_eq_iff (sound_memoAfter history)
  · exact fst_tested_eq_iff (sound_memoAfter history)

/-! ### Equal values that are serialized differently -/

/-- A `float` without a fraction, or a `Decimal`. -/
inductive PyNumber
  | float (n : ℤ)
  | decimal (n : ℤ)

/-- The number. -/
def PyNumber.toInt : PyNumber → ℤ
  | .float n => n
  | .decimal n => n

/-- Numbers are equal, and have one hash, when their values are equal. -/
def PyNumber.hashing : Hashing PyNumber where
  hashable _ := true
  same x y := decide (x.toInt = y.toInt)

/-- `json.dumps`, of a `float` that has no exponent. -/
def PyNumber.jsonDumps : PyNumber → Except PyError String
  | .float n => .ok (toString n ++ ".0")
  | .decimal _ => .error .typeError

/-- A `bytes`, or a `memoryview` of one. -/
inductive PyBuffer
  | bytes (b : List UInt8)
  | memoryview (b : List UInt8)

/-- The bytes. -/
def PyBuffer.toBytes : PyBuffer → List UInt8
  | .bytes b => b
  | .memoryview b => b

/-- A read-only `memoryview` is equal to its bytes, and has their hash. -/
def PyBuffer.hashing : Hashing PyBuffer where
  hashable _ := true
  same x y := decide (x.toBytes = y.toBytes)

/-- `pickle.dumps`, of fewer than 252 bytes: a frame with their number and themselves. -/
def PyBuffer.pickleDumps : PyBuffer → Except PyError ByteArray
  | .bytes b => .ok ([0x80, 0x04, 0x95, UInt8.ofNat (b.length + 4), 0, 0, 0, 0, 0, 0, 0, 0x43,
      UInt8.ofNat b.length] ++ b ++ [0x94, 0x2e]).toByteArray
  | .memoryview _ => .error .typeError

/-- **A test that was asked before.** `Decimal(1)` passes for serializable after `1.0` did, and a
`memoryview` for picklable after its bytes did. -/
theorem equal_values_share_an_answer :
    ((isJsonSerializable PyNumber.hashing PyNumber.jsonDumps
          (memoAfter PyNumber.hashing (isJsonSerializableImpl PyNumber.jsonDumps) [.float 1])
          (.decimal 1)).1 = .ok true ∧
      isJsonSerializableImpl PyNumber.jsonDumps (.decimal 1) = .ok false) ∧
    ((isPicklable PyBuffer.hashing PyBuffer.pickleDumps
          (memoAfter PyBuffer.hashing (isPicklableImpl PyBuffer.pickleDumps) [.bytes [97, 98, 99]])
          (.memoryview [97, 98, 99])).1 = .ok true ∧
      isPicklableImpl PyBuffer.pickleDumps (.memoryview [97, 98, 99]) = .ok false) := by
  refine ⟨⟨rfl, rfl⟩, rfl, rfl⟩

end Cache

end Persista
