import Mathlib.Tactic.Common

/-!
# Base64

`encode` writes three bytes as four characters of the alphabet and pads the last group with `=`.
`decode` is the lenient reader: it skips the characters outside the alphabet, stops at the `=` that
completes a group, and fails when the text ends inside a group.

## Main results

* `decode_encode` — what was written reads back
-/

namespace Base64

/-- The characters of the digits below 64. -/
def alphabet : List Char :=
  "ABCDEFGHIJKLMNOPQRSTUVWXYZabcdefghijklmnopqrstuvwxyz0123456789+/".toList

/-- The character of a digit. -/
def digit (n : ℕ) : Char := alphabet.getD n '='

/-- The digit of a character of the alphabet. -/
def value (c : Char) : Option ℕ :=
  if c ∈ alphabet then some (alphabet.idxOf c) else none

/-- The text of some bytes. -/
def encode : List UInt8 → List Char
  | [] => []
  | [a] => [digit (a.toNat / 4), digit (a.toNat % 4 * 16), '=', '=']
  | [a, b] =>
    [digit (a.toNat / 4), digit (a.toNat % 4 * 16 + b.toNat / 16), digit (b.toNat % 16 * 4), '=']
  | a :: b :: c :: rest =>
    digit (a.toNat / 4) :: digit (a.toNat % 4 * 16 + b.toNat / 16) ::
      digit (b.toNat % 16 * 4 + c.toNat / 64) :: digit (c.toNat % 64) :: encode rest

/-- The whole bytes in a group of digits. -/
def bytes : List ℕ → List UInt8
  | p :: q :: rest =>
    UInt8.ofNat (p * 4 + q / 16) ::
      match rest with
      | [] => []
      | r :: rest =>
        UInt8.ofNat (q % 16 * 16 + r / 4) ::
          match rest with
          | [] => []
          | s :: _ => [UInt8.ofNat (r % 4 * 64 + s)]
  | _ => []

/-- Read a text, with the digits of the group at hand and the `=` seen since the last of them. -/
def decodeLoop : List Char → List ℕ → ℕ → Option (List UInt8)
  | [], [], _ => some []
  | [], _ :: _, _ => none
  | c :: text, group, pads =>
    if c = '=' then
      if group.length < 2 then decodeLoop text group pads
      else if 4 ≤ group.length + (pads + 1) then some (bytes group)
      else decodeLoop text group (pads + 1)
    else
      match value c with
      | none => decodeLoop text group pads
      | some n =>
        if group.length = 3 then (bytes (group ++ [n]) ++ ·) <$> decodeLoop text [] 0
        else decodeLoop text (group ++ [n]) 0

/-- The bytes of a text. -/
def decode (text : List Char) : Option (List UInt8) := decodeLoop text [] 0

example : encode [77, 97] = "TWE=".toList := by decide

theorem value_digit : ∀ n < 64, value (digit n) = some n ∧ digit n ≠ '=' := by decide

theorem decodeLoop_push {n : ℕ} (hn : n < 64) (text : List Char) {group : List ℕ} (pads : ℕ)
    (hg : group.length < 3) :
    decodeLoop (digit n :: text) group pads = decodeLoop text (group ++ [n]) 0 := by
  obtain ⟨hv, hne⟩ := value_digit n hn
  rw [decodeLoop, if_neg hne, hv]
  exact if_neg (by omega)

theorem decodeLoop_full {n : ℕ} (hn : n < 64) (text : List Char) {group : List ℕ} (pads : ℕ)
    (hg : group.length = 3) :
    decodeLoop (digit n :: text) group pads =
      (bytes (group ++ [n]) ++ ·) <$> decodeLoop text [] 0 := by
  obtain ⟨hv, hne⟩ := value_digit n hn
  rw [decodeLoop, if_neg hne, hv]
  exact if_pos hg

/-- A byte is its number. -/
theorem ofNat_of_eq {a : UInt8} {n : ℕ} (h : n = a.toNat) : UInt8.ofNat n = a := by
  rw [h, UInt8.ofNat_toNat]

theorem bytes_one (a : UInt8) : bytes [a.toNat / 4, a.toNat % 4 * 16] = [a] := by
  have ha := a.toNat_lt
  rw [bytes, ofNat_of_eq (a := a) (by omega)]

theorem bytes_two (a b : UInt8) :
    bytes [a.toNat / 4, a.toNat % 4 * 16 + b.toNat / 16, b.toNat % 16 * 4] = [a, b] := by
  have ha := a.toNat_lt
  have hb := b.toNat_lt
  rw [bytes, ofNat_of_eq (a := a) (by omega), ofNat_of_eq (a := b) (by omega)]

theorem bytes_three (a b c : UInt8) :
    bytes [a.toNat / 4, a.toNat % 4 * 16 + b.toNat / 16, b.toNat % 16 * 4 + c.toNat / 64,
      c.toNat % 64] = [a, b, c] := by
  have ha := a.toNat_lt
  have hb := b.toNat_lt
  have hc := c.toNat_lt
  rw [bytes, ofNat_of_eq (a := a) (by omega), ofNat_of_eq (a := b) (by omega),
    ofNat_of_eq (a := c) (by omega)]

/-- **What was written reads back.** -/
theorem decode_encode (l : List UInt8) : decode (encode l) = some l := by
  rw [decode]
  fun_induction encode l with
  | case1 => rfl
  | case2 a =>
    have ha := a.toNat_lt
    rw [decodeLoop_push (by omega) _ _ (by simp), decodeLoop_push (by omega) _ _ (by simp)]
    simp [decodeLoop, bytes_one]
  | case3 a b =>
    have ha := a.toNat_lt
    have hb := b.toNat_lt
    rw [decodeLoop_push (by omega) _ _ (by simp), decodeLoop_push (by omega) _ _ (by simp),
      decodeLoop_push (by omega) _ _ (by simp)]
    simp [decodeLoop, bytes_two]
  | case4 a b c rest ih =>
    have ha := a.toNat_lt
    have hb := b.toNat_lt
    have hc := c.toNat_lt
    rw [decodeLoop_push (by omega) _ _ (by simp), decodeLoop_push (by omega) _ _ (by simp),
      decodeLoop_push (by omega) _ _ (by simp), decodeLoop_full (by omega) _ _ (by simp), ih]
    simp [bytes_three]

end Base64
