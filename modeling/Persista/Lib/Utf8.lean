import Mathlib.Data.List.Basic
import Mathlib.Tactic.Common

/-!
# UTF-8, read with replacement

`encode` writes a text as bytes, one character after the other. `decode` reads any bytes: where no
character starts it emits U+FFFD and goes on after the longest part that could have started one.
`decodeLoop` walks over the bytes once, `skip` of them belong to the character just emitted.

## Main results

* `decode_encode` — what was written reads back
-/

namespace Utf8

/-- The bytes of a text. -/
def encode (s : List Char) : List UInt8 := s.flatMap String.utf8EncodeChar

/-- The character at the start of some bytes. -/
def first? (l : List UInt8) : Option Char := l.toByteArray.utf8DecodeChar? 0

/-- `b` can be the second byte of a character whose first one is `a`. -/
def continues (a b : UInt8) : Bool :=
  if a = 0xE0 then 0xA0 ≤ b && b ≤ 0xBF
  else if a = 0xED then 0x80 ≤ b && b ≤ 0x9F
  else if a = 0xF0 then 0x90 ≤ b && b ≤ 0xBF
  else if a = 0xF4 then 0x80 ≤ b && b ≤ 0x8F
  else 0x80 ≤ b && b ≤ 0xBF

/-- The bytes one replacement stands for: the longest start of a character, one byte at least. -/
def illFormed : List UInt8 → ℕ
  | a :: b :: c :: _ =>
    if 0xE0 ≤ a && a ≤ 0xF4 && continues a b then
      if 0xF0 ≤ a && 0x80 ≤ c && c ≤ 0xBF then 3 else 2
    else 1
  | [a, b] => if 0xE0 ≤ a && a ≤ 0xF4 && continues a b then 2 else 1
  | _ => 1

/-- Read bytes after `skip` of them. -/
def decodeLoop : ℕ → List UInt8 → List Char
  | _, [] => []
  | skip + 1, _ :: bs => decodeLoop skip bs
  | 0, b :: bs =>
    match first? (b :: bs) with
    | some c => c :: decodeLoop (c.utf8Size - 1) bs
    | none => '\uFFFD' :: decodeLoop (illFormed (b :: bs) - 1) bs

/-- The text of some bytes. -/
def decode (bs : List UInt8) : List Char := decodeLoop 0 bs

example : decode [0x61, 0xE2, 0x82, 0x62, 0xC3, 0xA9] = "a\uFFFDbé".toList := by decide

@[simp] theorem encode_nil : encode [] = [] := rfl

@[simp] theorem encode_cons (c : Char) (s : List Char) :
    encode (c :: s) = String.utf8EncodeChar c ++ encode s := rfl

@[simp] theorem encode_append (s t : List Char) : encode (s ++ t) = encode s ++ encode t :=
  List.flatMap_append

theorem first?_encodeChar (c : Char) (rest : List UInt8) :
    first? (String.utf8EncodeChar c ++ rest) = some c := by
  rw [first?, List.toByteArray_append, ByteArray.utf8DecodeChar?_utf8EncodeChar_append]

theorem decodeLoop_skip (l rest : List UInt8) :
    decodeLoop l.length (l ++ rest) = decodeLoop 0 rest := by
  induction l with
  | nil => rfl
  | cons b l ih => exact ih

theorem decodeLoop_encodeChar (c : Char) (rest : List UInt8) :
    decodeLoop 0 (String.utf8EncodeChar c ++ rest) = c :: decodeLoop 0 rest := by
  have hfirst := first?_encodeChar c rest
  have hlen := String.length_utf8EncodeChar c
  revert hfirst hlen
  rcases String.utf8EncodeChar c with _ | ⟨b, l⟩
  · intro _ hlen
    exact absurd hlen.symm (Nat.pos_iff_ne_zero.mp c.utf8Size_pos)
  · intro hfirst hlen
    rw [List.cons_append, decodeLoop, ← List.cons_append, hfirst]
    have hskip : c.utf8Size - 1 = l.length := by rw [← hlen]; rfl
    simp only [hskip, decodeLoop_skip]

/-- **What was written reads back.** -/
theorem decode_encode (s : List Char) : decode (encode s) = s := by
  rw [decode]
  induction s with
  | nil => rfl
  | cons c s ih => rw [encode_cons, decodeLoop_encodeChar, ih]

theorem encode_injective : Function.Injective encode :=
  Function.LeftInverse.injective decode_encode

/-! ### ASCII -/

theorem encodeChar_of_lt {c : Char} (h : c.toNat < 128) :
    String.utf8EncodeChar c = [UInt8.ofNat c.toNat] := by
  have hle : c.val.toNat ≤ 127 := by
    show c.toNat ≤ 127
    omega
  rw [String.utf8EncodeChar]
  exact if_pos hle

/-- The bytes of a character outside ASCII are outside ASCII. -/
theorem le_of_mem_encodeChar {c : Char} (h : 128 ≤ c.toNat) {b : UInt8}
    (hb : b ∈ String.utf8EncodeChar c) : 128 ≤ b.toNat := by
  have hgt : ¬ c.val.toNat ≤ 127 := by
    show ¬ c.toNat ≤ 127
    omega
  rw [String.utf8EncodeChar] at hb
  simp only [hgt, if_false] at hb
  split at hb
  · simp only [List.mem_cons, List.not_mem_nil, or_false] at hb
    rcases hb with rfl | rfl
    all_goals
      rw [UInt8.toNat_ofNat']
      omega
  · split at hb
    all_goals
      simp only [List.mem_cons, List.not_mem_nil, or_false] at hb
    · rcases hb with rfl | rfl | rfl
      all_goals
        rw [UInt8.toNat_ofNat']
        omega
    · rcases hb with rfl | rfl | rfl | rfl
      all_goals
        rw [UInt8.toNat_ofNat']
        omega

/-- A byte in ASCII comes from the character it is the code of. -/
theorem mem_encode_iff {s : List Char} {b : UInt8} (h : b.toNat < 128) :
    b ∈ encode s ↔ ∃ c ∈ s, c.toNat = b.toNat := by
  rw [encode, List.mem_flatMap]
  constructor
  · rintro ⟨c, hc, hb⟩
    refine ⟨c, hc, ?_⟩
    by_cases hlt : c.toNat < 128
    · rw [encodeChar_of_lt hlt, List.mem_singleton] at hb
      rw [hb, UInt8.toNat_ofNat']
      omega
    · exact absurd (le_of_mem_encodeChar (Nat.le_of_not_lt hlt) hb) (Nat.not_le_of_lt h)
  · rintro ⟨c, hc, hcode⟩
    refine ⟨c, hc, ?_⟩
    rw [encodeChar_of_lt (by omega), hcode, UInt8.ofNat_toNat]
    exact List.mem_singleton_self b

theorem ofNat_mem_encode_iff {s : List Char} {c : Char} (h : c.toNat < 128) :
    UInt8.ofNat c.toNat ∈ encode s ↔ c ∈ s := by
  have hnat : (UInt8.ofNat c.toNat).toNat = c.toNat := by
    rw [UInt8.toNat_ofNat']
    omega
  rw [mem_encode_iff (by omega), hnat]
  constructor
  · rintro ⟨d, hd, hcode⟩
    exact Char.toNat_inj.mp hcode ▸ hd
  · intro hc
    exact ⟨c, hc, rfl⟩

/-- A byte in ASCII at the start is the first character. -/
theorem eq_cons_of_encode_eq_cons {s : List Char} {b : UInt8} {l : List UInt8} (hb : b.toNat < 128)
    (h : encode s = b :: l) : ∃ c t, s = c :: t ∧ c.toNat = b.toNat ∧ l = encode t := by
  rcases s with _ | ⟨c, t⟩
  · cases h
  · by_cases hc : c.toNat < 128
    · rw [encode_cons, encodeChar_of_lt hc] at h
      obtain ⟨rfl, rfl⟩ := List.cons.inj h
      refine ⟨c, t, rfl, ?_, rfl⟩
      rw [UInt8.toNat_ofNat']
      omega
    · obtain ⟨b', l', hcode⟩ := List.exists_cons_of_ne_nil (String.utf8EncodeChar_ne_nil (c := c))
      rw [encode_cons, hcode] at h
      have hmem : b ∈ String.utf8EncodeChar c := by
        rw [hcode, (List.cons.inj h).1]
        exact List.mem_cons_self
      exact absurd (le_of_mem_encodeChar (Nat.le_of_not_lt hc) hmem) (Nat.not_le_of_lt hb)

end Utf8
