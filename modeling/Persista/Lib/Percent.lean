import Persista.Lib.Utf8

/-!
# Percent-encoding

`encode` writes the bytes that are not safe as `%` and two upper-case hexadecimal digits. `decode`
is the lenient reader, which leaves a `%` alone that two hexadecimal digits do not follow; it reads
digits of either case. `escape?` is the one step of it that does something, and `Plain` says of some
bytes that the step is possible nowhere.

## Main results

* `decode_encode` — what was written reads back, if `%` is not safe
* `mem_encode` — the characters of a text that was written
* `decode_eq_self_iff` — reading leaves exactly the plain bytes as they are
-/

namespace Percent

/-- The character of a digit below 16. -/
def hexDigit (n : ℕ) : Char := "0123456789ABCDEF".toList.getD n '0'

/-- The digit of a character. -/
def hexValue (b : UInt8) : Option ℕ :=
  if 48 ≤ b.toNat ∧ b.toNat ≤ 57 then some (b.toNat - 48)
  else if 65 ≤ b.toNat ∧ b.toNat ≤ 70 then some (b.toNat - 55)
  else if 97 ≤ b.toNat ∧ b.toNat ≤ 102 then some (b.toNat - 87)
  else none

/-- Write a byte as `%HH`. -/
def escape (b : UInt8) : List Char := ['%', hexDigit (b.toNat / 16), hexDigit (b.toNat % 16)]

/-- Write a byte, if it is safe as the character it is the code of. -/
def encodeByte (safe : UInt8 → Bool) (b : UInt8) : List Char :=
  if safe b then [Char.ofNat b.toNat] else escape b

/-- Write bytes. -/
def encode (safe : UInt8 → Bool) (bs : List UInt8) : List Char := bs.flatMap (encodeByte safe)

/-- The byte that the bytes start with an escape of. -/
def escape? : List UInt8 → Option UInt8
  | b :: h :: l :: _ =>
    if b = 37 then
      match hexValue h, hexValue l with
      | some x, some y => some (UInt8.ofNat (16 * x + y))
      | _, _ => none
    else none
  | _ => none

/-- Read bytes after `skip` of them. -/
def decodeLoop : ℕ → List UInt8 → List UInt8
  | _, [] => []
  | skip + 1, _ :: bs => decodeLoop skip bs
  | 0, b :: bs =>
    match escape? (b :: bs) with
    | some v => v :: decodeLoop 2 bs
    | none => b :: decodeLoop 0 bs

/-- Read bytes. -/
def decode (bs : List UInt8) : List UInt8 := decodeLoop 0 bs

/-- No escape starts anywhere. -/
def Plain (bs : List UInt8) : Prop := ∀ t, t <:+ bs → escape? t = none

example : decode (Utf8.encode "a%2fb%zz%4".toList) = Utf8.encode "a/b%zz%4".toList := by decide

/-! ### Digits -/

theorem hexDigit_mem {n : ℕ} (h : n < 16) : hexDigit n ∈ "0123456789ABCDEF".toList := by
  have hall : ∀ n < 16, hexDigit n ∈ "0123456789ABCDEF".toList := by decide
  exact hall n h

theorem encode_hexDigit {n : ℕ} (h : n < 16) :
    ∃ b, String.utf8EncodeChar (hexDigit n) = [b] ∧ hexValue b = some n := by
  have hall : ∀ n < 16, (String.utf8EncodeChar (hexDigit n)).length = 1 ∧
      (String.utf8EncodeChar (hexDigit n)).head?.bind hexValue = some n := by decide
  obtain ⟨hlen, hval⟩ := hall n h
  obtain ⟨b, hb⟩ := List.length_eq_one_iff.mp hlen
  rw [hb] at hval
  exact ⟨b, hb, hval⟩

/-! ### Round trip -/

theorem encode_escape (b : UInt8) : ∃ h l, Utf8.encode (escape b) = [37, h, l] ∧
    hexValue h = some (b.toNat / 16) ∧ hexValue l = some (b.toNat % 16) := by
  have hb := b.toNat_lt
  obtain ⟨h, hh, hhv⟩ := encode_hexDigit (n := b.toNat / 16) (by omega)
  obtain ⟨l, hl, hlv⟩ := encode_hexDigit (n := b.toNat % 16) (by omega)
  refine ⟨h, l, ?_, hhv, hlv⟩
  rw [escape, Utf8.encode_cons, Utf8.encode_cons, Utf8.encode_cons, hh, hl]
  rfl

theorem decodeLoop_escape (b : UInt8) (rest : List UInt8) :
    decodeLoop 0 (Utf8.encode (escape b) ++ rest) = b :: decodeLoop 0 rest := by
  obtain ⟨h, l, henc, hhv, hlv⟩ := encode_escape b
  have hesc : escape? (37 :: h :: l :: rest) = some b := by
    have hbyte : 16 * (b.toNat / 16) + b.toNat % 16 = b.toNat := by omega
    rw [escape?, if_pos rfl, hhv, hlv]
    show some (UInt8.ofNat (16 * (b.toNat / 16) + b.toNat % 16)) = some b
    rw [hbyte, UInt8.ofNat_toNat]
  rw [henc]
  show decodeLoop 0 (37 :: h :: l :: rest) = b :: decodeLoop 0 rest
  rw [decodeLoop, hesc]
  rfl

theorem decodeLoop_of_ne {b : UInt8} (h : b ≠ 37) (rest : List UInt8) :
    decodeLoop 0 (b :: rest) = b :: decodeLoop 0 rest := by
  have hesc : escape? (b :: rest) = none := by
    rcases rest with _ | ⟨x, _ | ⟨y, rest⟩⟩
    · rfl
    · rfl
    · exact if_neg h
  rw [decodeLoop, hesc]

variable {safe : UInt8 → Bool}

/-- Safe bytes are characters on their own, and none of them opens an escape. -/
structure Safe (safe : UInt8 → Bool) : Prop where
  ascii : ∀ b, safe b → b.toNat < 128
  percent : safe 37 = false

theorem toNat_ofNat_of_lt {n : ℕ} (h : n < 128) : (Char.ofNat n).toNat = n := by
  have hall : ∀ n < 128, (Char.ofNat n).toNat = n := by decide
  exact hall n h

theorem encode_safe (hs : Safe safe) {b : UInt8} (h : safe b) :
    Utf8.encode [Char.ofNat b.toNat] = [b] := by
  have hlt := hs.ascii b h
  have hnat := toNat_ofNat_of_lt hlt
  rw [Utf8.encode_cons, Utf8.encodeChar_of_lt (by omega), hnat, UInt8.ofNat_toNat]
  rfl

theorem decodeLoop_encodeByte (hs : Safe safe) (b : UInt8) (rest : List UInt8) :
    decodeLoop 0 (Utf8.encode (encodeByte safe b) ++ rest) = b :: decodeLoop 0 rest := by
  rw [encodeByte]
  split
  · next h =>
    have hne : b ≠ 37 := by
      rintro rfl
      rw [hs.percent] at h
      cases h
    rw [encode_safe hs h]
    exact decodeLoop_of_ne hne rest
  · exact decodeLoop_escape b rest

theorem decode_encode_append (hs : Safe safe) (bs rest : List UInt8) :
    decode (Utf8.encode (encode safe bs) ++ rest) = bs ++ decode rest := by
  rw [decode, decode]
  induction bs with
  | nil => rfl
  | cons b bs ih =>
    show decodeLoop 0 (Utf8.encode (encodeByte safe b ++ encode safe bs) ++ rest) = _
    rw [Utf8.encode_append, List.append_assoc, decodeLoop_encodeByte hs, ih, List.cons_append]

/-- **What was written reads back.** -/
theorem decode_encode (hs : Safe safe) (bs : List UInt8) :
    decode (Utf8.encode (encode safe bs)) = bs := by
  have h := decode_encode_append hs bs []
  rw [List.append_nil] at h
  rw [h]
  exact List.append_nil bs

/-! ### The characters of a text that was written -/

theorem mem_encode {bs : List UInt8} {c : Char} (h : c ∈ encode safe bs) :
    (∃ b ∈ bs, safe b ∧ c = Char.ofNat b.toNat) ∨ c = '%' ∨ c ∈ "0123456789ABCDEF".toList := by
  obtain ⟨b, hb, hc⟩ := List.mem_flatMap.mp h
  have hlt := b.toNat_lt
  rw [encodeByte] at hc
  split at hc
  · next hsafe => exact .inl ⟨b, hb, hsafe, List.mem_singleton.mp hc⟩
  · simp only [escape, List.mem_cons, List.not_mem_nil, or_false] at hc
    rcases hc with rfl | rfl | rfl
    · exact .inr (.inl rfl)
    · exact .inr (.inr (hexDigit_mem (by omega)))
    · exact .inr (.inr (hexDigit_mem (by omega)))

theorem ascii_of_mem_encode (hs : Safe safe) {bs : List UInt8} {c : Char}
    (h : c ∈ encode safe bs) : c.toNat < 128 := by
  rcases mem_encode h with ⟨b, _, hb, rfl⟩ | rfl | h
  · rw [toNat_ofNat_of_lt (hs.ascii b hb)]
    exact hs.ascii b hb
  · decide
  · have hall : "0123456789ABCDEF".toList.all (fun c => c.toNat < 128) = true := by decide
    exact of_decide_eq_true (List.all_eq_true.mp hall c h)

/-! ### Bytes that read as themselves -/

/-- An escape takes three bytes. -/
theorem le_length_of_escape? {b : UInt8} {bs : List UInt8} (h : escape? (b :: bs) ≠ none) :
    2 ≤ bs.length := by
  rcases bs with _ | ⟨x, _ | ⟨y, bs⟩⟩
  · exact absurd rfl h
  · exact absurd rfl h
  · simp

theorem length_decodeLoop_le (skip : ℕ) (bs : List UInt8) :
    (decodeLoop skip bs).length ≤ bs.length - skip := by
  induction bs generalizing skip with
  | nil => exact Nat.zero_le _
  | cons b bs ih =>
    cases skip with
    | succ skip =>
      have h := ih skip
      rw [decodeLoop, List.length_cons]
      omega
    | zero =>
      rw [decodeLoop, List.length_cons]
      split
      · next hesc =>
        have hlong := le_length_of_escape? (by rw [hesc]; exact Option.some_ne_none _)
        have h := ih 2
        rw [List.length_cons]
        omega
      · have h := ih 0
        rw [List.length_cons]
        omega

theorem length_decode_le (bs : List UInt8) : (decode bs).length ≤ bs.length :=
  length_decodeLoop_le 0 bs

/-- An escape is longer than the byte it stands for. -/
theorem length_decode_lt {bs t : List UInt8} (ht : t <:+ bs) (h : escape? t ≠ none) :
    (decode bs).length < bs.length := by
  rw [decode]
  induction bs with
  | nil =>
    rw [List.suffix_nil.mp ht] at h
    exact absurd rfl h
  | cons b bs ih =>
    rw [decodeLoop]
    split
    · next hesc =>
      have hlong := le_length_of_escape? (by rw [hesc]; exact Option.some_ne_none _)
      have hle := length_decodeLoop_le 2 bs
      rw [List.length_cons, List.length_cons]
      omega
    · next hesc =>
      rcases List.suffix_cons_iff.mp ht with rfl | ht
      · exact absurd hesc h
      · exact Nat.succ_lt_succ (ih ht)

theorem decode_of_plain {bs : List UInt8} (h : Plain bs) : decode bs = bs := by
  rw [decode]
  induction bs with
  | nil => rfl
  | cons b bs ih =>
    rw [decodeLoop, h _ (List.suffix_refl _)]
    exact congrArg _ (ih fun t ht => h t (ht.trans (List.suffix_cons b bs)))

theorem decode_of_notMem {bs : List UInt8} (h : 37 ∉ bs) : decode bs = bs := by
  refine decode_of_plain fun t ht => ?_
  rcases t with _ | ⟨b, _ | ⟨x, _ | ⟨y, t⟩⟩⟩
  · rfl
  · rfl
  · rfl
  · refine if_neg ?_
    rintro rfl
    exact h (ht.subset List.mem_cons_self)

/-- **Reading leaves exactly the plain bytes as they are.** -/
theorem decode_eq_self_iff {bs : List UInt8} : decode bs = bs ↔ Plain bs := by
  refine ⟨fun heq t ht => ?_, decode_of_plain⟩
  by_contra h
  have hlt := length_decode_lt ht h
  rw [heq] at hlt
  exact absurd hlt (Nat.lt_irrefl _)

end Percent
