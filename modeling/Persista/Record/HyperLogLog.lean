import Persista.Json.Value
import Persista.Lib.Float64
import Mathlib.Algebra.Order.Field.Basic
import Mathlib.Algebra.Order.Floor.Ring
import Mathlib.Data.Rat.Floor
import Mathlib.Tactic.FieldSimp
import Mathlib.Tactic.Linarith
import Mathlib.Tactic.NormNum
import Mathlib.Tactic.Ring

/-!
# `_HyperLogLog`

`record/analysis/value_frequency.py`. A value is hashed through its `str`. The low bits of the hash
select a register, and the register keeps the largest rank it was given, which is one more than the
zero bits that the rest of the hash ends in.

## The rank of a zero

The rank is capped at the number of the bits that are left, which is what a rest without any bits
but zeros would have. The loop does not count in such a rest, and its rank is 1: `rank_law_iff`.

## A register is a least upper bound

`below_addHashes_iff` says what a stream does to the registers: a bound holds of a register
afterwards when it held before and it bounds the rank of each hash that selects the register. Only
the set of the hashes enters there, so their order and their number cannot matter, and the
registers of two streams one after the other are the pointwise maximum. A register of a stream that
starts from nothing is the greatest of these ranks (`isGreatest_register`).

## The estimate

Floats are taken as rationals, and the logarithm is a parameter. The bias factor of less than 128
registers is half their number, where it should be below one: with such a factor the estimate is
too large by the number of the registers.

## Main results

* `HyperLogLog.rank_law_iff` — when the rank is the one that the zero bits say
* `HyperLogLog.registers_insensitive` — the registers say which values were added, and nothing more
* `HyperLogLog.raw_scale_iff` — when the estimate is in scale
-/

namespace Persista

open Json

/-- The registers of an estimator. -/
structure HyperLogLog where
  precision : ℕ
  registers : List ℕ
  length_registers : registers.length = 1 <<< precision

namespace HyperLogLog

@[ext] theorem ext {s t : HyperLogLog} (hp : s.precision = t.precision)
    (hr : s.registers = t.registers) : s = t := by
  cases s; cases t; cases hp; cases hr; rfl

/-- The number of registers. -/
def m (s : HyperLogLog) : ℕ := 1 <<< s.precision

/-- `_HyperLogLog(precision)`. -/
def init (precision : ℕ) : HyperLogLog where
  precision := precision
  registers := List.replicate (1 <<< precision) 0
  length_registers := List.length_replicate

/-- The loop of `add`: `rank` goes up while bits that are zero are shifted out. -/
def rankLoop (maxRank remaining rank : ℕ) : ℕ :=
  if remaining ≠ 0 ∧ remaining &&& 1 = 0 ∧ rank < maxRank then
    rankLoop maxRank (remaining >>> 1) (rank + 1)
  else rank
termination_by maxRank - rank

/-- The register that a hash selects. -/
def index (precision : ℕ) (h : UInt64) : ℕ := h.toNat &&& (1 <<< precision - 1)

/-- The rank of a hash. -/
def rank (precision : ℕ) (h : UInt64) : ℕ :=
  rankLoop (64 - precision) (h.toNat >>> precision) 1

/-- The second half of `add`, from the hash on. -/
def addHash (s : HyperLogLog) (h : UInt64) : HyperLogLog where
  precision := s.precision
  registers := s.registers.modify (index s.precision h) (max · (rank s.precision h))
  length_registers := by rw [List.length_modify, s.length_registers]

section Add

variable {V : Type} (hash : List UInt8 → UInt64) (str : V → Option PyStr)

/-- The hash of a value: the first eight bytes of the digest of its `str`; `none` when `str` or
`encode` raises. -/
def hashValue (value : V) : Option UInt64 := ((str value).bind encodeStr).map hash

/-- `add(value)`. -/
def add (s : HyperLogLog) (value : V) : Option HyperLogLog :=
  (hashValue hash str value).map s.addHash

/-- `add` for each value. -/
def addAll (s : HyperLogLog) (values : List V) : Option HyperLogLog :=
  values.foldlM (add hash str) s

end Add

/-! ### The estimate -/

/-- The bias factor. -/
def alpha (m : ℕ) : ℚ :=
  if 128 ≤ m then 0.7213 / (1 + 1.079 / m) else 0.5 * m

/-- `sum(2.0 ** (-r) for r in registers)`. -/
def harmonic (registers : List ℕ) : ℚ := registers.foldr (fun r sum => (2 ^ r)⁻¹ + sum) 0

/-- `raw` in `estimate`. -/
def raw (s : HyperLogLog) : ℚ := alpha s.m * s.m * s.m / harmonic s.registers

/-- `estimate()`. -/
def estimate (log : ℚ → ℚ) (s : HyperLogLog) : ℤ :=
  let zeroRegisters := s.registers.count 0
  if s.raw ≤ 2.5 * s.m ∧ zeroRegisters ≠ 0 then
    Float64.roundHalfEven (s.m * log (s.m / zeroRegisters))
  else Float64.roundHalfEven s.raw

/-! ### The rank -/

theorem rankLoop_le (maxRank remaining rank : ℕ) (h : rank ≤ maxRank) :
    rankLoop maxRank remaining rank ≤ maxRank := by
  induction remaining, rank using rankLoop.induct maxRank with
  | case1 remaining rank hstep ih =>
    rw [rankLoop, if_pos hstep]
    exact ih hstep.2.2
  | case2 remaining rank hstop =>
    rw [rankLoop, if_neg hstop]
    exact h

/-- A rank fits in the bits that are left. -/
theorem rank_le {precision : ℕ} (hp : precision < 64) (h : UInt64) :
    rank precision h ≤ 64 - precision :=
  rankLoop_le _ _ _ (by omega)

/-- The zero bits that a number of so many bits ends in. -/
def trailingZeros (width n : ℕ) : ℕ := ((List.range width).takeWhile fun i => !n.testBit i).length

theorem trailingZeros_odd (width : ℕ) {n : ℕ} (h : n % 2 = 1) : trailingZeros width n = 0 := by
  cases width with
  | zero => rfl
  | succ width =>
    rw [trailingZeros, List.range_succ_eq_map, List.takeWhile_cons_of_neg (by simp [h])]
    rfl

theorem trailingZeros_even (width : ℕ) {n : ℕ} (h : n % 2 = 0) :
    trailingZeros (width + 1) n = trailingZeros width (n >>> 1) + 1 := by
  rw [trailingZeros, List.range_succ_eq_map, List.takeWhile_cons_of_pos (by simp [h]),
    List.length_cons, List.takeWhile_map, List.length_map, trailingZeros]
  have hbits : ((fun i => !n.testBit i) ∘ Nat.succ) = fun i => !(n >>> 1).testBit i := by
    funext i
    rw [Function.comp_apply, Nat.testBit_shiftRight, Nat.add_comm]
  rw [hbits]

theorem trailingZeros_zero (width : ℕ) : trailingZeros width 0 = width := by
  induction width with
  | zero => rfl
  | succ width ih => rw [trailingZeros_even width rfl, Nat.zero_shiftRight, ih]

/-- The loop counts zero bits, up to the largest rank. -/
theorem rankLoop_eq (maxRank width : ℕ) {remaining rank : ℕ} (hne : remaining ≠ 0)
    (hlt : remaining < 2 ^ width) (hle : rank ≤ maxRank) :
    rankLoop maxRank remaining rank = min maxRank (rank + trailingZeros width remaining) := by
  induction remaining, rank using rankLoop.induct maxRank generalizing width with
  | case1 remaining rank hstep ih =>
    obtain ⟨-, heven, hrank⟩ := hstep
    rw [Nat.and_one_is_mod] at heven
    obtain ⟨width, rfl⟩ : ∃ k, width = k + 1 := by
      cases width with
      | zero => omega
      | succ k => exact ⟨k, rfl⟩
    rw [rankLoop, if_pos ⟨hne, by rwa [Nat.and_one_is_mod], hrank⟩,
      ih width (by omega) (by omega) hrank, trailingZeros_even width heven]
    omega
  | case2 remaining rank hstop =>
    rw [rankLoop, if_neg hstop]
    rw [Nat.and_one_is_mod] at hstop
    by_cases heven : remaining % 2 = 0
    · have hrank : rank = maxRank := by
        by_contra h
        exact hstop ⟨hne, heven, by omega⟩
      omega
    · rw [trailingZeros_odd width (by omega)]
      omega

theorem index_eq (precision : ℕ) (h : UInt64) : index precision h = h.toNat % 2 ^ precision := by
  rw [index, Nat.one_shiftLeft, Nat.and_two_pow_sub_one_eq_mod]

/-- One more than the zero bits that the rest of the hash ends in, as far as that fits. A rest
without other bits has the largest rank. -/
def expectedRank (precision : ℕ) (h : UInt64) : ℕ :=
  min (64 - precision) (1 + trailingZeros (64 - precision) (h.toNat >>> precision))

theorem expectedRank_of_zero {precision : ℕ} {h : UInt64} (hzero : h.toNat >>> precision = 0) :
    expectedRank precision h = 64 - precision := by
  rw [expectedRank, hzero, trailingZeros_zero]
  exact min_eq_left (Nat.le_add_left _ 1)

theorem rank_of_zero {precision : ℕ} {h : UInt64} (hzero : h.toNat >>> precision = 0) :
    rank precision h = 1 := by
  rw [rank, hzero, rankLoop, if_neg (by simp)]

theorem shiftRight_lt {precision : ℕ} (hp : precision < 64) (h : UInt64) :
    h.toNat >>> precision < 2 ^ (64 - precision) := by
  rw [Nat.shiftRight_eq_div_pow, Nat.div_lt_iff_lt_mul (by positivity), ← pow_add,
    Nat.sub_add_cancel hp.le]
  exact h.toNat_lt

/-- A rest that is not zero has the right rank; a zero has rank 1. -/
theorem rank_eq_expectedRank_iff {precision : ℕ} (hp : precision < 64) (h : UInt64) :
    rank precision h = expectedRank precision h ↔ h.toNat >>> precision ≠ 0 ∨ precision = 63 := by
  by_cases hzero : h.toNat >>> precision = 0
  · rw [rank_of_zero hzero, expectedRank_of_zero hzero]
    omega
  · rw [rank, rankLoop_eq _ _ hzero (shiftRight_lt hp h) (by omega), expectedRank]
    exact iff_of_true rfl (.inl hzero)

/-- The rank is what a hash adds to its register. -/
theorem addHash_combines_iff (precision : ℕ) (h : UInt64) (r : ℕ) :
    (∀ s : HyperLogLog, s.precision = precision →
      (s.addHash h).registers = s.registers.modify (h.toNat % 2 ^ precision) (max · r)) ↔
      rank precision h = r := by
  constructor
  · intro hall
    have hlt : h.toNat % 2 ^ precision < 1 <<< precision := by
      rw [Nat.one_shiftLeft]
      exact Nat.mod_lt _ (by positivity)
    have hget := congrArg (·[h.toNat % 2 ^ precision]?) (hall (init precision) rfl)
    simpa [addHash, index_eq, init, List.getElem?_replicate, hlt] using hget
  · rintro hrank s rfl
    show s.registers.modify (index s.precision h) (max · (rank s.precision h)) = _
    rw [index_eq, hrank]

/-- A hash gives its register the rank that it should have, except when its rest is zero and has
more than one bit. -/
theorem rank_law_iff {precision : ℕ} (hp : precision < 64) (h : UInt64) :
    (∀ s : HyperLogLog, s.precision = precision → (s.addHash h).registers =
      s.registers.modify (h.toNat % 2 ^ precision) (max · (expectedRank precision h))) ↔
      h.toNat >>> precision ≠ 0 ∨ precision = 63 := by
  rw [addHash_combines_iff, rank_eq_expectedRank_iff hp]

theorem rank_law_iff_three : ((init 12).addHash 12288).registers =
    (init 12).registers.modify (12288 % 2 ^ 12) (max · (expectedRank 12 12288)) :=
  (rank_law_iff (by decide) 12288).mpr (.inl (by decide)) (init 12) rfl

/-- The hash 0 gives the rank 1, where 52 bits are zero. -/
theorem not_rank_law : ¬ ∀ precision, 1 ≤ precision → precision < 64 → ∀ (h : UInt64)
    (s : HyperLogLog), s.precision = precision → (s.addHash h).registers =
      s.registers.modify (h.toNat % 2 ^ precision) (max · (expectedRank precision h)) := by
  intro hall
  have hrank := (addHash_combines_iff 12 0 _).mp (hall 12 (by decide) (by decide) 0)
  rcases (rank_eq_expectedRank_iff (by decide) 0).mp hrank with h | h
  · exact absurd h (by decide)
  · exact absurd h (by decide)

/-! ### Streams -/

@[simp] theorem precision_init (precision : ℕ) : (init precision).precision = precision := rfl

theorem getElem?_addHash (s : HyperLogLog) (h : UInt64) (i : ℕ) :
    (s.addHash h).registers[i]? =
      if index s.precision h = i then s.registers[i]?.map (max · (rank s.precision h))
      else s.registers[i]? := by
  rw [addHash, List.getElem?_modify]
  split
  · rfl
  · exact id_map' _

/-- The state after some hashes. -/
def addHashes (s : HyperLogLog) (hashes : List UInt64) : HyperLogLog := hashes.foldl addHash s

@[simp] theorem precision_addHashes (s : HyperLogLog) (hashes : List UInt64) :
    (s.addHashes hashes).precision = s.precision := by
  induction hashes generalizing s with
  | nil => rfl
  | cons h hashes ih => exact ih (s.addHash h)

/-- The value of a register, and what bounds it: the bound held before and holds of the ranks of
the hashes that select the register. -/
def Below (s : HyperLogLog) (i b : ℕ) : Prop := ∀ r ∈ s.registers[i]?, r ≤ b

theorem below_addHash_iff (s : HyperLogLog) (h : UInt64) {i b : ℕ} (hi : i < 1 <<< s.precision) :
    (s.addHash h).Below i b ↔
      s.Below i b ∧ (index s.precision h = i → rank s.precision h ≤ b) := by
  have hlt : i < s.registers.length := by rw [s.length_registers]; exact hi
  rw [Below, Below, getElem?_addHash, List.getElem?_eq_getElem hlt]
  split
  · next h' => simp [h']
  · next h' => simp [h']

theorem below_addHashes_iff (s : HyperLogLog) (hashes : List UInt64) {i b : ℕ}
    (hi : i < 1 <<< s.precision) :
    (s.addHashes hashes).Below i b ↔
      s.Below i b ∧ ∀ h ∈ hashes, index s.precision h = i → rank s.precision h ≤ b := by
  induction hashes generalizing s with
  | nil => simp [addHashes]
  | cons h hashes ih =>
    show ((s.addHash h).addHashes hashes).Below i b ↔ _
    rw [ih (s.addHash h) hi, below_addHash_iff s h hi, and_assoc, List.forall_mem_cons]
    rfl

/-- The registers of a stream that starts from nothing: the bounds of a register bound the ranks of
the hashes that select it. -/
theorem below_init_iff {precision i : ℕ} (hashes : List UInt64) (hi : i < 1 <<< precision) (b : ℕ) :
    ((init precision).addHashes hashes).Below i b ↔
      ∀ h ∈ hashes, index precision h = i → rank precision h ≤ b := by
  rw [below_addHashes_iff _ _ hi]
  have hzero : (init precision).Below i b := by
    intro r hr
    rw [init, List.getElem?_replicate, if_pos hi] at hr
    exact (Option.mem_some.mp hr).symm ▸ Nat.zero_le b
  exact and_iff_right hzero

theorem below_iff {s : HyperLogLog} {i b : ℕ} (hi : i < s.registers.length) :
    s.Below i b ↔ s.registers[i] ≤ b := by
  rw [Below, List.getElem?_eq_getElem hi]
  simp

/-- Registers with the same bounds are the same. -/
theorem eq_of_below {s t : HyperLogLog} (hp : s.precision = t.precision)
    (h : ∀ i < 1 <<< s.precision, ∀ b, s.Below i b ↔ t.Below i b) : s = t := by
  have hlen : s.registers.length = t.registers.length := by
    rw [s.length_registers, t.length_registers, hp]
  refine ext hp (List.ext_getElem hlen fun i hs ht => ?_)
  refine eq_of_forall_ge_iff fun b => ?_
  rw [← below_iff hs, ← below_iff ht]
  exact h i (s.length_registers ▸ hs) b

/-! ### Values -/

section Values

variable {V : Type} (hash : List UInt8 → UInt64) (str : V → Option PyStr)

/-- A stream after another one. -/
theorem addAll_append_eq (s : HyperLogLog) (xs ys : List V) :
    addAll hash str s (xs ++ ys) = (addAll hash str s xs).bind (addAll hash str · ys) :=
  List.foldlM_append

theorem addAll_eq (s : HyperLogLog) (values : List V) :
    addAll hash str s values = (values.mapM (hashValue hash str)).map s.addHashes := by
  induction values generalizing s with
  | nil => rfl
  | cons v values ih =>
    rw [addAll, List.foldlM_cons, List.mapM_cons, add]
    cases hashValue hash str v with
    | none => rfl
    | some h =>
      show addAll hash str (s.addHash h) values = _
      rw [ih]
      cases values.mapM (hashValue hash str) <;> rfl

variable {str}

/-- Streams with the same `str` raise alike, or have the same hashes. -/
theorem mapM_hashValue {xs ys : List V} (h : ∀ s, s ∈ xs.map str ↔ s ∈ ys.map str) :
    (xs.mapM (hashValue hash str) = none ∧ ys.mapM (hashValue hash str) = none) ∨
      ∃ hx hy, xs.mapM (hashValue hash str) = some hx ∧ ys.mapM (hashValue hash str) = some hy ∧
        ∀ k, k ∈ hx ↔ k ∈ hy := by
  have hmem : ∀ k, (∃ x ∈ xs, hashValue hash str x = k) ↔ ∃ y ∈ ys, hashValue hash str y = k := by
    intro k
    have hstr : ∀ zs : List V, (∃ z ∈ zs, hashValue hash str z = k) ↔
        ∃ s ∈ zs.map str, (s.bind encodeStr).map hash = k := by
      intro zs
      simp only [List.mem_map, exists_exists_and_eq_and]
      rfl
    rw [hstr, hstr]
    simp only [h]
  have hsome : (xs.mapM (hashValue hash str)).isSome ↔ (ys.mapM (hashValue hash str)).isSome := by
    rw [isSome_mapM, isSome_mapM]
    have hnone := hmem none
    simp only [Option.isSome_iff_ne_none]
    constructor
    · intro hx y hy hyn
      obtain ⟨x, hx', hxn⟩ := hnone.mpr ⟨y, hy, hyn⟩
      exact hx x hx' hxn
    · intro hy x hx hxn
      obtain ⟨y, hy', hyn⟩ := hnone.mp ⟨x, hx, hxn⟩
      exact hy y hy' hyn
  cases hx : xs.mapM (hashValue hash str) with
  | none =>
    rw [hx] at hsome
    exact .inl ⟨rfl, Option.not_isSome_iff_eq_none.mp fun h => Bool.noConfusion (hsome.mpr h)⟩
  | some hxs =>
    rw [hx] at hsome
    obtain ⟨hys, hy⟩ := Option.isSome_iff_exists.mp (hsome.mp rfl)
    refine .inr ⟨hxs, hys, rfl, hy, fun k => ?_⟩
    rw [mem_mapM_iff hx, mem_mapM_iff hy]
    exact hmem (some k)

theorem addAll_insensitive (precision : ℕ) {xs ys : List V}
    (h : ∀ s, s ∈ xs.map str ↔ s ∈ ys.map str) :
    addAll hash str (init precision) xs = addAll hash str (init precision) ys := by
  rw [addAll_eq, addAll_eq]
  obtain ⟨hx, hy⟩ | ⟨hx, hy, hxs, hys, hmem⟩ := mapM_hashValue hash h
  · rw [hx, hy]
  · rw [hxs, hys]
    refine congrArg some (eq_of_below (by simp) fun i hi b => ?_)
    rw [precision_addHashes, precision_init] at hi
    rw [below_init_iff hx hi, below_init_iff hy hi]
    simp only [hmem]

variable {hash}

theorem addAll_eq_some_iff {s t : HyperLogLog} {values : List V} :
    addAll hash str s values = some t ↔
      ∃ hashes, values.mapM (hashValue hash str) = some hashes ∧ s.addHashes hashes = t := by
  rw [addAll_eq, Option.map_eq_some_iff]

/-- A register of a stream that starts from nothing, and what bounds it. -/
theorem register_le_iff {precision : ℕ} {s : HyperLogLog} {values : List V}
    (h : addAll hash str (init precision) values = some s) {i : ℕ} (hi : i < s.registers.length)
    (b : ℕ) : s.registers[i] ≤ b ↔ ∀ v ∈ values, ∀ k, hashValue hash str v = some k →
      index precision k = i → rank precision k ≤ b := by
  obtain ⟨hashes, hhashes, rfl⟩ := addAll_eq_some_iff.mp h
  have hlen := ((init precision).addHashes hashes).length_registers
  rw [← below_iff hi, below_init_iff hashes (by rw [hlen, precision_addHashes] at hi; exact hi)]
  constructor
  · intro hall v hv k hk
    exact hall k ((mem_mapM_iff hhashes).mpr ⟨v, hv, hk⟩)
  · intro hall k hk
    obtain ⟨v, hv, hvk⟩ := (mem_mapM_iff hhashes).mp hk
    exact hall v hv k hvk

/-- **A register is the greatest rank** of the values that fall in it, when there are any. -/
theorem isGreatest_register {precision : ℕ} {s : HyperLogLog} {values : List V}
    (h : addAll hash str (init precision) values = some s) {i : ℕ} (hi : i < s.registers.length)
    (hne : ∃ v ∈ values, ∃ k, hashValue hash str v = some k ∧ index precision k = i) :
    IsGreatest {r | ∃ v ∈ values, ∃ k, hashValue hash str v = some k ∧ index precision k = i ∧
      rank precision k = r} s.registers[i] := by
  have hbound := register_le_iff h hi
  have hle := (hbound s.registers[i]).mp le_rfl
  refine ⟨?_, ?_⟩
  · -- a smaller number would be a bound otherwise
    by_contra hnot
    have hlt : ∀ v ∈ values, ∀ k, hashValue hash str v = some k → index precision k = i →
        rank precision k < s.registers[i] := fun v hv k hk hki =>
      lt_of_le_of_ne (hle v hv k hk hki) fun heq => hnot ⟨v, hv, k, hk, hki, heq⟩
    obtain ⟨v, hv, k, hk, hki⟩ := hne
    have hpos := hlt v hv k hk hki
    have hsmaller := (hbound (s.registers[i] - 1)).mpr fun v hv k hk hki =>
      Nat.le_sub_one_of_lt (hlt v hv k hk hki)
    omega
  · rintro r ⟨v, hv, k, hk, hki, rfl⟩
    exact hle v hv k hk hki

theorem registers_le {precision : ℕ} (hp : precision < 64) {s : HyperLogLog} {values : List V}
    (h : addAll hash str (init precision) values = some s) :
    ∀ r ∈ s.registers, r ≤ 64 - precision := by
  intro r hr
  obtain ⟨i, hi, rfl⟩ := List.getElem_of_mem hr
  rw [register_le_iff h hi]
  exact fun _ _ k _ _ => rank_le hp k

theorem addAll_append {precision : ℕ} {s t : HyperLogLog} {xs ys : List V}
    (hs : addAll hash str (init precision) xs = some s)
    (ht : addAll hash str (init precision) ys = some t) :
    ∃ u, addAll hash str s ys = some u ∧
      u.registers = List.zipWith max s.registers t.registers := by
  obtain ⟨hx, -, rfl⟩ := addAll_eq_some_iff.mp hs
  obtain ⟨hy, hys, rfl⟩ := addAll_eq_some_iff.mp ht
  refine ⟨_, addAll_eq_some_iff.mpr ⟨hy, hys, rfl⟩, ?_⟩
  have hlen := fun hashes => ((init precision).addHashes hashes).length_registers
  simp only [precision_addHashes, precision_init] at hlen
  refine List.ext_getElem ?_ fun i hi hi' => ?_
  · rw [length_registers, List.length_zipWith, hlen, hlen, min_self]
    simp
  · rw [length_registers] at hi
    simp only [precision_addHashes, precision_init] at hi
    rw [List.getElem_zipWith]
    refine eq_of_forall_ge_iff fun b => ?_
    rw [max_le_iff, ← below_iff, ← below_iff, ← below_iff,
      below_addHashes_iff _ _ (by simpa using hi),
      below_init_iff hy hi]
    simp

/-- Streams with the same `str` have the same registers and the same estimate, or raise alike. A
register is a rank that fits, and a stream after another one takes the pointwise maximum. -/
theorem registers_insensitive (hash : List UInt8 → UInt64) (str : V → Option PyStr) {precision : ℕ}
    (hp : precision < 64) (xs ys : List V) :
    ((∀ s, s ∈ xs.map str ↔ s ∈ ys.map str) →
      addAll hash str (init precision) xs = addAll hash str (init precision) ys ∧
        ∀ log, (addAll hash str (init precision) xs).map (estimate log) =
          (addAll hash str (init precision) ys).map (estimate log)) ∧
    (∀ s, addAll hash str (init precision) xs = some s →
      s.registers.length = 2 ^ precision ∧ ∀ r ∈ s.registers, r ≤ 64 - precision) ∧
    ∀ s t, addAll hash str (init precision) xs = some s →
      addAll hash str (init precision) ys = some t →
      ∃ u, addAll hash str (init precision) (xs ++ ys) = some u ∧
        u.registers = List.zipWith max s.registers t.registers := by
  refine ⟨fun h => ?_, fun s hs => ⟨?_, registers_le hp hs⟩, fun s t hs ht => ?_⟩
  · have heq := addAll_insensitive hash precision h
    exact ⟨heq, fun log => by rw [heq]⟩
  · obtain ⟨hashes, -, rfl⟩ := addAll_eq_some_iff.mp hs
    rw [length_registers, precision_addHashes, precision_init, Nat.one_shiftLeft]
  · obtain ⟨u, hu, hmax⟩ := addAll_append hs ht
    refine ⟨u, ?_, hmax⟩
    rw [addAll_append_eq, hs]
    exact hu

end Values

/-- A hash of the first byte. -/
def firstByte (data : List UInt8) : UInt64 := (data.headD 0).toUInt64

theorem registers_insensitive_first_byte :
    addAll firstByte some (init 12) [ofString "a", ofString "b", ofString "a"] =
      addAll firstByte some (init 12) [ofString "b", ofString "a"] :=
  ((registers_insensitive firstByte some (by decide) _ _).1 fun s => by
    simp only [List.map_cons, List.map_nil, List.mem_cons, List.not_mem_nil]
    tauto).1

/-! ### The scale of the estimate -/

/-- No register is zero, and `largest` is the largest one. -/
structure Filled (s : HyperLogLog) (largest : ℕ) : Prop where
  pos : ∀ r ∈ s.registers, 0 < r
  mem : largest ∈ s.registers
  le : ∀ r ∈ s.registers, r ≤ largest

/-- How far the registers stay below the largest one, in powers of two. -/
def spread (largest : ℕ) (registers : List ℕ) : ℕ :=
  registers.foldr (fun r sum => 2 ^ (largest - r) + sum) 0

theorem spread_eq {largest : ℕ} {registers : List ℕ} (h : ∀ r ∈ registers, r ≤ largest) :
    (spread largest registers : ℚ) = 2 ^ largest * harmonic registers := by
  induction registers with
  | nil => simp [spread, harmonic]
  | cons r registers ih =>
    obtain ⟨hr, hrs⟩ := List.forall_mem_cons.mp h
    show ((2 ^ (largest - r) + spread largest registers : ℕ) : ℚ)
      = 2 ^ largest * ((2 ^ r)⁻¹ + harmonic registers)
    have hpow : (2 : ℚ) ^ (largest - r) = 2 ^ largest * (2 ^ r)⁻¹ := pow_sub₀ 2 two_ne_zero hr
    push_cast
    rw [ih hrs, hpow]
    ring

theorem length_le_spread (largest : ℕ) (registers : List ℕ) :
    registers.length ≤ spread largest registers := by
  induction registers with
  | nil => exact le_refl 0
  | cons r registers ih =>
    show registers.length + 1 ≤ 2 ^ (largest - r) + spread largest registers
    have hpow := Nat.one_le_two_pow (n := largest - r)
    omega

theorem harmonic_pos {registers : List ℕ} (h : registers ≠ []) : 0 < harmonic registers := by
  induction registers with
  | nil => exact absurd rfl h
  | cons r registers ih =>
    show 0 < (2 ^ r : ℚ)⁻¹ + harmonic registers
    have hpow : (0 : ℚ) < (2 ^ r)⁻¹ := by positivity
    rcases eq_or_ne registers [] with rfl | hne
    · simp [harmonic]
    · exact add_pos hpow (ih hne)

theorem m_eq (s : HyperLogLog) : s.m = 2 ^ s.precision := Nat.one_shiftLeft s.precision

theorem length_registers_eq_m (s : HyperLogLog) : s.registers.length = s.m := s.length_registers

/-- The estimate is in scale when the bias factor leaves room for the spread of the registers. -/
theorem raw_le_iff {s : HyperLogLog} {largest : ℕ} (h : s.Filled largest) :
    s.raw ≤ s.m * 2 ^ largest ↔ alpha s.m * s.m ≤ spread largest s.registers := by
  have hm : (0 : ℚ) < s.m := by
    rw [m_eq]
    positivity
  have hharm : 0 < harmonic s.registers := harmonic_pos (List.ne_nil_of_mem h.mem)
  rw [spread_eq h.le, raw, div_le_iff₀ hharm, mul_comm (alpha s.m * s.m) (s.m : ℚ),
    mul_assoc (s.m : ℚ)]
  exact mul_le_mul_iff_right₀ hm

theorem alpha_le_one {m : ℕ} (h : 128 ≤ m) : alpha m ≤ 1 := by
  have hm : (0 : ℚ) < m := by exact_mod_cast Nat.lt_of_lt_of_le (by norm_num) h
  rw [alpha, if_pos h, div_le_one (by positivity)]
  have hdiv : (0 : ℚ) < 1.079 / m := by positivity
  linarith

/-- With half their number for a factor, the square of that number is left. -/
theorem alpha_mul_of_lt {precision : ℕ} (hp : 1 ≤ precision) (h : precision < 7) :
    alpha (2 ^ precision) * (2 ^ precision : ℕ) = (2 ^ (2 * precision - 1) : ℕ) := by
  have hlt : ¬ 128 ≤ 2 ^ precision := by
    have hpow := Nat.pow_lt_pow_right (a := 2) (by norm_num) h
    omega
  obtain ⟨k, rfl⟩ := Nat.exists_eq_add_of_le hp
  rw [alpha, if_neg hlt, show 2 * (1 + k) - 1 = (1 + k) + k by omega]
  push_cast
  ring

/-- The estimate of one array of registers. -/
theorem raw_le_iff_spread {s : HyperLogLog} (hp : 1 ≤ s.precision) {largest : ℕ}
    (h : s.Filled largest) :
    s.raw ≤ s.m * 2 ^ largest ↔
      7 ≤ s.precision ∨ 2 ^ (2 * s.precision - 1) ≤ spread largest s.registers := by
  rw [raw_le_iff h]
  rcases Nat.lt_or_ge s.precision 7 with hlt | hge
  · rw [m_eq, alpha_mul_of_lt hp hlt, Nat.cast_le]
    have hnot : ¬ 7 ≤ s.precision := by omega
    exact (or_iff_right hnot).symm
  · have hm : 128 ≤ s.m := by
      rw [m_eq]
      exact Nat.pow_le_pow_right (n := 2) (by norm_num) hge
    have hspread : (s.m : ℚ) ≤ spread largest s.registers := by
      exact_mod_cast s.length_registers_eq_m ▸ length_le_spread largest s.registers
    refine iff_of_true ?_ (.inl hge)
    calc alpha s.m * s.m ≤ 1 * s.m := by gcongr; exact alpha_le_one hm
      _ = s.m := one_mul _
      _ ≤ spread largest s.registers := hspread

/-- Registers that are all the same. -/
def uniform (precision r : ℕ) : HyperLogLog where
  precision := precision
  registers := List.replicate (1 <<< precision) r
  length_registers := List.length_replicate

theorem spread_uniform (r n : ℕ) : spread r (List.replicate n r) = n := by
  induction n with
  | zero => rfl
  | succ n ih =>
    show 2 ^ (r - r) + spread r (List.replicate n r) = n + 1
    rw [ih, Nat.sub_self, pow_zero, Nat.add_comm]

theorem filled_uniform (precision : ℕ) {r : ℕ} (hr : 0 < r) : (uniform precision r).Filled r where
  pos := fun r' h' => by rw [List.eq_of_mem_replicate h']; exact hr
  mem := by
    refine List.mem_replicate.mpr ⟨?_, rfl⟩
    rw [Nat.one_shiftLeft]
    positivity
  le := fun r' h' => (List.eq_of_mem_replicate h').le

/-- Every array of registers without a zero has an estimate in scale when there are 2 of them, or
128 or more. With 4 to 64 of them it depends on the array: the spread has to make up for the bias
factor. -/
theorem raw_scale_iff {precision : ℕ} (hp : 1 ≤ precision) :
    ((∀ (s : HyperLogLog) (largest : ℕ), s.precision = precision → s.Filled largest →
        s.raw ≤ s.m * 2 ^ largest) ↔ precision = 1 ∨ 7 ≤ precision) ∧
    ∀ (s : HyperLogLog) (largest : ℕ), s.precision = precision → s.Filled largest →
      (s.raw ≤ s.m * 2 ^ largest ↔
        7 ≤ precision ∨ 2 ^ (2 * precision - 1) ≤ spread largest s.registers) := by
  have hone : ∀ (s : HyperLogLog) (largest : ℕ), s.precision = precision → s.Filled largest →
      (s.raw ≤ s.m * 2 ^ largest ↔
        7 ≤ precision ∨ 2 ^ (2 * precision - 1) ≤ spread largest s.registers) := by
    rintro s largest rfl h
    exact raw_le_iff_spread hp h
  refine ⟨⟨fun hall => ?_, fun h s largest hs hfilled => ?_⟩, hone⟩
  · -- registers that are all equal have no spread
    have hfilled := filled_uniform precision Nat.one_pos
    rcases (hone _ _ rfl hfilled).mp (hall _ _ rfl hfilled) with h | h
    · exact .inr h
    · rw [uniform, spread_uniform, Nat.one_shiftLeft] at h
      have hle := (Nat.pow_le_pow_iff_right Nat.one_lt_two).mp h
      exact .inl (by omega)
  · rw [hone s largest hs hfilled]
    rcases h with rfl | h
    · have hlen : s.registers.length = 2 := by rw [s.length_registers, hs]; rfl
      exact .inr (hlen.symm.le.trans (length_le_spread largest s.registers))
    · exact .inl h

theorem raw_scale_iff_seven : (uniform 7 1).raw ≤ (uniform 7 1).m * 2 ^ 1 :=
  ((raw_scale_iff (by decide)).2 (uniform 7 1) 1 rfl (filled_uniform 7 Nat.one_pos)).mpr
    (.inl (le_refl 7))

/-- Four registers that hold 1 have no spread, and their estimate is 16. -/
theorem not_raw_scale : ¬ ∀ precision, 1 ≤ precision → ∀ (s : HyperLogLog) (largest : ℕ),
    s.precision = precision → s.Filled largest → s.raw ≤ s.m * 2 ^ largest := by
  intro h
  have hfilled := filled_uniform 2 Nat.one_pos
  have hle := h 2 (by decide) (uniform 2 1) 1 rfl hfilled
  rcases (raw_le_iff_spread (by decide) hfilled).mp hle with hp | hspread
  · exact absurd hp (by decide)
  · rw [uniform, spread_uniform] at hspread
    exact absurd hspread (by decide)

end HyperLogLog

end Persista
