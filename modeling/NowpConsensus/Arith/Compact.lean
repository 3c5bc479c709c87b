import NowpConsensus.Arith.BigNum
import Mathlib.Data.Nat.Size
import Mathlib.Data.Nat.Bitwise

/-!
# The compact target format, on numbers

`arith_uint256::GetCompact` and `SetCompact` (and their `CBigNum` twins) read and write the
32-bit compact form of a target: a size byte `n` and a 23-bit mantissa `m` denoting
`m * 256 ^ (n - 3)`. Here the format is described on `Nat`: `encode x` is the mantissa and
size `GetCompact` packs for `x`, `decode m n` the number a mantissa and size denote, and
`round x` is `x` with every byte below the ones the format keeps cleared. Then:

* `decode_encode`: what `GetCompact` writes denotes `round x`, and `encode_round`: rounding does
  not change what is written;
* `arith_uint256.GetCompact_toNat` and `CBigNum.GetCompact_toNat`: both encoders pack `encode`;
* `SetCompact_value`, `SetCompact_fNegative`, `SetCompact_fOverflow`: `SetCompact` of any word
  is the decoded value cut to 256 bits, negative when the sign bit is set on a non-zero value,
  and overflowing exactly when the decoded value does not fit in 256 bits;
* `CBigNum.SetCompact_eq`: the unbounded decoder is the same value with the sign applied.
-/

namespace NowpConsensus

theorem numBits_le_iff {n k : Nat} : numBits n ≤ k ↔ n < 2 ^ k := by
  unfold numBits
  split_ifs with h
  · subst h
    simp [Nat.pos_of_ne_zero (pow_ne_zero k two_ne_zero)]
  · rw [Nat.add_one_le_iff, Nat.log2_lt h]

/-- `numBits` is Mathlib's `Nat.size`. -/
theorem numBits_eq_size (n : Nat) : numBits n = n.size :=
  le_antisymm (numBits_le_iff.2 n.lt_size_self) (Nat.size_le.2 (numBits_le_iff.1 le_rfl))

namespace Compact

/-- The number of bytes of `x`, `(bits() + 7) / 8`. -/
def nSize (x : Nat) : Nat := (numBits x + 7) / 8

/-- The top three bytes of `x`, as `GetCompact` first reads them: `x` shifted up when it has
fewer bytes, down when it has more. -/
def mantissa (x : Nat) : Nat :=
  if nSize x ≤ 3 then x * 256 ^ (3 - nSize x) else x / 256 ^ (nSize x - 3)

/-- A mantissa `m` read at size `n`, with the sign bit cleared: a mantissa with the bit set
moves one byte down and the size one up. -/
def normalize (m n : Nat) : Nat × Nat :=
  if 0x800000 ≤ m then (m / 256, n + 1) else (m, n)

/-- The mantissa and the size `GetCompact` packs for `x`. -/
def encode (x : Nat) : Nat × Nat := normalize (mantissa x) (nSize x)

/-- The number a mantissa and a size denote, `mantissa * 256 ^ (size - 3)`, with the bytes shifted
out below a size of three lost. -/
def decode (m n : Nat) : Nat := if n ≤ 3 then m / 256 ^ (3 - n) else m * 256 ^ (n - 3)

/-- The number of significant bytes the compact form keeps of `x`. -/
def keptBytes (x : Nat) : Nat := if numBits x % 8 = 0 then 2 else 3

/-- `x` with every byte below its three most significant bytes cleared, or below its two most
significant ones when the top byte has its high bit set. -/
def round (x : Nat) : Nat :=
  x / 256 ^ (nSize x - keptBytes x) * 256 ^ (nSize x - keptBytes x)

theorem pow256 (k : Nat) : (256 : Nat) ^ k = 2 ^ (8 * k) := by
  rw [pow_mul]
  norm_num

theorem lt_pow_nSize (x : Nat) : x < 256 ^ nSize x := by
  rw [pow256]
  exact numBits_le_iff.1 (by unfold nSize; omega)

theorem nSize_eq_zero_iff {x : Nat} : nSize x = 0 ↔ x = 0 := by
  constructor
  · intro h
    have := lt_pow_nSize x
    rw [h] at this
    omega
  · rintro rfl
    rfl

/-- The top byte of `x` has its high bit set exactly when its bits fill its bytes. -/
theorem two_pow_le_iff {x : Nat} (hx : x ≠ 0) :
    2 ^ (8 * nSize x - 1) ≤ x ↔ numBits x = 8 * nSize x := by
  rw [← Nat.lt_size, ← numBits_eq_size]
  have hpos : 0 < numBits x := by
    rw [numBits_eq_size]
    exact Nat.size_pos.2 (Nat.pos_of_ne_zero hx)
  unfold nSize
  omega

theorem mantissa_lt (x : Nat) : mantissa x < 0x1000000 := by
  have hx := lt_pow_nSize x
  unfold mantissa
  split_ifs with h
  · calc x * 256 ^ (3 - nSize x) < 256 ^ nSize x * 256 ^ (3 - nSize x) :=
          Nat.mul_lt_mul_of_pos_right hx (by positivity)
      _ = 0x1000000 := by rw [← pow_add, Nat.add_sub_cancel' h]; rfl
  · apply Nat.div_lt_of_lt_mul
    calc x < 256 ^ nSize x := hx
      _ = 256 ^ (nSize x - 3) * 0x1000000 := by
          rw [show (0x1000000 : Nat) = 256 ^ 3 by rfl, ← pow_add, Nat.sub_add_cancel (by omega)]

/-- The mantissa has its sign bit set exactly when the bits of `x` fill its bytes. -/
theorem le_mantissa_iff {x : Nat} :
    0x800000 ≤ mantissa x ↔ x ≠ 0 ∧ numBits x = 8 * nSize x := by
  by_cases hx : x = 0
  · subst hx
    simp [mantissa, nSize, numBits]
  have hn : 1 ≤ nSize x := Nat.pos_of_ne_zero (mt nSize_eq_zero_iff.1 hx)
  rw [← two_pow_le_iff hx]
  simp only [ne_eq, hx, not_false_eq_true, true_and]
  unfold mantissa
  split_ifs with h
  · have hpow : (0x800000 : Nat) = 2 ^ (8 * nSize x - 1) * 256 ^ (3 - nSize x) := by
      rw [pow256, ← pow_add]
      have : 8 * nSize x - 1 + 8 * (3 - nSize x) = 23 := by omega
      rw [this]
      rfl
    rw [hpow]
    exact Nat.mul_le_mul_right_iff (by positivity)
  · rw [Nat.le_div_iff_mul_le (by positivity), pow256, show (0x800000 : Nat) = 2 ^ 23 by rfl,
      ← pow_add]
    have : 23 + 8 * (nSize x - 3) = 8 * nSize x - 1 := by omega
    rw [this]

/-- Past three bytes, the mantissa moved one byte down is `x` moved down by one more byte. -/
theorem mantissa_div_256 {x : Nat} (h : 3 ≤ nSize x) :
    mantissa x / 256 = x / 256 ^ (nSize x - 2) := by
  unfold mantissa
  split_ifs with h3
  · have : nSize x = 3 := by omega
    rw [this]
    simp
  · rw [Nat.div_div_eq_div_mul, ← pow_succ, show nSize x - 3 + 1 = nSize x - 2 by omega]

/-- **What the packed mantissa and size denote is `x` rounded** to its top three bytes, or two
when the top byte has its high bit set. -/
theorem decode_encode (x : Nat) : decode (encode x).1 (encode x).2 = round x := by
  by_cases hx : x = 0
  · subst hx
    simp [decode, encode, normalize, round, mantissa, nSize, numBits]
  unfold encode normalize round keptBytes
  by_cases hs : 0x800000 ≤ mantissa x
  · obtain ⟨-, hb⟩ := le_mantissa_iff.1 hs
    have hkeep : numBits x % 8 = 0 := by omega
    simp only [if_pos hs, hkeep, if_true]
    unfold decode
    by_cases h2 : nSize x ≤ 2
    · have hm : mantissa x = x * 256 ^ (2 - nSize x) * 256 := by
        rw [mantissa, if_pos (by omega), Nat.mul_assoc, ← pow_succ,
          show 2 - nSize x + 1 = 3 - nSize x by omega]
      rw [if_pos (by omega), hm, Nat.mul_div_cancel _ (by norm_num),
        show 3 - (nSize x + 1) = 2 - nSize x by omega, Nat.mul_div_cancel _ (by positivity),
        show nSize x - 2 = 0 by omega]
      simp
    · rw [if_neg (by omega), mantissa_div_256 (by omega), show nSize x + 1 - 3 = nSize x - 2 by omega]
  · have hkeep : numBits x % 8 ≠ 0 := by
      intro h0
      exact hs (le_mantissa_iff.2 ⟨hx, by unfold nSize; omega⟩)
    simp only [if_neg hs, hkeep, if_false]
    unfold decode mantissa
    split_ifs with h3
    · rw [Nat.mul_div_cancel _ (by positivity), show nSize x - 3 = 0 by omega]
      simp
    · rfl

theorem numBits_eq_of_le_of_lt {y b : Nat} (hb : 0 < b) (h1 : 2 ^ (b - 1) ≤ y)
    (h2 : y < 2 ^ b) : numBits y = b := by
  apply le_antisymm (numBits_le_iff.2 h2)
  by_contra h
  have := numBits_le_iff.1 (show numBits y ≤ b - 1 by omega)
  omega

theorem two_pow_numBits_le {x : Nat} (hx : x ≠ 0) : 2 ^ (numBits x - 1) ≤ x := by
  have hpos : 0 < x.size := Nat.size_pos.2 (Nat.pos_of_ne_zero hx)
  rw [numBits_eq_size]
  exact Nat.lt_size.1 (by omega)

theorem round_of_le {x : Nat} (h : nSize x ≤ keptBytes x) : round x = x := by
  rw [round, Nat.sub_eq_zero_of_le h]
  simp

theorem round_div (x : Nat) :
    round x / 256 ^ (nSize x - keptBytes x) = x / 256 ^ (nSize x - keptBytes x) :=
  Nat.mul_div_cancel _ (by positivity)

/-- Rounding keeps the top bit: the bytes it clears are below it. -/
theorem numBits_round (x : Nat) : numBits (round x) = numBits x := by
  by_cases hx : x = 0
  · subst hx
    rfl
  have hpos : 0 < numBits x := by simp [numBits, hx]
  set k := nSize x - keptBytes x
  have hk : 8 * k ≤ numBits x - 1 := by
    unfold k nSize keptBytes
    split_ifs <;> omega
  apply numBits_eq_of_le_of_lt hpos
  · have hdvd : 256 ^ k ∣ 2 ^ (numBits x - 1) := by
      rw [pow256]
      exact Nat.pow_dvd_pow 2 hk
    calc 2 ^ (numBits x - 1) = 2 ^ (numBits x - 1) / 256 ^ k * 256 ^ k :=
          (Nat.div_mul_cancel hdvd).symm
      _ ≤ x / 256 ^ k * 256 ^ k := Nat.mul_le_mul_right _ (Nat.div_le_div_right (two_pow_numBits_le hx))
  · exact lt_of_le_of_lt (Nat.div_mul_le_self x _) (numBits_le_iff.1 le_rfl)

theorem nSize_round (x : Nat) : nSize (round x) = nSize x := by
  unfold nSize
  rw [numBits_round]

theorem keptBytes_round (x : Nat) : keptBytes (round x) = keptBytes x := by
  unfold keptBytes
  rw [numBits_round]

theorem round_pos {x : Nat} (hx : 0 < x) : 0 < round x := by
  rcases Nat.eq_zero_or_pos (round x) with h0 | h0
  · have h := numBits_round x
    rw [h0] at h
    simp [numBits, hx.ne'] at h
  · exact h0

/-- A rounded number packs as the number itself: the bytes rounding clears are the ones
`GetCompact` drops. -/
theorem encode_round (x : Nat) : encode (round x) = encode x := by
  by_cases hx : x = 0
  · subst hx
    rfl
  have hr : round x ≠ 0 := (round_pos (Nat.pos_of_ne_zero hx)).ne'
  have hsign : 0x800000 ≤ mantissa (round x) ↔ 0x800000 ≤ mantissa x := by
    rw [le_mantissa_iff, le_mantissa_iff, numBits_round, nSize_round]
    simp [hx, hr]
  unfold encode normalize
  rw [nSize_round]
  by_cases hs : 0x800000 ≤ mantissa x
  · rw [if_pos (hsign.2 hs), if_pos hs]
    have hkeep : keptBytes x = 2 := by
      obtain ⟨-, hb⟩ := le_mantissa_iff.1 hs
      simp [keptBytes, hb]
    by_cases h2 : nSize x ≤ 2
    · rw [round_of_le (by omega)]
    · have h := round_div x
      rw [hkeep] at h
      rw [mantissa_div_256 (by rw [nSize_round]; omega), mantissa_div_256 (by omega), nSize_round, h]
  · rw [if_neg (mt hsign.1 hs), if_neg hs]
    have hkeep : keptBytes x = 3 := by
      have : ¬ (x ≠ 0 ∧ numBits x = 8 * nSize x) := mt le_mantissa_iff.2 hs
      unfold keptBytes nSize at *
      split_ifs <;> omega
    by_cases h3 : nSize x ≤ 3
    · rw [round_of_le (by omega)]
    · have h := round_div x
      rw [hkeep] at h
      rw [mantissa, mantissa, nSize_round, if_neg h3, if_neg h3, h]

/-- A packed word of a mantissa below `2 ^ 24` and a size byte. -/
theorem toNat_pack {m n : Nat} (hm : m < 2 ^ 24) (hn : n < 256) :
    (UInt32.ofNat m ||| (UInt32.ofNat n <<< 24)).toNat = m + n * 2 ^ 24 := by
  rw [UInt32.toNat_or, UInt32.toNat_shiftLeft, UInt32.toNat_ofNat', UInt32.toNat_ofNat']
  have h24 : (24 : UInt32).toNat % 32 = 24 := rfl
  rw [h24, Nat.mod_eq_of_lt (by omega : m < 2 ^ 32), Nat.mod_eq_of_lt (by omega : n < 2 ^ 32),
    Nat.shiftLeft_eq, Nat.mod_eq_of_lt (by omega : n * 2 ^ 24 < 2 ^ 32), Nat.or_comm,
    Nat.mul_comm, ← Nat.two_pow_add_eq_or_of_lt hm]
  omega

theorem pack_mod {m : Nat} (n : Nat) (hm : m < 0x800000) : (m + n * 2 ^ 24) % 2 ^ 23 = m := by
  omega

theorem pack_div {m : Nat} (n : Nat) (hm : m < 0x800000) : (m + n * 2 ^ 24) / 2 ^ 24 = n := by
  omega

theorem testBit_pack {m : Nat} (n : Nat) (hm : m < 0x800000) :
    (m + n * 2 ^ 24).testBit 23 = false := by
  rw [Nat.testBit_eq_decide_div_mod_eq, decide_eq_false]
  omega

theorem round_le (x : Nat) : round x ≤ x := Nat.div_mul_le_self _ _

theorem size_toNat (c : UInt32) : (c >>> 24).toNat = c.toNat / 2 ^ 24 := by
  rw [UInt32.toNat_shiftRight, Nat.shiftRight_eq_div_pow]
  rfl

theorem word_toNat (c : UInt32) : (c &&& 0x007fffff).toNat = c.toNat % 2 ^ 23 := by
  rw [UInt32.toNat_and]
  exact Nat.and_two_pow_sub_one_eq_mod _ 23

/-- A word masked with a power of two is nonzero exactly when that bit is set. -/
theorem and_ne_zero_eq_testBit (c y : UInt32) {i : Nat} (hy : y.toNat = 2 ^ i) :
    (c &&& y != 0) = c.toNat.testBit i := by
  have h : (c &&& y).toNat = (c.toNat.testBit i).toNat * 2 ^ i := by
    rw [UInt32.toNat_and, hy]
    exact Nat.and_two_pow c.toNat i
  cases hb : c.toNat.testBit i
  · have h0 : (c &&& y) = 0 := UInt32.toNat_inj.1 (by rw [h, hb, UInt32.toNat_zero]; simp)
    simp [h0]
  · have hne : (c &&& y) ≠ 0 := fun h0 => by
      have := congrArg UInt32.toNat h0
      rw [h, hb] at this
      simp at this
    simp [hne]

/-- The sign bit of a compact word is its bit 23. -/
theorem signBit_eq (c : UInt32) : (c &&& 0x00800000 != 0) = c.toNat.testBit 23 :=
  and_ne_zero_eq_testBit c 0x00800000 rfl

/-- Bit 23 of a mantissa below `2 ^ 24` is set exactly when it is at least `0x800000`. -/
theorem signBit_ofNat {m : Nat} (hm : m < 0x1000000) :
    (UInt32.ofNat m &&& 0x00800000 != 0) = decide (0x800000 ≤ m) := by
  rw [signBit_eq, UInt32.toNat_ofNat', Nat.mod_eq_of_lt (by omega : m < 2 ^ 32)]
  by_cases hge : 0x800000 ≤ m
  · rw [Nat.testBit_of_two_pow_le_and_two_pow_add_one_gt hge hm, decide_eq_true hge]
  · rw [Nat.testBit_lt_two_pow (by omega), decide_eq_false hge]

/-- The renormalisation step of both `GetCompact`s, on the 32-bit word, is `normalize`. -/
theorem normalize_ofNat {m : Nat} (n : Nat) (hm : m < 0x1000000) :
    (if (UInt32.ofNat m &&& 0x00800000 != 0) = true then (UInt32.ofNat m >>> 8, n + 1)
      else (UInt32.ofNat m, n)) = (UInt32.ofNat (normalize m n).1, (normalize m n).2) := by
  rw [signBit_ofNat hm, normalize]
  by_cases hs : 0x800000 ≤ m
  · have hshift : UInt32.ofNat m >>> 8 = UInt32.ofNat (m / 256) := by
      apply UInt32.toNat_inj.1
      rw [UInt32.toNat_shiftRight, UInt32.toNat_ofNat', UInt32.toNat_ofNat',
        Nat.mod_eq_of_lt (by omega : m < 2 ^ 32), Nat.mod_eq_of_lt (by omega : m / 256 < 2 ^ 32),
        Nat.shiftRight_eq_div_pow]
      rfl
    simp [hs, hshift]
  · simp [hs]

theorem encode_fst_lt (x : Nat) : (encode x).1 < 0x800000 := by
  have := mantissa_lt x
  unfold encode normalize
  split_ifs with h
  · omega
  · omega

theorem encode_snd_le (x : Nat) : (encode x).2 ≤ nSize x + 1 := by
  unfold encode normalize
  split_ifs <;> simp

theorem nSize_le {x : Nat} (h : x < 2 ^ 256) : nSize x ≤ 32 := by
  have := numBits_le_iff.2 h
  unfold nSize
  omega

end Compact

open NowpConsensus.Compact

namespace arith_uint256

/-- The mantissa `GetCompact` reads before renormalising: the low 64 bits of `x` shifted so that
its top byte lands in bits 16 to 23. -/
theorem GetCompact_mantissa (x : arith_uint256) :
    (if nSize x.toNat ≤ 3 then
        UInt32.ofNat (base_uint.GetLow64 x <<< (8 * (3 - nSize x.toNat)))
      else UInt32.ofNat (base_uint.GetLow64 (x >>> (8 * (nSize x.toNat - 3))))) =
      UInt32.ofNat (mantissa x.toNat) := by
  have hlt := mantissa_lt x.toNat
  unfold mantissa base_uint.GetLow64 at *
  split_ifs with h
  · have hx : x.toNat < 2 ^ 64 := lt_of_lt_of_le (lt_pow_nSize x.toNat)
      (by rw [pow256]; exact Nat.pow_le_pow_right (by norm_num) (by omega))
    rw [Nat.mod_eq_of_lt hx, Nat.shiftLeft_eq, pow256]
  · rw [if_neg h] at hlt
    rw [BitVec.toNat_ushiftRight, Nat.shiftRight_eq_div_pow, ← pow256,
      Nat.mod_eq_of_lt (by omega)]

/-- **`GetCompact` packs `encode`**: the mantissa in the low 23 bits, the size above them. -/
theorem GetCompact_toNat (x : arith_uint256) :
    (GetCompact x).toNat = (encode x.toNat).1 + (encode x.toNat).2 * 2 ^ 24 := by
  have hn : (base_uint.bits x + 7) / 8 = nSize x.toNat := rfl
  have hsize : (encode x.toNat).2 < 256 := by
    have := nSize_le x.isLt
    have := encode_snd_le x.toNat
    omega
  simp only [GetCompact, hn, GetCompact_mantissa, normalize_ofNat _ (mantissa_lt x.toNat),
    Bool.false_and, Bool.false_eq_true, if_false, UInt32.or_zero]
  exact toNat_pack (lt_trans (encode_fst_lt x.toNat) (by norm_num)) hsize

/-- The target `SetCompact` returns is the decoded mantissa and size, cut to 256 bits. -/
theorem SetCompact_value (c : UInt32) :
    (SetCompact c).1.toNat = decode (c.toNat % 2 ^ 23) (c.toNat / 2 ^ 24) % 2 ^ 256 := by
  have hm : c.toNat % 2 ^ 23 < 2 ^ 256 := lt_trans (Nat.mod_lt _ (by norm_num)) (by norm_num)
  simp only [SetCompact, size_toNat, word_toNat]
  unfold decode
  split_ifs with h3
  · rw [BitVec.toNat_ofNat, Nat.shiftRight_eq_div_pow, pow256]
  · rw [BitVec.toNat_shiftLeft, BitVec.toNat_ofNat, Nat.mod_eq_of_lt hm, Nat.shiftLeft_eq, pow256]

/-- `fNegative` is the sign bit of a compact whose decoded value is not zero. -/
theorem SetCompact_fNegative (c : UInt32) :
    (SetCompact c).2.1 =
      (decode (c.toNat % 2 ^ 23) (c.toNat / 2 ^ 24) != 0 && c.toNat.testBit 23) := by
  simp only [SetCompact, size_toNat, word_toNat, signBit_eq]
  unfold decode
  split_ifs with h3
  · rw [Nat.shiftRight_eq_div_pow, pow256]
  · congr 1
    rw [Bool.eq_iff_iff]
    simp

/-- **`fOverflow` is set exactly when the decoded value does not fit in 256 bits.** The three
tests of the source are this comparison at sizes 33, 34 and above. -/
theorem SetCompact_fOverflow (c : UInt32) :
    (SetCompact c).2.2 = decide (2 ^ 256 ≤ decode (c.toNat % 2 ^ 23) (c.toNat / 2 ^ 24)) := by
  have hm : c.toNat % 2 ^ 23 < 2 ^ 23 := Nat.mod_lt _ (by norm_num)
  simp only [SetCompact, size_toNat, word_toNat]
  generalize c.toNat % 2 ^ 23 = m at *
  generalize c.toNat / 2 ^ 24 = n
  rw [Bool.eq_iff_iff]
  simp only [Bool.and_eq_true, Bool.or_eq_true, bne_iff_ne, ne_eq, decide_eq_true_eq]
  unfold decode
  by_cases h3 : n ≤ 3
  · have hd : m >>> (8 * (3 - n)) < 2 ^ 256 :=
      lt_of_le_of_lt (Nat.shiftRight_le _ _) (by omega)
    have hd' : m / 256 ^ (3 - n) < 2 ^ 256 := lt_of_le_of_lt (Nat.div_le_self _ _) (by omega)
    simp only [h3, if_true]
    omega
  simp only [h3, if_false]
  rcases (show n ≤ 32 ∨ n = 33 ∨ n = 34 ∨ 35 ≤ n by omega) with h | rfl | rfl | h
  · have hpow : 256 ^ (n - 3) ≤ 256 ^ 29 := Nat.pow_le_pow_right (by norm_num) (by omega)
    have hd : m * 256 ^ (n - 3) < 2 ^ 256 :=
      calc m * 256 ^ (n - 3) ≤ m * 256 ^ 29 := Nat.mul_le_mul_left _ hpow
        _ < 2 ^ 256 := by omega
    omega
  · norm_num
    omega
  · norm_num
    omega
  · have hpow : 256 ^ 32 ≤ 256 ^ (n - 3) := Nat.pow_le_pow_right (by norm_num) (by omega)
    rcases Nat.eq_zero_or_pos m with rfl | hm0
    · simp
    have hd : 2 ^ 256 ≤ m * 256 ^ (n - 3) :=
      calc 2 ^ 256 = 1 * 256 ^ 32 := by norm_num
        _ ≤ m * 256 ^ (n - 3) := Nat.mul_le_mul hm0 hpow
    omega

/-- `SetCompact` of a word `GetCompact` wrote is the rounded target, neither negative nor
overflowing. -/
theorem SetCompact_GetCompact (x : arith_uint256) :
    SetCompact (GetCompact x) = (BitVec.ofNat 256 (round x.toNat), false, false) := by
  have hc := GetCompact_toNat x
  have hm := encode_fst_lt x.toNat
  have hr : round x.toNat < 2 ^ 256 := lt_of_le_of_lt (round_le _) x.isLt
  have hd : decode ((GetCompact x).toNat % 2 ^ 23) ((GetCompact x).toNat / 2 ^ 24) =
      round x.toNat := by
    rw [hc, pack_mod _ hm, pack_div _ hm, decode_encode]
  refine Prod.ext ?_ (Prod.ext ?_ ?_)
  · apply BitVec.eq_of_toNat_eq
    rw [SetCompact_value, hd, BitVec.toNat_ofNat]
  · rw [SetCompact_fNegative, hc, testBit_pack _ hm, Bool.and_false]
  · rw [SetCompact_fOverflow, hd, decide_eq_false (Nat.not_le.2 hr)]

/-- `GetCompact` writes every word with the sign bit clear. -/
theorem GetCompact_signBit (x : arith_uint256) : GetCompact x &&& 0x00800000 = 0 := by
  have h := signBit_eq (GetCompact x)
  rw [GetCompact_toNat, testBit_pack _ (encode_fst_lt x.toNat)] at h
  simpa using h

/-- Re-encoding a decoded word that `GetCompact` wrote gives the same word. -/
theorem GetCompact_SetCompact_GetCompact (x : arith_uint256) :
    GetCompact (SetCompact (GetCompact x)).1 = GetCompact x := by
  have hr : round x.toNat < 2 ^ 256 := lt_of_le_of_lt (round_le _) x.isLt
  apply UInt32.toNat_inj.1
  rw [SetCompact_GetCompact, GetCompact_toNat, GetCompact_toNat, BitVec.toNat_ofNat,
    Nat.mod_eq_of_lt hr, encode_round]

end arith_uint256

namespace CBigNum

/-- `CBigNum::SetCompact` is the decoded mantissa and size, negated under the sign bit, with no
bound on its size. -/
theorem SetCompact_eq (c : UInt32) :
    SetCompact c =
      if c.toNat.testBit 23 then -((decode (c.toNat % 2 ^ 23) (c.toNat / 2 ^ 24) : Nat) : Int)
      else (decode (c.toNat % 2 ^ 23) (c.toNat / 2 ^ 24) : Nat) := by
  simp only [SetCompact, size_toNat, word_toNat, signBit_eq]
  unfold decode
  split_ifs <;> simp [Nat.shiftRight_eq_div_pow, Nat.shiftLeft_eq, pow256]

theorem natAbs_SetCompact (c : UInt32) :
    (SetCompact c).natAbs = decode (c.toNat % 2 ^ 23) (c.toNat / 2 ^ 24) := by
  rw [SetCompact_eq]
  split_ifs <;> simp

/-- The mantissa `CBigNum::GetCompact` reads from the magnitude, as `arith_uint256`'s does. -/
theorem GetCompact_mantissa (x : CBigNum) :
    (if nSize x.natAbs ≤ 3 then UInt32.ofNat (x.natAbs <<< (8 * (3 - nSize x.natAbs)))
      else UInt32.ofNat (x.natAbs >>> (8 * (nSize x.natAbs - 3)))) =
      UInt32.ofNat (mantissa x.natAbs) := by
  unfold mantissa
  split_ifs
  · rw [Nat.shiftLeft_eq, pow256]
  · rw [Nat.shiftRight_eq_div_pow, pow256]

/-- On a non-negative number whose size fits the size byte, `CBigNum::GetCompact` packs
`encode` of it. -/
theorem GetCompact_toNat {x : CBigNum} (hx : 0 ≤ x) (hn : nSize x.natAbs < 255) :
    (GetCompact x).toNat = (encode x.natAbs).1 + (encode x.natAbs).2 * 2 ^ 24 := by
  have hsize : (encode x.natAbs).2 < 256 := by
    have := encode_snd_le x.natAbs
    omega
  have hs : (numBytes x) = nSize x.natAbs := rfl
  simp only [GetCompact, hs, GetCompact_mantissa, normalize_ofNat _ (mantissa_lt x.natAbs),
    Int.not_lt.2 hx, if_false, UInt32.or_zero]
  exact toNat_pack (lt_trans (encode_fst_lt x.natAbs) (by norm_num)) hsize

end CBigNum

/-- The compact form of a 256-bit target: `SetCompact` reads back what `GetCompact` writes,
rounded to the bytes it keeps, with no flag raised; `GetCompact` is stable on what it produces;
and the signed, unbounded `CBigNum` codec agrees with `arith_uint256`'s wherever the latter's
256 bits hold the value. -/
theorem GetCompact_SetCompact_agree :
    (∀ x : arith_uint256,
        arith_uint256.GetCompact x &&& 0x00800000 = 0 ∧
        arith_uint256.SetCompact (arith_uint256.GetCompact x) =
          (BitVec.ofNat 256 (round x.toNat), false, false)) ∧
    (∀ x : arith_uint256,
        arith_uint256.GetCompact (arith_uint256.SetCompact (arith_uint256.GetCompact x)).1 =
          arith_uint256.GetCompact x) ∧
    (∀ x : CBigNum, 0 ≤ x → x < 2 ^ 256 →
        CBigNum.GetCompact x = arith_uint256.GetCompact (BitVec.ofNat 256 x.toNat)) ∧
    (∀ c : UInt32, (CBigNum.SetCompact c).natAbs < 2 ^ 256 →
        (arith_uint256.SetCompact c).2.2 = false ∧
        CBigNum.SetCompact c =
          if (arith_uint256.SetCompact c).2.1 then -((arith_uint256.SetCompact c).1.toNat : Int)
          else (arith_uint256.SetCompact c).1.toNat) := by
  refine ⟨fun x => ⟨arith_uint256.GetCompact_signBit x, arith_uint256.SetCompact_GetCompact x⟩,
    arith_uint256.GetCompact_SetCompact_GetCompact, ?_, ?_⟩
  · intro x hx hlt
    have h1 : (x.toNat : Int) = x := Int.toNat_of_nonneg hx
    have h2 : (x.natAbs : Int) = x := Int.natAbs_of_nonneg hx
    have hnat : x.natAbs = x.toNat := by omega
    have hlt' : x.toNat < 2 ^ 256 := (Int.toNat_lt hx).2 (by simpa using hlt)
    apply UInt32.toNat_inj.1
    rw [CBigNum.GetCompact_toNat hx (by have := nSize_le (hnat ▸ hlt'); omega),
      arith_uint256.GetCompact_toNat, BitVec.toNat_ofNat, Nat.mod_eq_of_lt hlt', hnat]
  · intro c hc
    rw [CBigNum.natAbs_SetCompact] at hc
    refine ⟨by rw [arith_uint256.SetCompact_fOverflow, decide_eq_false (Nat.not_le.2 hc)], ?_⟩
    rw [CBigNum.SetCompact_eq, arith_uint256.SetCompact_fNegative, arith_uint256.SetCompact_value,
      Nat.mod_eq_of_lt hc]
    generalize decode (c.toNat % 2 ^ 23) (c.toNat / 2 ^ 24) = d
    by_cases hd : d = 0
    · simp [hd]
    · simp [hd]

theorem GetCompact_SetCompact_agree_word :
    (0 : CBigNum) ≤ 0xffff ∧ (0xffff : CBigNum) < 2 ^ 256 ∧
      CBigNum.GetCompact 0xffff = arith_uint256.GetCompact (BitVec.ofNat 256 0xffff) :=
  ⟨by norm_num, by norm_num, GetCompact_SetCompact_agree.2.2.1 0xffff (by norm_num) (by norm_num)⟩

end NowpConsensus
