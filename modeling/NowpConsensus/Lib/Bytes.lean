import Mathlib.Tactic
import Mathlib.Data.Nat.Bitwise
import Mathlib.Data.Nat.Digits.Lemmas

/-!
# Byte encodings

The pieces a serialiser in the style of Bitcoin's `serialize.h` writes with: unsigned words of a
fixed width, least significant byte first; the variable-length `CompactSize` prefix; and a
vector, written as its length followed by its elements.

* `Bytes.leBytes_length`: a `w`-byte word is `w` bytes;
* `Bytes.readLE_leBytes`: reading the bytes back gives the word modulo `256 ^ w`;
* `Bytes.leBytes_inj`: two words below `256 ^ w` with the same bytes are equal.
-/

namespace Bytes

/-- The `w` low bytes of `n`, least significant first. -/
def leBytes : Nat → Nat → List UInt8
  | 0, _ => []
  | w + 1, n => UInt8.ofNat n :: leBytes w (n / 256)

/-- The number whose bytes, least significant first, are the given ones. -/
def readLE : List UInt8 → Nat
  | [] => 0
  | b :: bs => b.toNat + 256 * readLE bs

@[simp]
theorem leBytes_length (w n : Nat) : (leBytes w n).length = w := by
  induction w generalizing n with
  | zero => rfl
  | succ w ih => simp [leBytes, ih]

theorem readLE_leBytes (w n : Nat) : readLE (leBytes w n) = n % 256 ^ w := by
  induction w generalizing n with
  | zero => simp [leBytes, readLE, Nat.mod_one]
  | succ w ih =>
    simp only [leBytes, readLE, ih]
    rw [Nat.pow_succ, Nat.mul_comm _ 256, Nat.mod_mul]
    simp

/-- Words below `256 ^ w` are written differently when they differ. -/
theorem leBytes_inj {w n m : Nat} (hn : n < 256 ^ w) (hm : m < 256 ^ w)
    (h : leBytes w n = leBytes w m) : n = m := by
  have := congrArg readLE h
  rwa [readLE_leBytes, readLE_leBytes, Nat.mod_eq_of_lt hn, Nat.mod_eq_of_lt hm] at this

theorem readLE_append (l l' : List UInt8) :
    readLE (l ++ l') = readLE l + 256 ^ l.length * readLE l' := by
  induction l with
  | nil => simp [readLE]
  | cons b bs ih =>
    simp only [List.cons_append, readLE, ih, List.length_cons, Nat.pow_succ]
    ring

/-- A byte appended last weighs `256 ^ length`. -/
theorem readLE_concat (l : List UInt8) (b : UInt8) :
    readLE (l ++ [b]) = readLE l + 256 ^ l.length * b.toNat := by
  rw [readLE_append]
  simp [readLE]

theorem readLE_lt (l : List UInt8) : readLE l < 256 ^ l.length := by
  induction l with
  | nil => simp [readLE]
  | cons b bs ih =>
    have hb := b.toNat_lt
    rw [readLE, List.length_cons, Nat.pow_succ]
    omega

/-- Bytes read as a number and written back in as many bytes are the same bytes. -/
theorem leBytes_readLE (l : List UInt8) : leBytes l.length (readLE l) = l := by
  induction l with
  | nil => rfl
  | cons b bs ih =>
    have hb := b.toNat_lt
    rw [List.length_cons, leBytes, readLE, Nat.add_mul_div_left _ _ (by decide),
      Nat.div_eq_of_lt hb, Nat.zero_add, ih]
    congr 1
    apply UInt8.toNat_inj.mp
    rw [UInt8.toNat_ofNat', Nat.add_mul_mod_self_left, Nat.mod_eq_of_lt hb]

/-- The first `k` bytes hold the number modulo `256 ^ k`. -/
theorem readLE_take (l : List UInt8) (k : Nat) : readLE (l.take k) = readLE l % 256 ^ k := by
  induction l generalizing k with
  | nil => simp [readLE]
  | cons b bs ih =>
    cases k with
    | zero => simp [readLE, Nat.mod_one]
    | succ k =>
      have hb := b.toNat_lt
      simp only [List.take_succ_cons, readLE, ih, Nat.pow_succ, Nat.mul_comm _ 256, Nat.mod_mul]
      rw [Nat.add_mul_mod_self_left, Nat.add_mul_div_left _ _ (by decide),
        Nat.mod_eq_of_lt hb, Nat.div_eq_of_lt hb, Nat.zero_add]

/-! ## Minimal byte strings -/

/-- The bytes of `n` without leading zeros, least significant first: its digits in base `256`. -/
def minBytes (n : Nat) : List UInt8 := (Nat.digits 256 n).map UInt8.ofNat

theorem readLE_eq_ofDigits (l : List UInt8) :
    readLE l = Nat.ofDigits 256 (l.map UInt8.toNat) := by
  induction l with
  | nil => rfl
  | cons b bs ih => simp [readLE, Nat.ofDigits_cons, ih]

theorem map_toNat_minBytes (n : Nat) : (minBytes n).map UInt8.toNat = Nat.digits 256 n := by
  rw [minBytes, List.map_map]
  conv_rhs => rw [← List.map_id (Nat.digits 256 n)]
  refine List.map_congr_left fun d hd => ?_
  exact UInt8.toNat_ofNat_of_lt (Nat.digits_lt_base (by decide) hd)

@[simp]
theorem readLE_minBytes (n : Nat) : readLE (minBytes n) = n := by
  rw [readLE_eq_ofDigits, map_toNat_minBytes, Nat.ofDigits_digits]

theorem minBytes_eq_nil_iff {n : Nat} : minBytes n = [] ↔ n = 0 := by
  simp [minBytes, Nat.digits_eq_nil_iff_eq_zero]

theorem minBytes_of_ne_zero {n : Nat} (hn : n ≠ 0) :
    minBytes n = UInt8.ofNat n :: minBytes (n / 256) := by
  rw [minBytes, Nat.digits_def' (by decide) (Nat.pos_of_ne_zero hn), List.map_cons]
  congr 1
  exact UInt8.toNat_inj.mp (by simp [UInt8.toNat_ofNat'])

theorem length_minBytes_le_iff {n k : Nat} : (minBytes n).length ≤ k ↔ n < 256 ^ k := by
  rw [minBytes, List.length_map]
  exact Nat.digits_length_le_iff (by decide) n

/-- The most significant byte of a number is not zero. -/
theorem getLast?_minBytes (n : Nat) : (minBytes n).getLast? ≠ some 0 := by
  intro h
  have hd := congrArg (Option.map UInt8.toNat) h
  rw [← List.getLast?_map, map_toNat_minBytes, Option.map_some, UInt8.toNat_zero] at hd
  have hne : Nat.digits 256 n ≠ [] := fun h' => by rw [h'] at hd; cases hd
  have hn : n ≠ 0 := fun hn => hne (by rw [hn, Nat.digits_zero])
  rw [List.getLast?_eq_some_getLast hne] at hd
  exact Nat.getLast_digit_ne_zero 256 hn (Option.some.inj hd)

/-- Bytes whose most significant one is not zero are the minimal bytes of what they denote. -/
theorem minBytes_readLE {l : List UInt8} (h : l.getLast? ≠ some 0) : minBytes (readLE l) = l := by
  apply List.map_injective_iff.mpr fun a b hab => UInt8.toNat_inj.mp hab
  rw [map_toNat_minBytes, readLE_eq_ofDigits]
  refine Nat.digits_ofDigits 256 (by decide) _ (fun d hd => ?_) (fun hne => ?_)
  · obtain ⟨b, -, rfl⟩ := List.mem_map.mp hd
    exact b.toNat_lt
  · rw [List.getLast_map]
    intro h0
    apply h
    rw [List.getLast?_eq_some_getLast (by simpa using hne)]
    exact congrArg some (UInt8.toNat_inj.mp (by simpa using h0))

/-! ## The top bit of a byte -/

theorem toNat_and_0x7f (b : UInt8) : (b &&& 0x7f).toNat = b.toNat % 128 := by
  rw [UInt8.toNat_and]
  exact Nat.and_two_pow_sub_one_eq_mod b.toNat 7

/-- The top bit of a byte is clear exactly below `128`. -/
theorem and_0x80_eq_zero_iff (b : UInt8) : b &&& 0x80 = 0 ↔ b.toNat < 128 := by
  have hlt := b.toNat_lt
  have h : (b &&& 0x80).toNat = (b.toNat.testBit 7).toNat * 128 := by
    rw [UInt8.toNat_and]
    exact Nat.and_two_pow b.toNat 7
  rw [← UInt8.toNat_inj, h, Nat.testBit_eq_decide_div_mod_eq]
  rcases Nat.lt_or_ge b.toNat 128 with h7 | h7
  · simp [show b.toNat / 128 % 2 = 0 by omega, h7]
  · simp [show b.toNat / 128 % 2 = 1 by omega, Nat.not_lt.mpr h7]

theorem toNat_or_0x80 {b : UInt8} (h : b.toNat < 128) : (b ||| 0x80).toNat = b.toNat + 128 := by
  rw [UInt8.toNat_or]
  exact Nat.or_two_pow_eq_add_of_lt (n := 7) h

/-- A byte is negative read as a signed byte exactly when its top bit is set. -/
theorem toInt8_lt_zero_iff (b : UInt8) : b.toInt8 < 0 ↔ b &&& 0x80 ≠ 0 := by
  rw [Int8.lt_iff_toInt_lt, ← Int8.toInt_toBitVec, UInt8.toBitVec_toInt8,
    BitVec.toInt_eq_toNat_cond, Ne, and_0x80_eq_zero_iff]
  have := b.toNat_lt
  simp only [UInt8.toNat_toBitVec]
  split_ifs <;> simp <;> omega

/-- Setting and then reading the top bit of a byte below `128`. -/
theorem or_0x80_of_lt {b : UInt8} (h : b.toNat < 128) :
    (b ||| 0x80) &&& 0x80 ≠ 0 ∧ (b ||| 0x80) &&& 0x7f = b := by
  have hor := toNat_or_0x80 h
  refine ⟨fun h0 => ?_, UInt8.toNat_inj.mp ?_⟩
  · have := (and_0x80_eq_zero_iff _).mp h0
    omega
  · rw [toNat_and_0x7f, hor]
    omega

theorem and_0x7f_of_lt {b : UInt8} (h : b.toNat < 128) : b &&& 0x7f = b :=
  UInt8.toNat_inj.mp (by rw [toNat_and_0x7f, Nat.mod_eq_of_lt h])

/-- `WriteCompactSize`: one byte below 253, else a marker and two, four or eight bytes. -/
def compactSize (n : Nat) : List UInt8 :=
  if n < 253 then [UInt8.ofNat n]
  else if n ≤ 0xffff then 253 :: leBytes 2 n
  else if n ≤ 0xffffffff then 254 :: leBytes 4 n
  else 255 :: leBytes 8 n

/-- A vector: its length, then each element as `f` writes it. -/
def vector {α : Type} (f : α → List UInt8) (l : List α) : List UInt8 :=
  compactSize l.length ++ l.flatMap f

end Bytes
