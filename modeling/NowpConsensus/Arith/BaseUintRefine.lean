import NowpConsensus.Arith.BaseUint

/-!
# `base_uint` is arithmetic modulo `2 ^ BITS`

`Pn WIDTH` is the array `uint32_t pn[WIDTH]` of a `base_uint<32 * WIDTH>`, a limb list that
keeps its length. The operators of `arith_uint256.h` are the limb loops of
`NowpConsensus.Arith.BaseUint` on it, and `operator/=` is the shift-and-subtract loop of
`arith_uint256.cpp`, written here with the other operators as the source writes it.

The results say what the operators compute on the numbers the limbs denote (`toNat_add`,
`toNat_div`, ...) and, from that, that the limbs refine the `BitVec` model the rest of the
development uses (`toBase_add`, `toBase_div`, ...). Division is proved by the invariant of
its loop (`DivInvariant`): one turn keeps it (`divTurn_spec`), and the run from the aligned
divisor down to bit zero leaves the quotient (`divLoop_spec`).
-/

namespace NowpConsensus

namespace base_uint

open Limbs

/-- `uint32_t pn[WIDTH]`: the limbs of a `base_uint<32 * WIDTH>`, least significant first. -/
structure Pn (WIDTH : Nat) where
  pn : List UInt32
  length_pn : pn.length = WIDTH

namespace Pn

variable {W : Nat}

/-- The number the limbs denote. -/
def toNat (a : Pn W) : Nat := val a.pn

/-- The `base_uint<32 * WIDTH>` the limbs stand for in the rest of the model. -/
def toBase (a : Pn W) : base_uint (32 * W) := BitVec.ofNat _ a.toNat

/-- `base_uint()`: every limb zero. -/
def zero : Pn W := ⟨List.replicate W 0, List.length_replicate⟩

/-- `operator+=`. -/
def add (a b : Pn W) : Pn W :=
  ⟨addLoop 0 a.pn b.pn, by rw [length_addLoop, a.length_pn, b.length_pn, Nat.min_self]⟩

/-- `operator-()`. -/
def neg (a : Pn W) : Pn W := ⟨negate a.pn, by rw [length_negate, a.length_pn]⟩

/-- `operator-=`: `*this += -b`. -/
def sub (a b : Pn W) : Pn W := add a (neg b)

/-- `operator*=(uint32_t b32)`. -/
def mul32 (a : Pn W) (b32 : UInt32) : Pn W :=
  ⟨mul32Loop b32 0 a.pn, by rw [length_mul32Loop, a.length_pn]⟩

/-- `operator*=(const base_uint& b)`. -/
def mul (a b : Pn W) : Pn W :=
  ⟨base_uint.mul a.pn b.pn, by rw [length_mul _ _ (a.length_pn.trans b.length_pn.symm), a.length_pn]⟩

/-- `operator<<=(unsigned int shift)`. -/
def shiftLeft (a : Pn W) (shift : Nat) : Pn W :=
  ⟨base_uint.shiftLeft a.pn shift, by rw [length_shiftLeft, a.length_pn]⟩

/-- `operator>>=(unsigned int shift)`. -/
def shiftRight (a : Pn W) (shift : Nat) : Pn W :=
  ⟨base_uint.shiftRight a.pn shift, by rw [length_shiftRight, a.length_pn]⟩

/-- `CompareTo`: the loop from `pn[WIDTH - 1]` down. -/
def CompareTo (a b : Pn W) : Int := compareLoop a.pn.reverse b.pn.reverse

/-- `bits()`: the loop from `pn[WIDTH - 1]` down. -/
def bits (a : Pn W) : Nat := bitsLoop a.pn.reverse

/-- `pn[shift / 32] |= (1U << (shift & 31))`: the quotient bit of `operator/=`. -/
def setBit (q : Pn W) (shift : Nat) : Pn W :=
  ⟨q.pn.modify (shift / 32) (· ||| 1 <<< UInt32.ofNat (shift &&& 31)),
    by rw [List.length_modify, q.length_pn]⟩

/-- One turn of the loop of `operator/=` at bit `shift`: if `num >= div`, then `num -= div` and
the quotient bit is set. -/
def divTurn (shift : Nat) (num div q : Pn W) : Pn W × Pn W :=
  if 0 ≤ CompareTo num div then (sub num div, setBit q shift) else (num, q)

/-- The loop of `operator/=` from bit `shift` down to bit zero, `div >>= 1` after each turn;
it returns the quotient. -/
def divLoop : Nat → Pn W → Pn W → Pn W → Pn W
  | 0, num, div, q => (divTurn 0 num div q).2
  | shift + 1, num, div, q =>
    let t := divTurn (shift + 1) num div q
    divLoop shift t.1 (shiftRight div 1) t.2

/-- `operator/=`: a zero divisor throws `uint_error`; a divisor longer than the dividend gives
zero; otherwise the divisor is aligned with the dividend's top bit and the loop runs. -/
def div (a b : Pn W) : Except Abort (Pn W) :=
  let num_bits := bits a
  let div_bits := bits b
  if div_bits = 0 then .error (.exception "Division by zero")
  else if div_bits > num_bits then .ok zero
  else
    let shift := num_bits - div_bits
    .ok (divLoop shift a (shiftLeft b shift) zero)

/-- `arith_uint512(const arith_uint256& b)`: a zeroed `arith_uint512` with the low limbs copied
from `b`. -/
def ofArith256 (a : Pn 8) : Pn 16 :=
  ⟨a.pn ++ List.replicate 8 0, by rw [List.length_append, a.length_pn, List.length_replicate]⟩

/-- `arith_uint512::trim256`: the first 32 bytes of `pn`, its low eight limbs. -/
def trim256 (a : Pn 16) : Pn 8 :=
  ⟨a.pn.take 8, by rw [List.length_take, a.length_pn]; rfl⟩

/-! ## The operators on the numbers the limbs denote -/

theorem toNat_lt (a : Pn W) : a.toNat < 2 ^ (32 * W) := by
  have h := val_lt a.pn
  rwa [a.length_pn] at h

@[simp]
theorem toNat_zero : (zero : Pn W).toNat = 0 := val_replicate_zero W

theorem toNat_add (a b : Pn W) : (add a b).toNat = (a.toNat + b.toNat) % 2 ^ (32 * W) := by
  rw [add, toNat, val_addLoop 0 _ _ (by simp) (a.length_pn.trans b.length_pn.symm), a.length_pn]
  rfl

theorem toNat_neg (a : Pn W) : (neg a).toNat = (2 ^ (32 * W) - a.toNat) % 2 ^ (32 * W) := by
  rw [neg, toNat, val_negate, a.length_pn]
  rfl

theorem toNat_sub (a b : Pn W) :
    (sub a b).toNat = (a.toNat + (2 ^ (32 * W) - b.toNat)) % 2 ^ (32 * W) := by
  rw [sub, toNat_add, toNat_neg, Nat.add_mod_mod]

/-- Without a borrow out of the top limb, `operator-=` is subtraction. -/
theorem toNat_sub_of_le {a b : Pn W} (h : b.toNat ≤ a.toNat) :
    (sub a b).toNat = a.toNat - b.toNat := by
  have ha := toNat_lt a
  rw [toNat_sub, show a.toNat + (2 ^ (32 * W) - b.toNat) = a.toNat - b.toNat + 2 ^ (32 * W) by
    omega, Nat.add_mod_right, Nat.mod_eq_of_lt (by omega)]

theorem toNat_mul32 (a : Pn W) (b32 : UInt32) :
    (mul32 a b32).toNat = b32.toNat * a.toNat % 2 ^ (32 * W) := by
  rw [mul32, toNat, val_mul32Loop _ _ _ (by simp), a.length_pn]
  rfl

theorem toNat_mul (a b : Pn W) : (mul a b).toNat = a.toNat * b.toNat % 2 ^ (32 * W) := by
  rw [mul, toNat, val_mul _ _ (a.length_pn.trans b.length_pn.symm), a.length_pn]
  rfl

theorem toNat_shiftLeft (a : Pn W) (shift : Nat) :
    (shiftLeft a shift).toNat = a.toNat * 2 ^ shift % 2 ^ (32 * W) := by
  rw [shiftLeft, toNat, val_shiftLeft, a.length_pn]
  rfl

theorem toNat_shiftRight (a : Pn W) (shift : Nat) :
    (shiftRight a shift).toNat = a.toNat / 2 ^ shift := val_shiftRight a.pn shift

theorem CompareTo_eq (a b : Pn W) : CompareTo a b = ((a.toNat : Int) - b.toNat).sign := by
  rw [CompareTo, compareLoop_eq _ _ (by rw [List.length_reverse, List.length_reverse,
    a.length_pn, b.length_pn]), List.reverse_reverse, List.reverse_reverse]
  rfl

/-- `num >= div` in `operator/=` is the order of the numbers. -/
theorem CompareTo_nonneg_iff {a b : Pn W} : 0 ≤ CompareTo a b ↔ b.toNat ≤ a.toNat := by
  rw [CompareTo_eq, Int.sign_nonneg_iff]
  omega

theorem bits_eq (a : Pn W) : bits a = numBits a.toNat := by
  rw [bits, bitsLoop_eq, List.reverse_reverse]
  rfl

/-- The quotient bit of `operator/=` is ORed into the number. -/
theorem toNat_setBit (q : Pn W) {s : Nat} (hs : s < 32 * W) :
    (setBit q s).toNat = q.toNat ||| 2 ^ s := by
  have hand : s &&& 31 = s % 32 := Nat.and_two_pow_sub_one_eq_mod s 5
  have hlen : (setBit q s).pn.length = W := (setBit q s).length_pn
  have hlt : q.toNat ||| 2 ^ s < 2 ^ (32 * (setBit q s).pn.length) := by
    rw [hlen]
    exact Nat.or_lt_two_pow (toNat_lt q) (Nat.pow_lt_pow_right (by norm_num) hs)
  apply val_eq_of_testBit hlt
  intro m hm r hr
  rw [hlen] at hm
  rw [setBit, getD_modify_or, UInt32.toNat_or, Nat.testBit_or, testBit_ite_limb, hand,
    toNat_one_shiftLeft (Nat.mod_lt _ (by norm_num)), Nat.testBit_two_pow, Nat.testBit_or,
    toNat, testBit_val _ hr, Nat.testBit_two_pow, q.length_pn, ← Bool.decide_and]
  congr 1
  exact decide_eq_decide.2 (by omega)

/-- Below the lowest quotient bit found so far, setting bit `s` adds `2 ^ s`. -/
theorem toNat_setBit_of_dvd {q : Pn W} {s : Nat} (hs : s < 32 * W) (hq : 2 ^ (s + 1) ∣ q.toNat) :
    (setBit q s).toNat = q.toNat + 2 ^ s := by
  obtain ⟨j, hj⟩ := hq
  rw [toNat_setBit q hs, hj, Nat.two_pow_add_eq_or_of_lt (Nat.pow_lt_pow_right (by norm_num)
    (Nat.lt_succ_self s))]

/-! ## Division -/

/-- What holds before the turn at bit `s` when `operator/=` divides `N` by `B`: `div` is `B`
aligned at bit `s`, the quotient bits found so far lie above `s` and account for `N` with the
remainder `num`, and `num` is below twice `div`. -/
def DivInvariant (N B s : Nat) (num div q : Pn W) : Prop :=
  div.toNat = B * 2 ^ s ∧ num.toNat + q.toNat * B = N ∧ num.toNat < B * 2 ^ (s + 1) ∧
    2 ^ (s + 1) ∣ q.toNat

/-- One turn of `operator/=` decides quotient bit `s`: afterwards the remainder is below the
aligned divisor and the quotient bits lie at or above `s`. -/
theorem divTurn_spec {N B s : Nat} {num div q : Pn W} (hs : s < 32 * W)
    (h : DivInvariant N B s num div q) :
    (divTurn s num div q).1.toNat + (divTurn s num div q).2.toNat * B = N ∧
      (divTurn s num div q).1.toNat < B * 2 ^ s ∧ 2 ^ s ∣ (divTurn s num div q).2.toNat := by
  obtain ⟨hdiv, hN, hlt, hq⟩ := h
  have hq' : 2 ^ s ∣ q.toNat := Nat.dvd_trans (Nat.pow_dvd_pow 2 (Nat.le_succ s)) hq
  rw [Nat.pow_succ, ← Nat.mul_assoc] at hlt
  unfold divTurn
  by_cases hge : div.toNat ≤ num.toNat
  · rw [if_pos (CompareTo_nonneg_iff.2 hge)]
    rw [toNat_sub_of_le hge, toNat_setBit_of_dvd hs hq, hdiv]
    rw [hdiv] at hge
    refine ⟨?_, by omega, (Nat.dvd_add_self_right).2 hq'⟩
    rw [Nat.add_mul, Nat.mul_comm (2 ^ s) B]
    omega
  · rw [if_neg (mt CompareTo_nonneg_iff.1 hge)]
    exact ⟨hN, show num.toNat < B * 2 ^ s by omega, hq'⟩

/-- **The loop of `operator/=` leaves the quotient**: from any state that satisfies the
invariant at bit `s`, the turns down to bit zero return `N / B`. -/
theorem divLoop_spec {N B : Nat} (hB : 0 < B) : ∀ (s : Nat) (num div q : Pn W),
    s < 32 * W → DivInvariant N B s num div q → (divLoop s num div q).toNat = N / B
  | 0, num, div, q, hs, h => by
    obtain ⟨hN, hlt, -⟩ := divTurn_spec hs h
    rw [Nat.pow_zero, Nat.mul_one] at hlt
    rw [divLoop]
    refine (Nat.div_eq_of_lt_le (by omega) ?_).symm
    rw [Nat.succ_mul]
    omega
  | s + 1, num, div, q, hs, h => by
    obtain ⟨hN, hlt, hq⟩ := divTurn_spec hs h
    have hdiv : (shiftRight div 1).toNat = B * 2 ^ s := by
      rw [toNat_shiftRight, h.1, Nat.pow_succ, ← Nat.mul_assoc, Nat.pow_one,
        Nat.mul_div_cancel _ (by norm_num)]
    exact divLoop_spec hB s _ _ _ (by omega) ⟨hdiv, hN, hlt, hq⟩

/-- **`operator/=` is the floor of division**, and throws exactly for a zero divisor. -/
theorem toNat_div (a b : Pn W) :
    toNat <$> div a b =
      if b.toNat = 0 then .error (.exception "Division by zero") else .ok (a.toNat / b.toNat) := by
  have ha := toNat_lt a
  unfold div
  rw [bits_eq, bits_eq]
  by_cases hb : b.toNat = 0
  · rw [if_pos (by rw [hb]; rfl), if_pos hb]
    rfl
  · have hdb : 1 ≤ numBits b.toNat := by
      unfold numBits
      rw [if_neg hb]
      omega
    have hb2 := Compact.two_pow_numBits_le hb
    have hna : numBits a.toNat ≤ 32 * W := numBits_le_iff.2 ha
    have ha2 : a.toNat < 2 ^ numBits a.toNat := numBits_le_iff.1 le_rfl
    rw [if_neg (by omega), if_neg hb]
    by_cases hgt : numBits b.toNat > numBits a.toNat
    · rw [if_pos hgt]
      show Except.ok (zero : Pn W).toNat = _
      rw [toNat_zero, Nat.div_eq_of_lt (lt_of_lt_of_le ha2 (le_trans
        (Nat.pow_le_pow_right (by norm_num) (by omega)) hb2))]
    · rw [if_neg hgt]
      show Except.ok (divLoop _ a _ zero).toNat = _
      congr 1
      set s := numBits a.toNat - numBits b.toNat
      have hbs : b.toNat * 2 ^ s < 2 ^ (32 * W) := calc
        b.toNat * 2 ^ s < 2 ^ numBits b.toNat * 2 ^ s :=
          Nat.mul_lt_mul_of_pos_right (numBits_le_iff.1 le_rfl) (by positivity)
        _ = 2 ^ numBits a.toNat := by rw [← Nat.pow_add]; congr 1; omega
        _ ≤ 2 ^ (32 * W) := Nat.pow_le_pow_right (by norm_num) hna
      have hnum : a.toNat < b.toNat * 2 ^ (s + 1) := calc
        a.toNat < 2 ^ numBits a.toNat := ha2
        _ = 2 ^ (numBits b.toNat - 1) * 2 ^ (s + 1) := by rw [← Nat.pow_add]; congr 1; omega
        _ ≤ b.toNat * 2 ^ (s + 1) := Nat.mul_le_mul_right _ hb2
      refine divLoop_spec (Nat.pos_of_ne_zero hb) s _ _ _ (by omega) ⟨?_, ?_, hnum, ?_⟩
      · rw [toNat_shiftLeft, Nat.mod_eq_of_lt hbs]
      · rw [toNat_zero, Nat.zero_mul, Nat.add_zero]
      · rw [toNat_zero]
        exact Nat.dvd_zero _

/-! ## Signed views of subtraction and negation -/

theorem natCast_toNat_sub (a b : Pn W) :
    ((sub a b).toNat : Int) = ((a.toNat : Int) - b.toNat) % 2 ^ (32 * W) := by
  have hb := toNat_lt b
  rw [toNat_sub]
  push_cast [Nat.cast_sub hb.le]
  rw [show (a.toNat : Int) + (2 ^ (32 * W) - b.toNat) = a.toNat - b.toNat + 2 ^ (32 * W) by ring,
    Int.add_emod_right]

theorem natCast_toNat_neg (a : Pn W) :
    ((neg a).toNat : Int) = (-(a.toNat : Int)) % 2 ^ (32 * W) := by
  have ha := toNat_lt a
  rw [toNat_neg]
  push_cast [Nat.cast_sub ha.le]
  rw [show (2 : Int) ^ (32 * W) - a.toNat = -a.toNat + 2 ^ (32 * W) by ring, Int.add_emod_right]

/-! ## The limbs refine the `BitVec` model -/

theorem toNat_toBase (a : Pn W) : a.toBase.toNat = a.toNat := by
  rw [toBase, BitVec.toNat_ofNat, Nat.mod_eq_of_lt (toNat_lt a)]

theorem toBase_add (a b : Pn W) : (add a b).toBase = a.toBase + b.toBase := by
  apply BitVec.eq_of_toNat_eq
  rw [toNat_toBase, BitVec.toNat_add, toNat_toBase, toNat_toBase, toNat_add]

theorem toBase_neg (a : Pn W) : (neg a).toBase = -a.toBase := by
  apply BitVec.eq_of_toNat_eq
  rw [toNat_toBase, BitVec.toNat_neg, toNat_toBase, toNat_neg]

theorem toBase_sub (a b : Pn W) : (sub a b).toBase = a.toBase - b.toBase := by
  apply BitVec.eq_of_toNat_eq
  rw [toNat_toBase, BitVec.toNat_sub, toNat_toBase, toNat_toBase, toNat_sub, Nat.add_comm]

theorem toBase_mul32 (a : Pn W) (b32 : UInt32) :
    (mul32 a b32).toBase = a.toBase * BitVec.ofNat _ b32.toNat := by
  apply BitVec.eq_of_toNat_eq
  rw [toNat_toBase, BitVec.toNat_mul, toNat_toBase, BitVec.toNat_ofNat, toNat_mul32,
    Nat.mul_mod_mod, Nat.mul_comm]

theorem toBase_mul (a b : Pn W) : (mul a b).toBase = a.toBase * b.toBase := by
  apply BitVec.eq_of_toNat_eq
  rw [toNat_toBase, BitVec.toNat_mul, toNat_toBase, toNat_toBase, toNat_mul]

theorem toBase_shiftLeft (a : Pn W) (shift : Nat) :
    (shiftLeft a shift).toBase = a.toBase <<< shift := by
  apply BitVec.eq_of_toNat_eq
  rw [toNat_toBase, BitVec.toNat_shiftLeft, toNat_toBase, toNat_shiftLeft, Nat.shiftLeft_eq]

theorem toBase_shiftRight (a : Pn W) (shift : Nat) :
    (shiftRight a shift).toBase = a.toBase >>> shift := by
  apply BitVec.eq_of_toNat_eq
  rw [toNat_toBase, BitVec.toNat_ushiftRight, toNat_toBase, toNat_shiftRight,
    Nat.shiftRight_eq_div_pow]

theorem bits_toBase (a : Pn W) : bits a = base_uint.bits a.toBase := by
  rw [bits_eq, base_uint.bits, toNat_toBase]

/-- `operator/=` on the limbs is `base_uint.div`, throw included. -/
theorem toBase_div (a b : Pn W) : toBase <$> div a b = base_uint.div a.toBase b.toBase := by
  have hmap : toBase <$> div a b = BitVec.ofNat (32 * W) <$> (toNat <$> div a b) :=
    (comp_map toNat (BitVec.ofNat (32 * W)) (div a b))
  rw [hmap, toNat_div, base_uint.div, base_uint.bits, toNat_toBase]
  by_cases hb : b.toNat = 0
  · rw [if_pos hb, if_pos (by rw [hb]; rfl)]
    rfl
  · have hdb : numBits b.toNat ≠ 0 := by
      unfold numBits
      rw [if_neg hb]
      omega
    rw [if_neg hb, if_neg hdb]
    show Except.ok _ = Except.ok _
    congr 1
    apply BitVec.eq_of_toNat_eq
    rw [BitVec.toNat_ofNat, BitVec.toNat_udiv, toNat_toBase, toNat_toBase,
      Nat.mod_eq_of_lt (lt_of_le_of_lt (Nat.div_le_self _ _) (toNat_lt a))]

/-- `CompareTo` is the order of `BitVec`. -/
theorem CompareTo_toBase (a b : Pn W) :
    CompareTo a b = if a.toBase < b.toBase then -1 else if a.toBase = b.toBase then 0 else 1 := by
  have hlt_iff : a.toBase < b.toBase ↔ a.toNat < b.toNat := by
    rw [BitVec.lt_def, toNat_toBase, toNat_toBase]
  have heq_iff : a.toBase = b.toBase ↔ a.toNat = b.toNat := by
    rw [← BitVec.toNat_inj, toNat_toBase, toNat_toBase]
  rw [CompareTo_eq]
  by_cases hlt : a.toNat < b.toNat
  · rw [if_pos (hlt_iff.2 hlt), Int.sign_eq_neg_one_of_neg (by omega)]
  · by_cases heq : a.toNat = b.toNat
    · rw [if_neg (mt hlt_iff.1 hlt), if_pos (heq_iff.2 heq), heq, sub_self, Int.sign_zero]
    · rw [if_neg (mt hlt_iff.1 hlt), if_neg (mt heq_iff.1 heq),
        Int.sign_eq_one_of_pos (by omega)]

theorem toNat_ofArith256 (a : Pn 8) : (ofArith256 a).toNat = a.toNat := by
  rw [ofArith256, toNat, val_append, val_replicate_zero, Nat.mul_zero, Nat.add_zero]
  rfl

theorem toNat_trim256 (a : Pn 16) : (trim256 a).toNat = a.toNat % 2 ^ 256 := by
  rw [trim256, toNat, val_take]
  rfl

theorem toBase_ofArith256 (a : Pn 8) :
    (ofArith256 a).toBase = arith_uint512.ofArith256 a.toBase := by
  apply BitVec.eq_of_toNat_eq
  rw [toNat_toBase, arith_uint512.ofArith256, BitVec.toNat_setWidth, toNat_toBase,
    toNat_ofArith256, Nat.mod_eq_of_lt (lt_of_lt_of_le (toNat_lt a)
      (Nat.pow_le_pow_right (by norm_num) (by norm_num)))]

theorem toBase_trim256 (a : Pn 16) :
    (trim256 a).toBase = arith_uint512.trim256 a.toBase := by
  apply BitVec.eq_of_toNat_eq
  rw [toNat_toBase, arith_uint512.trim256, BitVec.toNat_setWidth, toNat_toBase, toNat_trim256]

/-- **`base_uint<32 * WIDTH>` is unsigned arithmetic modulo `2 ^ (32 * WIDTH)`**, for every
width (`arith_uint256` is `WIDTH = 8`, `arith_uint512` is `WIDTH = 16`) and all operands: the
ring operations and shifts wrap, division rounds down and throws only for zero, `CompareTo` and
`bits()` read the number, and the 256/512-bit conversions embed and truncate. -/
theorem operators_arith_mod (W : Nat) (a b : Pn W) (b32 : UInt32) (shift : Nat) (x : Pn 8)
    (y : Pn 16) :
    (add a b).toNat = (a.toNat + b.toNat) % 2 ^ (32 * W) ∧
    ((sub a b).toNat : Int) = ((a.toNat : Int) - b.toNat) % 2 ^ (32 * W) ∧
    ((neg a).toNat : Int) = (-(a.toNat : Int)) % 2 ^ (32 * W) ∧
    (mul a b).toNat = a.toNat * b.toNat % 2 ^ (32 * W) ∧
    (mul32 a b32).toNat = a.toNat * b32.toNat % 2 ^ (32 * W) ∧
    (shiftLeft a shift).toNat = a.toNat * 2 ^ shift % 2 ^ (32 * W) ∧
    (shiftRight a shift).toNat = a.toNat / 2 ^ shift ∧
    toNat <$> div a b =
      (if b.toNat = 0 then .error (.exception "Division by zero") else .ok (a.toNat / b.toNat)) ∧
    CompareTo a b = ((a.toNat : Int) - b.toNat).sign ∧
    bits a = numBits a.toNat ∧
    (ofArith256 x).toNat = x.toNat ∧
    (trim256 y).toNat = y.toNat % 2 ^ 256 :=
  ⟨toNat_add a b, natCast_toNat_sub a b, natCast_toNat_neg a, toNat_mul a b,
    by rw [toNat_mul32, Nat.mul_comm], toNat_shiftLeft a shift, toNat_shiftRight a shift,
    toNat_div a b, CompareTo_eq a b, bits_eq a, toNat_ofArith256 x, toNat_trim256 y⟩

end Pn

end base_uint

end NowpConsensus
