import NowpConsensus.Arith.Compact
import NowpConsensus.Lib.Limbs

/-!
# `base_uint` on its limbs

`arith_uint256.cpp` and `arith_uint256.h` implement `base_uint<BITS>` on an array
`uint32_t pn[WIDTH]`, `WIDTH = BITS / 32`, least significant limb first. The rest of the model
uses `BitVec BITS` for it; this module models the limb loops themselves and proves that they
compute arithmetic modulo `2 ^ BITS`, so that the `BitVec` operations stand for them.

The loops are written on the list of limbs: a loop that reads and writes limb `i` at turn `i`
walks the list, and a loop that writes other limbs (`operator<<=`, `operator>>=`) is a fold over
the turns with `List.modify` for `|=`. Carries are `uint64_t` values (`UInt64`).
-/

namespace NowpConsensus

namespace base_uint

open Limbs

/-! ## The loops -/

/-- The low word `n & 0xffffffff` written back to a limb. -/
def lowWord (n : UInt64) : UInt32 := (n &&& 0xffffffff).toUInt32

/-- The loop of `operator+=`: `n = carry + pn[i] + b.pn[i]`, the low word kept, `n >> 32`
carried. -/
def addLoop : UInt64 → List UInt32 → List UInt32 → List UInt32
  | carry, p :: ps, q :: qs =>
    let n := carry + p.toUInt64 + q.toUInt64
    lowWord n :: addLoop (n >>> 32) ps qs
  | _, _, _ => []

/-- `operator~`. -/
def complement (a : List UInt32) : List UInt32 := a.map (~~~ ·)

/-- The prefix `operator++`: `while (i < WIDTH && ++pn[i] == 0) i++;`. -/
def increment : List UInt32 → List UInt32
  | [] => []
  | p :: ps => if p + 1 = 0 then (p + 1) :: increment ps else (p + 1) :: ps

/-- `operator-`: the complement, incremented. -/
def negate (a : List UInt32) : List UInt32 := increment (complement a)

/-- The loop of `operator*=(uint32_t b32)`: `n = carry + (uint64_t)b32 * pn[i]`. -/
def mul32Loop (b32 : UInt32) : UInt64 → List UInt32 → List UInt32
  | carry, p :: ps =>
    let n := carry + b32.toUInt64 * p.toUInt64
    lowWord n :: mul32Loop b32 (n >>> 32) ps
  | _, [] => []

/-- The inner loop of `operator*=(const base_uint& b)` for one limb `x = pn[j]`, over
`a.pn[i + j]` (the list `a` starts at `j`) and `b.pn[i]` while `i + j < WIDTH`:
`n = carry + a.pn[i + j] + (uint64_t)pn[j] * b.pn[i]`. -/
def mulRow (x : UInt32) : UInt64 → List UInt32 → List UInt32 → List UInt32
  | carry, a :: as, b :: bs =>
    let n := carry + a.toUInt64 + x.toUInt64 * b.toUInt64
    lowWord n :: mulRow x (n >>> 32) as bs
  | _, _, _ => []

/-- The outer loop of `operator*=(const base_uint& b)`, from row `j`, over the limbs `pn[j..]`
still to multiply and the accumulator `a`. -/
def mulLoop (b : List UInt32) : Nat → List UInt32 → List UInt32 → List UInt32
  | _, [], a => a
  | j, x :: xs, a => mulLoop b (j + 1) xs (a.take j ++ mulRow x 0 (a.drop j) b)

/-- `operator*=(const base_uint& b)`: the rows over a zero accumulator. -/
def mul (a b : List UInt32) : List UInt32 := mulLoop b 0 a (List.replicate a.length 0)

/-- Turn `i` of the loop of `operator<<=(unsigned int shift)`, with `k = shift / 32` and the
bit offset `s = shift % 32`: the limb `a.pn[i]` is ORed, shifted left, into `pn[i + k]` and,
when the offset is not zero, its high bits into `pn[i + k + 1]`. -/
def shiftLeftStep (a : List UInt32) (k s : Nat) (pn : List UInt32) (i : Nat) : List UInt32 :=
  let pn := if i + k + 1 < a.length ∧ s ≠ 0 then
    pn.modify (i + k + 1) (· ||| a.getD i 0 >>> UInt32.ofNat (32 - s)) else pn
  if i + k < a.length then pn.modify (i + k) (· ||| a.getD i 0 <<< UInt32.ofNat s) else pn

/-- `operator<<=(unsigned int shift)`: the turns over a zeroed `pn`. -/
def shiftLeft (a : List UInt32) (shift : Nat) : List UInt32 :=
  (List.range a.length).foldl (shiftLeftStep a (shift / 32) (shift % 32))
    (List.replicate a.length 0)

/-- Turn `i` of the loop of `operator>>=(unsigned int shift)`: the limb `a.pn[i]` is ORed,
shifted right, into `pn[i - k]` and, when the offset is not zero, its low bits into
`pn[i - k - 1]`, where those exist. -/
def shiftRightStep (a : List UInt32) (k s : Nat) (pn : List UInt32) (i : Nat) : List UInt32 :=
  let pn := if k + 1 ≤ i ∧ s ≠ 0 then
    pn.modify (i - k - 1) (· ||| a.getD i 0 <<< UInt32.ofNat (32 - s)) else pn
  if k ≤ i then pn.modify (i - k) (· ||| a.getD i 0 >>> UInt32.ofNat s) else pn

/-- `operator>>=(unsigned int shift)`: the turns over a zeroed `pn`. -/
def shiftRight (a : List UInt32) (shift : Nat) : List UInt32 :=
  (List.range a.length).foldl (shiftRightStep a (shift / 32) (shift % 32))
    (List.replicate a.length 0)

/-- The loop of `CompareTo`, on the limbs from the most significant down: the first limb that
differs decides. -/
def compareLoop : List UInt32 → List UInt32 → Int
  | p :: ps, q :: qs => if p < q then -1 else if p > q then 1 else compareLoop ps qs
  | _, _ => 0

/-- The inner loop of `bits()` on the top nonzero limb `p`, for `nbits` from `n` down to 1; the
fallthrough counts one bit. -/
def bitsLimb (p : UInt32) : Nat → Nat
  | 0 => 1
  | n + 1 => if p &&& 1 <<< UInt32.ofNat (n + 1) != 0 then n + 2 else bitsLimb p n

/-- The outer loop of `bits()`, on the limbs from the most significant down: the first nonzero
limb, at position `pos = ps.length`, decides. -/
def bitsLoop : List UInt32 → Nat
  | [] => 0
  | p :: ps => if p != 0 then 32 * ps.length + bitsLimb p 31 else bitsLoop ps

/-! ## The carry loops -/

theorem lowWord_toNat (n : UInt64) : (lowWord n).toNat = n.toNat % 2 ^ 32 := by
  rw [lowWord, UInt64.toNat_toUInt32, UInt64.toNat_and,
    show (0xffffffff : UInt64).toNat = 2 ^ 32 - 1 from rfl, Nat.and_two_pow_sub_one_eq_mod,
    Nat.mod_mod]

theorem shiftRight32_toNat (n : UInt64) : (n >>> 32).toNat = n.toNat / 2 ^ 32 := by
  rw [UInt64.toNat_shiftRight, Nat.shiftRight_eq_div_pow]
  rfl

/-- A carry step on the value: the low word written and the high word carried account for the
step's sum `n`. -/
theorem val_step {n : Nat} (S M : Nat) (low high rest : Nat) (hlow : low = n % 2 ^ 32)
    (hrest : rest = (S + high) % M) (hhigh : high = n / 2 ^ 32) :
    low + 2 ^ 32 * rest = (n + 2 ^ 32 * S) % (2 ^ 32 * M) := by
  rw [mod_carry, hlow, hrest, hhigh, Nat.add_comm S]

theorem length_addLoop : ∀ (c : UInt64) (ps qs : List UInt32),
    (addLoop c ps qs).length = min ps.length qs.length
  | _, [], _ => by simp [addLoop]
  | _, _ :: _, [] => by simp [addLoop]
  | c, p :: ps, q :: qs => by
    simp only [addLoop, List.length_cons, length_addLoop _ ps qs]
    omega

/-- **The carry loop of `operator+=` adds modulo the width.** -/
theorem val_addLoop (c : UInt64) (ps qs : List UInt32) (hc : c.toNat ≤ 1)
    (hlen : ps.length = qs.length) :
    val (addLoop c ps qs) = (val ps + val qs + c.toNat) % 2 ^ (32 * ps.length) := by
  induction ps generalizing c qs with
  | nil =>
    obtain rfl : qs = [] := List.eq_nil_of_length_eq_zero hlen.symm
    simp [addLoop, Nat.mod_one]
  | cons p ps ih =>
    obtain ⟨q, qs, rfl⟩ := List.exists_cons_of_length_eq_add_one hlen.symm
    have hp := p.toNat_lt
    have hq := q.toNat_lt
    have hn : (c + p.toUInt64 + q.toUInt64).toNat = c.toNat + p.toNat + q.toNat := by
      rw [UInt64.toNat_add, UInt64.toNat_add, UInt32.toNat_toUInt64, UInt32.toNat_toUInt64,
        Nat.mod_eq_of_lt (by omega : c.toNat + p.toNat < 2 ^ 64), Nat.mod_eq_of_lt (by omega)]
    have hcarry : ((c + p.toUInt64 + q.toUInt64) >>> 32).toNat ≤ 1 := by
      rw [shiftRight32_toNat, hn]
      omega
    simp only [addLoop, val_cons, List.length_cons] at hlen ⊢
    rw [ih _ _ hcarry (by omega), pow_succ_limb,
      show p.toNat + 2 ^ 32 * val ps + (q.toNat + 2 ^ 32 * val qs) + c.toNat =
        (c.toNat + p.toNat + q.toNat) + 2 ^ 32 * (val ps + val qs) by ring]
    exact val_step _ _ _ _ _ (by rw [lowWord_toNat, hn]) rfl (by rw [shiftRight32_toNat, hn])

theorem length_increment : ∀ a : List UInt32, (increment a).length = a.length
  | [] => rfl
  | p :: ps => by
    unfold increment
    split <;> simp [length_increment ps]

/-- **`operator++` adds one modulo the width**: a limb that wraps to zero carries into the
next. -/
theorem val_increment (a : List UInt32) : val (increment a) = (val a + 1) % 2 ^ (32 * a.length) := by
  induction a with
  | nil => simp [increment]
  | cons p ps ih =>
    have hp := p.toNat_lt
    have hvps := val_lt ps
    have hadd : (p + 1).toNat = (p.toNat + 1) % 2 ^ 32 := UInt32.toNat_add p 1
    rw [val_cons, List.length_cons, pow_succ_limb,
      show p.toNat + 2 ^ 32 * val ps + 1 = (p.toNat + 1) + 2 ^ 32 * val ps by ring]
    unfold increment
    split
    · rename_i h
      have hwrap : p.toNat + 1 = 2 ^ 32 := by
        have := congrArg UInt32.toNat h
        rw [hadd] at this
        simp at this
        omega
      rw [val_cons, ih]
      exact val_step _ _ _ _ _ (by rw [hadd]) rfl (by rw [hwrap]; rfl)
    · rename_i h
      have hnowrap : p.toNat + 1 < 2 ^ 32 := by
        by_contra hge
        exact h (UInt32.toNat_inj.1 (by rw [hadd]; simp; omega))
      rw [val_cons]
      exact val_step _ _ _ _ _ (by rw [hadd]) (by rw [Nat.add_zero, Nat.mod_eq_of_lt hvps])
        (by rw [Nat.div_eq_of_lt hnowrap])

/-- **`operator-` negates modulo the width.** -/
theorem val_negate (a : List UInt32) :
    val (negate a) = (2 ^ (32 * a.length) - val a) % 2 ^ (32 * a.length) := by
  have hlt := val_lt a
  rw [negate, val_increment, complement, val_map_not, List.length_map]
  congr 1
  omega

theorem length_negate (a : List UInt32) : (negate a).length = a.length := by
  rw [negate, length_increment, complement, List.length_map]

theorem length_mul32Loop (x : UInt32) : ∀ (c : UInt64) (ps : List UInt32),
    (mul32Loop x c ps).length = ps.length
  | _, [] => rfl
  | c, p :: ps => by simp only [mul32Loop, List.length_cons, length_mul32Loop x _ ps]

/-- A product of two limbs plus two more limbs fits a 64-bit word. -/
theorem mulAdd_lt {x p a c : Nat} (hx : x < 2 ^ 32) (hp : p < 2 ^ 32) (ha : a < 2 ^ 32)
    (hc : c < 2 ^ 32) : c + a + x * p < 2 ^ 64 := by
  have hxp : x * p ≤ (2 ^ 32 - 1) * (2 ^ 32 - 1) := Nat.mul_le_mul (by omega) (by omega)
  norm_num at hxp ⊢
  omega

theorem toNat_mulAdd {x p a : UInt32} {c : UInt64} (hc : c.toNat < 2 ^ 32) :
    (c + a.toUInt64 + x.toUInt64 * p.toUInt64).toNat = c.toNat + a.toNat + x.toNat * p.toNat := by
  have h := mulAdd_lt x.toNat_lt p.toNat_lt a.toNat_lt hc
  rw [UInt64.toNat_add, UInt64.toNat_add, UInt64.toNat_mul, UInt32.toNat_toUInt64,
    UInt32.toNat_toUInt64, UInt32.toNat_toUInt64, Nat.mod_eq_of_lt (by omega : x.toNat * p.toNat < 2 ^ 64),
    Nat.mod_eq_of_lt (by omega : c.toNat + a.toNat < 2 ^ 64), Nat.mod_eq_of_lt h]

/-- **The loop of `operator*=(uint32_t)` multiplies modulo the width.** -/
theorem val_mul32Loop (x : UInt32) (c : UInt64) (ps : List UInt32) (hc : c.toNat < 2 ^ 32) :
    val (mul32Loop x c ps) = (x.toNat * val ps + c.toNat) % 2 ^ (32 * ps.length) := by
  induction ps generalizing c with
  | nil => simp [mul32Loop, Nat.mod_one]
  | cons p ps ih =>
    have hn : (c + x.toUInt64 * p.toUInt64).toNat = c.toNat + x.toNat * p.toNat := by
      simpa using @toNat_mulAdd x p 0 c hc
    have h := mulAdd_lt x.toNat_lt p.toNat_lt (Nat.zero_lt_succ _) hc
    simp only [mul32Loop, val_cons, List.length_cons]
    rw [ih _ (by rw [shiftRight32_toNat, hn]; omega), pow_succ_limb,
      show x.toNat * (p.toNat + 2 ^ 32 * val ps) + c.toNat =
        (c.toNat + x.toNat * p.toNat) + 2 ^ 32 * (x.toNat * val ps) by ring]
    exact val_step _ _ _ _ _ (by rw [lowWord_toNat, hn]) rfl (by rw [shiftRight32_toNat, hn])

theorem length_mulRow (x : UInt32) : ∀ (c : UInt64) (as bs : List UInt32),
    (mulRow x c as bs).length = min as.length bs.length
  | _, [], _ => by simp [mulRow]
  | _, _ :: _, [] => by simp [mulRow]
  | c, a :: as, b :: bs => by
    simp only [mulRow, List.length_cons, length_mulRow x _ as bs]
    omega

/-- **One row of `operator*=(const base_uint&)`** adds `x` times the low limbs of `b` to the
accumulator's suffix, modulo the suffix's width. -/
theorem val_mulRow (x : UInt32) (c : UInt64) (as bs : List UInt32) (hc : c.toNat < 2 ^ 32)
    (hlen : as.length ≤ bs.length) :
    val (mulRow x c as bs) =
      (val as + x.toNat * val (bs.take as.length) + c.toNat) % 2 ^ (32 * as.length) := by
  induction as generalizing c bs with
  | nil => simp [mulRow, Nat.mod_one]
  | cons a as ih =>
    obtain ⟨b, bs, rfl⟩ := List.exists_cons_of_ne_nil (List.ne_nil_of_length_pos
      (lt_of_lt_of_le (Nat.zero_lt_succ _) hlen))
    have hn := @toNat_mulAdd x b a c hc
    have h := mulAdd_lt x.toNat_lt b.toNat_lt a.toNat_lt hc
    simp only [mulRow, val_cons, List.length_cons, List.take_succ_cons] at hlen ⊢
    rw [ih _ _ (by rw [shiftRight32_toNat, hn]; omega) (by omega), pow_succ_limb,
      show a.toNat + 2 ^ 32 * val as + x.toNat * (b.toNat + 2 ^ 32 * val (bs.take as.length)) +
        c.toNat = (c.toNat + a.toNat + x.toNat * b.toNat) +
          2 ^ 32 * (val as + x.toNat * val (bs.take as.length)) by ring]
    exact val_step _ _ _ _ _ (by rw [lowWord_toNat, hn]) rfl (by rw [shiftRight32_toNat, hn])

/-- A row written over the accumulator from limb `j` on adds `x * b`, shifted by `j` limbs,
modulo the width. -/
theorem val_rowUpdate (x : UInt32) {j : Nat} {acc b : List UInt32} (hj : j ≤ acc.length)
    (hb : b.length = acc.length) :
    val (acc.take j ++ mulRow x 0 (acc.drop j) b) =
      (val acc + 2 ^ (32 * j) * x.toNat * val b) % 2 ^ (32 * acc.length) := by
  have hsplit : 2 ^ (32 * acc.length) = 2 ^ (32 * j) * 2 ^ (32 * (acc.length - j)) := by
    rw [← Nat.pow_add]
    congr 1
    omega
  have hP : 0 < 2 ^ (32 * j) := by positivity
  rw [val_append, List.length_take, Nat.min_eq_left hj, val_take,
    val_mulRow x 0 _ _ (by simp) (by simp [hb]), val_drop, List.length_drop, val_take,
    hsplit, Nat.mod_mul, Nat.mul_assoc, Nat.add_mul_mod_self_left, Nat.add_mul_div_left _ _ hP]
  congr 2
  simp only [UInt64.toNat_zero, Nat.add_zero]
  rw [Nat.add_mod, Nat.mul_mod, Nat.mod_mod, ← Nat.mul_mod, ← Nat.add_mod]

theorem length_rowUpdate (x : UInt32) {j : Nat} {acc b : List UInt32} (hj : j ≤ acc.length)
    (hb : b.length = acc.length) :
    (acc.take j ++ mulRow x 0 (acc.drop j) b).length = acc.length := by
  simp only [List.length_append, List.length_take, length_mulRow, List.length_drop, hb]
  omega

/-- **The rows of `operator*=(const base_uint&)` multiply modulo the width**: from row `j`,
the limbs `xs` still to multiply add `xs * b`, shifted by `j` limbs, to the accumulator. -/
theorem val_mulLoop (b : List UInt32) : ∀ (j : Nat) (xs acc : List UInt32),
    acc.length = j + xs.length → b.length = acc.length →
    val (mulLoop b j xs acc) = (val acc + 2 ^ (32 * j) * val xs * val b) % 2 ^ (32 * acc.length) ∧
      (mulLoop b j xs acc).length = acc.length
  | _, [], acc, _, _ => by simp [mulLoop, Nat.mod_eq_of_lt (val_lt acc)]
  | j, x :: xs, acc, hlen, hb => by
    simp only [List.length_cons] at hlen
    have hrow := @length_rowUpdate x j acc b (by omega) hb
    obtain ⟨ih, ihlen⟩ := val_mulLoop b (j + 1) xs _ (by rw [hrow]; omega) (by rw [hrow, hb])
    refine ⟨?_, by rw [mulLoop, ihlen, hrow]⟩
    rw [mulLoop, ih, hrow, val_rowUpdate x (by omega) hb, Nat.mod_add_mod, val_cons, pow_succ_limb]
    congr 1
    ring

theorem val_mul (a b : List UInt32) (hlen : a.length = b.length) :
    val (mul a b) = (val a * val b) % 2 ^ (32 * a.length) := by
  have h := (val_mulLoop b 0 a (List.replicate a.length 0) (by simp) (by simp [hlen])).1
  rw [mul, h, List.length_replicate]
  simp

theorem length_mul (a b : List UInt32) (hlen : a.length = b.length) :
    (mul a b).length = a.length := by
  have h := (val_mulLoop b 0 a (List.replicate a.length 0) (by simp) (by simp [hlen])).2
  rw [mul, h, List.length_replicate]

/-! ## The shifts -/

/-- Limb `m` after an optional `|=` into limb `i`. -/
theorem getD_ite_modify (c : Prop) [Decidable c] (l : List UInt32) (i m : Nat) (x : UInt32) :
    (if c then l.modify i (· ||| x) else l).getD m 0 =
      (l.getD m 0 ||| if c ∧ i = m ∧ m < l.length then x else 0) := by
  by_cases hc : c
  · rw [if_pos hc, List.getD_eq_getElem?_getD, List.getElem?_modify, List.getD_eq_getElem?_getD]
    by_cases hm : m < l.length
    · by_cases hi : i = m <;> simp [hc, hi, hm]
    · simp [hm]
  · simp [hc]

/-- Limb `m` after `|=` into limb `i`. -/
theorem getD_modify_or (l : List UInt32) (i m : Nat) (x : UInt32) :
    (l.modify i (· ||| x)).getD m 0 =
      (l.getD m 0 ||| if i = m ∧ m < l.length then x else 0) := by
  simpa using getD_ite_modify True l i m x

theorem length_ite_modify (c : Prop) [Decidable c] (l : List UInt32) (i : Nat)
    (f : UInt32 → UInt32) : (if c then l.modify i f else l).length = l.length := by
  split <;> simp

/-- After the turns below `t`, limb `m` of `operator<<=` holds the high bits of `a.pn[m - k - 1]`
and the shifted `a.pn[m - k]`, where those turns have run. -/
theorem shiftLeft_fold (a : List UInt32) (k s : Nat) : ∀ t ≤ a.length,
    ((List.range t).foldl (shiftLeftStep a k s) (List.replicate a.length 0)).length = a.length ∧
    ∀ m < a.length,
      ((List.range t).foldl (shiftLeftStep a k s) (List.replicate a.length 0)).getD m 0 =
        ((if k + 1 ≤ m ∧ m < t + k + 1 ∧ s ≠ 0 then
          a.getD (m - k - 1) 0 >>> UInt32.ofNat (32 - s) else 0) |||
        if k ≤ m ∧ m < t + k then a.getD (m - k) 0 <<< UInt32.ofNat s else 0)
  | 0, _ => by
    refine ⟨by simp, fun m hm => ?_⟩
    rw [List.range_zero, List.foldl_nil, List.getD_replicate _ hm, if_neg (by omega),
      if_neg (by omega), UInt32.or_zero]
  | t + 1, ht => by
    obtain ⟨hlen, hget⟩ := shiftLeft_fold a k s t (by omega)
    rw [List.range_succ, List.foldl_append, List.foldl_cons, List.foldl_nil]
    refine ⟨by simp only [shiftLeftStep, length_ite_modify, hlen], fun m hm => ?_⟩
    simp only [shiftLeftStep]
    rw [getD_ite_modify, getD_ite_modify, hget m hm, length_ite_modify, hlen]
    rcases (show m = t + k ∨ m = t + k + 1 ∨ (m ≠ t + k ∧ m ≠ t + k + 1) by omega)
      with h | h | ⟨h1, h2⟩
    · have hX : ¬(k ≤ m ∧ m < t + k) := by omega
      have hA : ¬((t + k + 1 < a.length ∧ s ≠ 0) ∧ t + k + 1 = m ∧ m < a.length) := by omega
      have hB : t + k < a.length ∧ t + k = m ∧ m < a.length := by omega
      have hX' : k ≤ m ∧ m < t + 1 + k := by omega
      rw [if_neg hX, if_neg hA, if_pos hB, if_pos hX', UInt32.or_zero, UInt32.or_zero,
        show m - k = t by omega]
      congr 1
      exact if_congr (by omega) rfl rfl
    · have hY : ¬(k + 1 ≤ m ∧ m < t + k + 1 ∧ s ≠ 0) := by omega
      have hX : ¬(k ≤ m ∧ m < t + k) := by omega
      have hB : ¬(t + k < a.length ∧ t + k = m ∧ m < a.length) := by omega
      have hX' : ¬(k ≤ m ∧ m < t + 1 + k) := by omega
      rw [if_neg hY, if_neg hX, if_neg hB, if_neg hX', UInt32.or_zero, UInt32.or_zero,
        UInt32.or_zero, UInt32.zero_or, show m - k - 1 = t by omega]
      exact if_congr (by omega) rfl rfl
    · have hA : ¬((t + k + 1 < a.length ∧ s ≠ 0) ∧ t + k + 1 = m ∧ m < a.length) := by omega
      have hB : ¬(t + k < a.length ∧ t + k = m ∧ m < a.length) := by omega
      rw [if_neg hA, if_neg hB, UInt32.or_zero, UInt32.or_zero]
      congr 1 <;> exact if_congr (by omega) rfl rfl

/-- After the turns below `t`, limb `m` of `operator>>=` holds the shifted `a.pn[m + k]` and the
low bits of `a.pn[m + k + 1]`, where those turns have run. -/
theorem shiftRight_fold (a : List UInt32) (k s : Nat) : ∀ t ≤ a.length,
    ((List.range t).foldl (shiftRightStep a k s) (List.replicate a.length 0)).length = a.length ∧
    ∀ m < a.length,
      ((List.range t).foldl (shiftRightStep a k s) (List.replicate a.length 0)).getD m 0 =
        ((if m + k < t then a.getD (m + k) 0 >>> UInt32.ofNat s else 0) |||
        if m + k + 1 < t ∧ s ≠ 0 then a.getD (m + k + 1) 0 <<< UInt32.ofNat (32 - s) else 0)
  | 0, _ => by
    refine ⟨by simp, fun m hm => ?_⟩
    rw [List.range_zero, List.foldl_nil, List.getD_replicate _ hm, if_neg (by omega),
      if_neg (by omega), UInt32.or_zero]
  | t + 1, ht => by
    obtain ⟨hlen, hget⟩ := shiftRight_fold a k s t (by omega)
    rw [List.range_succ, List.foldl_append, List.foldl_cons, List.foldl_nil]
    refine ⟨by simp only [shiftRightStep, length_ite_modify, hlen], fun m hm => ?_⟩
    simp only [shiftRightStep]
    rw [getD_ite_modify, getD_ite_modify, hget m hm, length_ite_modify, hlen]
    rcases (show m + k = t ∨ m + k + 1 = t ∨ (m + k ≠ t ∧ m + k + 1 ≠ t) by omega)
      with h | h | ⟨h1, h2⟩
    · have hX : ¬m + k < t := by omega
      have hY : ¬(m + k + 1 < t ∧ s ≠ 0) := by omega
      have hA : ¬((k + 1 ≤ t ∧ s ≠ 0) ∧ t - k - 1 = m ∧ m < a.length) := by omega
      have hB : k ≤ t ∧ t - k = m ∧ m < a.length := by omega
      have hX' : m + k < t + 1 := by omega
      have hY' : ¬(m + k + 1 < t + 1 ∧ s ≠ 0) := by omega
      rw [if_neg hX, if_neg hY, if_neg hA, if_pos hB, if_pos hX', if_neg hY', UInt32.or_zero,
        UInt32.or_zero, UInt32.or_zero, UInt32.zero_or, h]
    · have hY : ¬(m + k + 1 < t ∧ s ≠ 0) := by omega
      have hB : ¬(k ≤ t ∧ t - k = m ∧ m < a.length) := by omega
      have hX : m + k < t := by omega
      have hX' : m + k < t + 1 := by omega
      rw [if_neg hY, if_neg hB, if_pos hX, if_pos hX', UInt32.or_zero, UInt32.or_zero, h]
      congr 1
      exact if_congr (by omega) rfl rfl
    · have hA : ¬((k + 1 ≤ t ∧ s ≠ 0) ∧ t - k - 1 = m ∧ m < a.length) := by omega
      have hB : ¬(k ≤ t ∧ t - k = m ∧ m < a.length) := by omega
      rw [if_neg hA, if_neg hB, UInt32.or_zero, UInt32.or_zero]
      congr 1 <;> exact if_congr (by omega) rfl rfl

theorem length_shiftLeft (a : List UInt32) (shift : Nat) :
    (shiftLeft a shift).length = a.length :=
  (shiftLeft_fold a _ _ a.length le_rfl).1

theorem length_shiftRight (a : List UInt32) (shift : Nat) :
    (shiftRight a shift).length = a.length :=
  (shiftRight_fold a _ _ a.length le_rfl).1

theorem testBit_ite_limb (c : Prop) [Decidable c] (x : UInt32) (r : Nat) :
    (if c then x else 0).toNat.testBit r = (decide c && x.toNat.testBit r) := by
  split <;> simp [*]

theorem testBit_shiftLeft_limb (x : UInt32) {s r : Nat} (hs : s < 32) (hr : r < 32) :
    (x <<< UInt32.ofNat s).toNat.testBit r = (decide (s ≤ r) && x.toNat.testBit (r - s)) := by
  rw [UInt32.toNat_shiftLeft, UInt32.toNat_ofNat', Nat.mod_eq_of_lt (by omega : s < 2 ^ 32),
    Nat.mod_eq_of_lt hs, Nat.testBit_mod_two_pow, Nat.testBit_shiftLeft, decide_eq_true hr,
    Bool.true_and]

theorem testBit_shiftRight_limb (x : UInt32) {s : Nat} (hs : s < 32) (r : Nat) :
    (x >>> UInt32.ofNat s).toNat.testBit r = x.toNat.testBit (s + r) := by
  rw [UInt32.toNat_shiftRight, UInt32.toNat_ofNat', Nat.mod_eq_of_lt (by omega : s < 2 ^ 32),
    Nat.mod_eq_of_lt hs, Nat.testBit_shiftRight]

theorem testBit_limb_eq_false (x : UInt32) {i : Nat} (hi : 32 ≤ i) : x.toNat.testBit i = false :=
  Nat.testBit_lt_two_pow (lt_of_lt_of_le x.toNat_lt (Nat.pow_le_pow_right (by norm_num) hi))

theorem testBit_getD_of_le {a : List UInt32} {i : Nat} (hi : a.length ≤ i) (r : Nat) :
    (a.getD i 0).toNat.testBit r = false := by
  rw [List.getD_eq_default _ _ hi, UInt32.toNat_zero, Nat.zero_testBit]

/-- Bit `r` of limb `m` of `a << (32 k + s)` is bit `32 m + r` of `a * 2 ^ (32 k + s)`. -/
theorem testBit_shiftLeft_getD (a : List UInt32) (k : Nat) {s m r : Nat} (hs : s < 32)
    (hm : m < a.length) (hr : r < 32) :
    ((shiftLeft a (32 * k + s)).getD m 0).toNat.testBit r =
      (val a * 2 ^ (32 * k + s)).testBit (32 * m + r) := by
  rw [shiftLeft, show (32 * k + s) / 32 = k by omega, show (32 * k + s) % 32 = s by omega,
    (shiftLeft_fold a k s a.length le_rfl).2 m hm, UInt32.toNat_or, Nat.testBit_or,
    testBit_ite_limb, testBit_ite_limb, Nat.testBit_mul_two_pow]
  by_cases hsr : s ≤ r
  · have hY : (decide (k + 1 ≤ m ∧ m < a.length + k + 1 ∧ s ≠ 0) &&
        (a.getD (m - k - 1) 0 >>> UInt32.ofNat (32 - s)).toNat.testBit r) = false := by
      by_cases hs0 : s = 0
      · simp [hs0]
      · rw [testBit_shiftRight_limb _ (by omega), testBit_limb_eq_false _ (by omega),
          Bool.and_false]
    rw [hY, Bool.false_or, testBit_shiftLeft_limb _ hs hr, decide_eq_true hsr, Bool.true_and]
    by_cases hkm : k ≤ m
    · have hX : k ≤ m ∧ m < a.length + k := ⟨hkm, by omega⟩
      rw [decide_eq_true hX, decide_eq_true (by omega : 32 * k + s ≤ 32 * m + r),
        show 32 * m + r - (32 * k + s) = 32 * (m - k) + (r - s) by omega,
        testBit_val a (by omega)]
    · rw [decide_eq_false (by omega), decide_eq_false (by omega)]
      rfl
  · rw [testBit_shiftLeft_limb _ hs hr, decide_eq_false hsr, Bool.false_and, Bool.and_false,
      Bool.or_false]
    by_cases hkm : k + 1 ≤ m
    · have hY : k + 1 ≤ m ∧ m < a.length + k + 1 ∧ s ≠ 0 := ⟨hkm, by omega, by omega⟩
      rw [decide_eq_true hY, testBit_shiftRight_limb _ (by omega),
        decide_eq_true (by omega : 32 * k + s ≤ 32 * m + r),
        show 32 * m + r - (32 * k + s) = 32 * (m - k - 1) + (32 - s + r) by omega,
        testBit_val a (by omega)]
    · rw [decide_eq_false (by omega), decide_eq_false (by omega)]
      rfl

/-- **`operator<<=` shifts left modulo the width**, for every shift. -/
theorem val_shiftLeft (a : List UInt32) (shift : Nat) :
    val (shiftLeft a shift) = val a * 2 ^ shift % 2 ^ (32 * a.length) := by
  have hlen := length_shiftLeft a shift
  obtain ⟨k, s, hs, rfl⟩ : ∃ k s, s < 32 ∧ shift = 32 * k + s :=
    ⟨shift / 32, shift % 32, Nat.mod_lt _ (by norm_num), (Nat.div_add_mod shift 32).symm⟩
  apply val_eq_of_testBit (by rw [hlen]; exact Nat.mod_lt _ (by positivity))
  intro m hm r hr
  rw [hlen] at hm
  rw [testBit_shiftLeft_getD a k hs hm hr, Nat.testBit_mod_two_pow,
    decide_eq_true (by omega : 32 * m + r < 32 * a.length), Bool.true_and]

/-- Bit `r` of limb `m` of `a >> (32 k + s)` is bit `32 m + r + 32 k + s` of `a`. -/
theorem testBit_shiftRight_getD (a : List UInt32) (k : Nat) {s m r : Nat} (hs : s < 32)
    (hm : m < a.length) (hr : r < 32) :
    ((shiftRight a (32 * k + s)).getD m 0).toNat.testBit r =
      (val a).testBit (32 * m + r + (32 * k + s)) := by
  rw [shiftRight, show (32 * k + s) / 32 = k by omega, show (32 * k + s) % 32 = s by omega,
    (shiftRight_fold a k s a.length le_rfl).2 m hm, UInt32.toNat_or, Nat.testBit_or,
    testBit_ite_limb, testBit_ite_limb, testBit_shiftRight_limb _ hs]
  by_cases hrs : r + s < 32
  · have hY : (decide (m + k + 1 < a.length ∧ s ≠ 0) &&
        (a.getD (m + k + 1) 0 <<< UInt32.ofNat (32 - s)).toNat.testBit r) = false := by
      by_cases hs0 : s = 0
      · simp [hs0]
      · rw [testBit_shiftLeft_limb _ (by omega) hr, decide_eq_false (show ¬32 - s ≤ r by omega),
          Bool.false_and, Bool.and_false]
    rw [hY, Bool.or_false, show 32 * m + r + (32 * k + s) = 32 * (m + k) + (s + r) by omega,
      testBit_val a (by omega)]
    by_cases hmk : m + k < a.length
    · rw [decide_eq_true hmk, Bool.true_and]
    · rw [decide_eq_false hmk, Bool.false_and, testBit_getD_of_le (by omega)]
  · rw [testBit_limb_eq_false _ (by omega), Bool.and_false, Bool.false_or,
      testBit_shiftLeft_limb _ (by omega) hr, decide_eq_true (by omega : 32 - s ≤ r),
      Bool.true_and, show 32 * m + r + (32 * k + s) = 32 * (m + k + 1) + (r - (32 - s)) by omega,
      testBit_val a (by omega)]
    by_cases hmk : m + k + 1 < a.length
    · have hY : m + k + 1 < a.length ∧ s ≠ 0 := ⟨hmk, by omega⟩
      rw [decide_eq_true hY, Bool.true_and]
    · rw [decide_eq_false (by omega), Bool.false_and, testBit_getD_of_le (by omega)]

/-- **`operator>>=` is the floor of division by a power of two**, for every shift. -/
theorem val_shiftRight (a : List UInt32) (shift : Nat) :
    val (shiftRight a shift) = val a / 2 ^ shift := by
  have hlen := length_shiftRight a shift
  obtain ⟨k, s, hs, rfl⟩ : ∃ k s, s < 32 ∧ shift = 32 * k + s :=
    ⟨shift / 32, shift % 32, Nat.mod_lt _ (by norm_num), (Nat.div_add_mod shift 32).symm⟩
  apply val_eq_of_testBit (by rw [hlen]; exact lt_of_le_of_lt (Nat.div_le_self _ _) (val_lt a))
  intro m hm r hr
  rw [hlen] at hm
  rw [testBit_shiftRight_getD a k hs hm hr, Nat.testBit_div_two_pow]

/-! ## Comparison and bit length -/

/-- **`CompareTo` is the sign of the difference**: on limbs read from the most significant
down, the first that differs decides. -/
theorem compareLoop_eq : ∀ ps qs : List UInt32, ps.length = qs.length →
    compareLoop ps qs = ((val ps.reverse : Int) - val qs.reverse).sign
  | [], [], _ => by simp [compareLoop]
  | [], _ :: _, h => absurd h (by simp)
  | _ :: _, [], h => absurd h (by simp)
  | p :: ps, q :: qs, h => by
    have hlen : ps.length = qs.length := by simpa using h
    have hx := val_lt ps.reverse
    have hy := val_lt qs.reverse
    rw [List.length_reverse] at hx hy
    rw [val_reverse_cons, val_reverse_cons, ← hlen, compareLoop]
    by_cases hlt : p < q
    · have := add_mul_lt_add_mul (val qs.reverse) hx (UInt32.lt_iff_toNat_lt.1 hlt)
      rw [if_pos hlt, Int.sign_eq_neg_one_of_neg (Int.sub_neg_of_lt (by exact_mod_cast this))]
    · by_cases hgt : p > q
      · have := add_mul_lt_add_mul (val ps.reverse) (hlen ▸ hy) (UInt32.lt_iff_toNat_lt.1 hgt)
        rw [if_neg hlt, if_pos hgt,
          Int.sign_eq_one_of_pos (Int.sub_pos_of_lt (by exact_mod_cast this))]
      · have h1 : ¬p.toNat < q.toNat := fun h => hlt (UInt32.lt_iff_toNat_lt.2 h)
        have h2 : ¬q.toNat < p.toNat := fun h => hgt (UInt32.lt_iff_toNat_lt.2 h)
        have hpq : p = q := UInt32.toNat_inj.1 (by omega)
        subst hpq
        rw [if_neg hlt, if_neg hgt, compareLoop_eq ps qs hlen]
        congr 1
        push_cast
        ring

/-- A number with a nonzero part above `2 ^ k` has that part's bit length plus `k`. -/
theorem numBits_add_two_pow_mul {x k p : Nat} (hx : x < 2 ^ k) (hp : p ≠ 0) :
    numBits (x + 2 ^ k * p) = k + numBits p := by
  have h1 := Compact.two_pow_numBits_le hp
  have h2 : p < 2 ^ numBits p := numBits_le_iff.1 le_rfl
  have hpos : 0 < numBits p := by
    unfold numBits
    rw [if_neg hp]
    omega
  apply Compact.numBits_eq_of_le_of_lt (by omega)
  · calc 2 ^ (k + numBits p - 1) = 2 ^ k * 2 ^ (numBits p - 1) := by
          rw [← Nat.pow_add]
          congr 1
          omega
      _ ≤ 2 ^ k * p := Nat.mul_le_mul_left _ h1
      _ ≤ x + 2 ^ k * p := Nat.le_add_left _ _
  · calc x + 2 ^ k * p < 2 ^ k + 2 ^ k * p := by omega
      _ = 2 ^ k * (p + 1) := by ring
      _ ≤ 2 ^ k * 2 ^ numBits p := Nat.mul_le_mul_left _ h2
      _ = 2 ^ (k + numBits p) := by rw [Nat.pow_add]

theorem toNat_one_shiftLeft {i : Nat} (hi : i < 32) :
    ((1 : UInt32) <<< UInt32.ofNat i).toNat = 2 ^ i := by
  rw [UInt32.toNat_shiftLeft, UInt32.toNat_ofNat', Nat.mod_eq_of_lt (by omega : i < 2 ^ 32),
    Nat.mod_eq_of_lt hi, UInt32.toNat_one, Nat.one_shiftLeft,
    Nat.mod_eq_of_lt (Nat.pow_lt_pow_right (by norm_num) hi)]

/-- The inner loop of `bits()` finds the highest set bit at or below `n`, and counts one bit when
there is none. -/
theorem bitsLimb_eq (p : UInt32) : ∀ n, n < 32 →
    bitsLimb p n = max 1 (numBits (p.toNat % 2 ^ (n + 1)))
  | 0, _ => by
    have : numBits (p.toNat % 2 ^ (0 + 1)) ≤ 1 := numBits_le_iff.2 (Nat.mod_lt _ (by norm_num))
    rw [bitsLimb]
    omega
  | n + 1, hn => by
    rw [bitsLimb, Compact.and_ne_zero_eq_testBit _ _ (toNat_one_shiftLeft hn),
      Nat.testBit_eq_decide_div_mod_eq, Nat.mod_pow_succ]
    have hlow : p.toNat % 2 ^ (n + 1) < 2 ^ (n + 1) := Nat.mod_lt _ (by positivity)
    by_cases hb : p.toNat / 2 ^ (n + 1) % 2 = 1
    · rw [if_pos (decide_eq_true hb), hb, numBits_add_two_pow_mul hlow one_ne_zero]
      rfl
    · rw [if_neg (by simpa using hb), show p.toNat / 2 ^ (n + 1) % 2 = 0 by omega, Nat.mul_zero,
        Nat.add_zero, bitsLimb_eq p n (by omega)]

/-- **`bits()` is the bit length**: the first nonzero limb from the top, at position `pos`,
holds the highest set bit. -/
theorem bitsLoop_eq : ∀ ps : List UInt32, bitsLoop ps = numBits (val ps.reverse)
  | [] => by simp [bitsLoop, numBits]
  | p :: ps => by
    have hx := val_lt ps.reverse
    rw [List.length_reverse] at hx
    rw [bitsLoop, val_reverse_cons]
    by_cases hp : p = 0
    · rw [if_neg (by simp [hp]), hp, UInt32.toNat_zero, Nat.mul_zero, Nat.add_zero,
        bitsLoop_eq ps]
    · have hp' : p.toNat ≠ 0 := fun h => hp (UInt32.toNat_inj.1 h)
      have hpos : 1 ≤ numBits p.toNat := by
        unfold numBits
        rw [if_neg hp']
        omega
      rw [if_pos (by simpa using hp), numBits_add_two_pow_mul hx hp', bitsLimb_eq p 31 (by norm_num),
        Nat.mod_eq_of_lt p.toNat_lt, Nat.max_eq_right hpos]

end base_uint

end NowpConsensus
