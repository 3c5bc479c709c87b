import Mathlib.Data.Nat.Bitwise
import Mathlib.Tactic.Ring
import Mathlib.Tactic.NormNum

/-!
# Little-endian limbs

A number stored as 32-bit limbs, least significant first, as fixed-width multi-precision
integers keep it. `Limbs.val` is the number a limb list denotes; the lemmas here are the facts
the carry loops, word shifts and comparisons of such an implementation need:

* `val_append`, `val_take`, `val_drop`: a prefix is the value modulo a power of the base and a
  suffix the value divided by it;
* `mod_carry`: the identity one step of a carry loop rests on;
* `testBit_val` and `val_eq_of_testBit`: a bit of the value is a bit of one limb, and a list is
  determined by the bits of its limbs;
* `val_map_not`: the limb-wise complement is the complement of the value;
* `val_reverse_cons` and `add_mul_lt_add_mul`: read from the most significant limb down, the
  first limb that differs decides a comparison.
-/

namespace Limbs

/-- The number the limbs denote, the first limb least significant. -/
def val : List UInt32 → Nat
  | [] => 0
  | x :: xs => x.toNat + 2 ^ 32 * val xs

@[simp]
theorem val_nil : val [] = 0 := rfl

@[simp]
theorem val_cons (x : UInt32) (xs : List UInt32) : val (x :: xs) = x.toNat + 2 ^ 32 * val xs :=
  rfl

theorem pow_succ_limb (n : Nat) : 2 ^ (32 * (n + 1)) = 2 ^ 32 * 2 ^ (32 * n) := by
  rw [Nat.mul_succ, Nat.pow_add, Nat.mul_comm]

theorem val_append (xs ys : List UInt32) :
    val (xs ++ ys) = val xs + 2 ^ (32 * xs.length) * val ys := by
  induction xs with
  | nil => simp
  | cons x xs ih =>
    rw [List.cons_append, val_cons, val_cons, ih, List.length_cons, pow_succ_limb]
    ring

theorem val_lt (xs : List UInt32) : val xs < 2 ^ (32 * xs.length) := by
  induction xs with
  | nil => simp
  | cons x xs ih =>
    have hx := x.toNat_lt
    rw [val_cons, List.length_cons, pow_succ_limb]
    calc x.toNat + 2 ^ 32 * val xs < 2 ^ 32 + 2 ^ 32 * val xs := by omega
      _ = 2 ^ 32 * (val xs + 1) := by ring
      _ ≤ 2 ^ 32 * 2 ^ (32 * xs.length) := Nat.mul_le_mul_left _ ih

@[simp]
theorem val_replicate_zero (n : Nat) : val (List.replicate n 0) = 0 := by
  induction n with
  | zero => rfl
  | succ n ih => simp [List.replicate_succ, ih]

/-- One step of a carry loop: the low limb of `n` plus the rest, reduced modulo one more limb. -/
theorem mod_carry (n S M : Nat) :
    (n + 2 ^ 32 * S) % (2 ^ 32 * M) = n % 2 ^ 32 + 2 ^ 32 * ((n / 2 ^ 32 + S) % M) := by
  have hdiv : (n + 2 ^ 32 * S) / 2 ^ 32 = n / 2 ^ 32 + S := by
    rw [Nat.add_mul_div_left _ _ (by norm_num)]
  rw [Nat.mod_mul, Nat.add_mul_mod_self_left, hdiv]

theorem val_take (xs : List UInt32) (k : Nat) : val (xs.take k) = val xs % 2 ^ (32 * k) := by
  induction xs generalizing k with
  | nil => simp
  | cons x xs ih =>
    cases k with
    | zero => simp [Nat.mod_one]
    | succ k =>
      have hx := x.toNat_lt
      rw [List.take_succ_cons, val_cons, val_cons, ih, pow_succ_limb, mod_carry,
        Nat.mod_eq_of_lt hx, Nat.div_eq_of_lt hx, Nat.zero_add]

theorem val_drop (xs : List UInt32) (k : Nat) : val (xs.drop k) = val xs / 2 ^ (32 * k) := by
  induction xs generalizing k with
  | nil => simp
  | cons x xs ih =>
    cases k with
    | zero => simp
    | succ k =>
      have hx := x.toNat_lt
      rw [List.drop_succ_cons, ih, val_cons, pow_succ_limb, ← Nat.div_div_eq_div_mul,
        Nat.add_mul_div_left _ _ (by norm_num), Nat.div_eq_of_lt hx, Nat.zero_add]

/-- Bit `r` of limb `i` is bit `32 i + r` of the value. -/
theorem testBit_val (xs : List UInt32) {r : Nat} (hr : r < 32) (i : Nat) :
    (val xs).testBit (32 * i + r) = (xs.getD i 0).toNat.testBit r := by
  induction xs generalizing i with
  | nil => simp
  | cons x xs ih =>
    rw [val_cons, Nat.add_comm, Nat.testBit_two_pow_mul_add _ x.toNat_lt]
    cases i with
    | zero => simp [hr]
    | succ i =>
      rw [if_neg (by omega), show 32 * (i + 1) + r - 32 = 32 * i + r by omega, ih,
        List.getD_cons_succ]

/-- A limb list is determined by the bits of its limbs: if they are the bits of a number that
fits, the list denotes that number. -/
theorem val_eq_of_testBit {xs : List UInt32} {N : Nat} (hN : N < 2 ^ (32 * xs.length))
    (h : ∀ i < xs.length, ∀ r < 32, (xs.getD i 0).toNat.testBit r = N.testBit (32 * i + r)) :
    val xs = N := by
  apply Nat.eq_of_testBit_eq
  intro p
  by_cases hp : p < 32 * xs.length
  · have hsplit : p = 32 * (p / 32) + p % 32 := (Nat.div_add_mod p 32).symm
    rw [hsplit, testBit_val xs (Nat.mod_lt _ (by norm_num)),
      h _ (by omega) _ (Nat.mod_lt _ (by norm_num))]
  · have hle : 2 ^ (32 * xs.length) ≤ 2 ^ p := Nat.pow_le_pow_right (by norm_num) (by omega)
    rw [Nat.testBit_eq_false_of_lt (lt_of_lt_of_le (val_lt xs) hle),
      Nat.testBit_eq_false_of_lt (lt_of_lt_of_le hN hle)]

/-- The limb-wise complement denotes the complement of the value. -/
theorem val_map_not (xs : List UInt32) :
    val (xs.map (~~~ ·)) = 2 ^ (32 * xs.length) - 1 - val xs := by
  induction xs with
  | nil => simp
  | cons x xs ih =>
    have hx := x.toNat_lt
    have hlt := val_lt xs
    rw [List.map_cons, val_cons, val_cons, ih, UInt32.toNat_not, List.length_cons,
      pow_succ_limb]
    have hprod : 2 ^ 32 * (2 ^ (32 * xs.length) - 1 - val xs) =
        2 ^ 32 * 2 ^ (32 * xs.length) - 2 ^ 32 - 2 ^ 32 * val xs := by
      rw [Nat.mul_sub, Nat.mul_sub, Nat.mul_one]
    have hle : 2 ^ 32 * (val xs + 1) ≤ 2 ^ 32 * 2 ^ (32 * xs.length) :=
      Nat.mul_le_mul_left _ hlt
    rw [hprod, show UInt32.size = 2 ^ 32 from rfl]
    rw [Nat.mul_add, Nat.mul_one] at hle
    omega

/-- The limbs read from the most significant down: the head is the top limb. -/
theorem val_reverse_cons (x : UInt32) (xs : List UInt32) :
    val (x :: xs).reverse = val xs.reverse + 2 ^ (32 * xs.length) * x.toNat := by
  rw [List.reverse_cons, val_append, List.length_reverse, val_cons, val_nil, Nat.mul_zero,
    Nat.add_zero]

/-- A smaller top limb makes the smaller number, whatever the limbs below. -/
theorem add_mul_lt_add_mul {M x p q : Nat} (y : Nat) (hx : x < M) (hpq : p < q) :
    x + M * p < y + M * q :=
  calc x + M * p < M + M * p := by omega
    _ = M * (p + 1) := by ring
    _ ≤ M * q := Nat.mul_le_mul_left _ hpq
    _ ≤ y + M * q := Nat.le_add_left _ _

end Limbs
