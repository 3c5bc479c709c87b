import Mathlib.Tactic

/-!
# Offset numerals

A numeral in base `b` in which every digit but the least significant stands for one more than
its value: the digits `d₀, d₁, …, dₖ`, least significant first, stand for
`d₀ + b (d₁ + 1) + b² (d₂ + 1) + … + bᵏ (dₖ + 1)`. Where the plain numeral allows leading
zeros, here a longer numeral always stands for a larger number, and every number has exactly one
numeral.

A reader that takes the digits most significant first keeps `carry` of what it has read: each
digit it reads is appended to the accumulator and counts one more, and the last digit counts
as it is (`value`).

* `OffsetNumeral.value_digits`: the digits of `n` stand for `n`;
* `OffsetNumeral.digits_value`: a non-empty list of digits below `b` is the numeral of the number
  it stands for;
* `OffsetNumeral.length_digits_le`: a number below `b ^ k` has at most `k` digits.
-/

namespace OffsetNumeral

variable (b : Nat)

/-- The digits of `n`, least significant first. -/
def digits [NeZero b] (n : Nat) : List Nat :=
  if n < b then [n] else n % b :: digits (n / b - 1)
termination_by n
decreasing_by
  have : 0 < b := Nat.pos_of_neZero b
  have : n / b ≤ n := Nat.div_le_self n b
  omega

/-- What the digits stand for when each counts one more than its value: the accumulator of a
reader that has read them, most significant first. -/
def carry : List Nat → Nat
  | [] => 0
  | d :: l => carry l * b + d + 1

/-- What the digits stand for, least significant first: the least significant digit as it is,
the others one more. -/
def value : List Nat → Nat
  | [] => 0
  | d :: l => carry b l * b + d

theorem carry_eq_value_add_one {l : List Nat} (hl : l ≠ []) : carry b l = value b l + 1 := by
  cases l with
  | nil => exact absurd rfl hl
  | cons d l => simp [carry, value]

variable [NeZero b]

theorem digits_ne_nil (n : Nat) : digits b n ≠ [] := by
  rw [digits]
  split <;> simp

theorem digits_lt {n d : Nat} (hd : d ∈ digits b n) : d < b := by
  have hb : 0 < b := Nat.pos_of_neZero b
  fun_induction digits b n with
  | case1 n hn =>
    rw [List.mem_singleton] at hd
    omega
  | case2 n hn ih =>
    rcases List.mem_cons.mp hd with rfl | hd
    · exact Nat.mod_lt _ hb
    · exact ih hd

theorem value_digits (n : Nat) : value b (digits b n) = n := by
  have hb : 0 < b := Nat.pos_of_neZero b
  fun_induction digits b n with
  | case1 n hn => simp [value, carry]
  | case2 n hn ih =>
    have hq : 1 ≤ n / b := (Nat.le_div_iff_mul_le hb).2 (by omega)
    rw [value, carry_eq_value_add_one b (digits_ne_nil b _), ih, Nat.sub_add_cancel hq]
    exact Nat.div_add_mod' n b

/-- Every non-empty numeral of digits below `b` is the numeral of what it stands for: the
numeral of a number is unique. -/
theorem digits_value {l : List Nat} (hl : l ≠ []) (hd : ∀ d ∈ l, d < b) :
    digits b (value b l) = l := by
  induction l with
  | nil => exact absurd rfl hl
  | cons d l ih =>
    have hdb : d < b := hd d List.mem_cons_self
    cases l with
    | nil =>
      rw [digits]
      simp [value, carry, hdb]
    | cons d' l' =>
      have hc := carry_eq_value_add_one b (List.cons_ne_nil d' l')
      have hmod : (carry b (d' :: l') * b + d) % b = d := by
        rw [Nat.mul_comm, Nat.mul_add_mod, Nat.mod_eq_of_lt hdb]
      have hdiv : (carry b (d' :: l') * b + d) / b = carry b (d' :: l') := by
        rw [Nat.mul_comm, Nat.mul_add_div (Nat.pos_of_neZero b), Nat.div_eq_of_lt hdb,
          Nat.add_zero]
      have hge : ¬ carry b (d' :: l') * b + d < b := by
        have : b ≤ carry b (d' :: l') * b := Nat.le_mul_of_pos_left b (by omega)
        omega
      rw [value, digits, if_neg hge, hmod, hdiv, hc, Nat.add_sub_cancel,
        ih (List.cons_ne_nil d' l') fun x hx => hd x (List.mem_cons_of_mem d hx)]

/-- A number below `b ^ k` has at most `k` digits, for `k` at least one. -/
theorem length_digits_le {n k : Nat} (h : n < b ^ k) (hk : 0 < k) : (digits b n).length ≤ k := by
  have hb : 0 < b := Nat.pos_of_neZero b
  fun_induction digits b n generalizing k with
  | case1 n hn =>
    rw [List.length_singleton]
    exact hk
  | case2 n hn ih =>
    obtain ⟨k, rfl⟩ : ∃ k', k = k' + 1 := ⟨k - 1, by omega⟩
    have hk' : 0 < k := by
      rcases Nat.eq_zero_or_pos k with rfl | hk'
      · rw [Nat.zero_add, Nat.pow_one] at h
        exact absurd h hn
      · exact hk'
    have hq : n / b < b ^ k := by
      rw [Nat.div_lt_iff_lt_mul hb, ← Nat.pow_succ]
      exact h
    have := ih (k := k) (Nat.lt_of_le_of_lt (Nat.sub_le _ _) hq) hk'
    simp only [List.length_cons]
    omega

end OffsetNumeral
