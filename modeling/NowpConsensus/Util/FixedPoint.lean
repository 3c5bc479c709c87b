import Mathlib.Algebra.Field.Rat
import Mathlib.Data.List.Induction
import Mathlib.Data.Rat.Cast.Defs
import Mathlib.Tactic.Positivity
import Mathlib.Tactic.Ring

/-!
# `ParseFixedPoint`

`ParseFixedPoint(val, decimals, &out)` of `util/strencodings.cpp` reads a JSON number into a
fixed-point integer with `decimals` decimals. The model reads `val` as its list of characters;
each `if (ptr < end && ...)` block of the source is one stage (`parseSign`, `parseIntPart`,
`parseFracPart`, `parseExpPart`) that returns the rest of the input, and each digit loop is a
recursion over it. `none` is `return false`; `some out` is `return true` with `*amount_out`.

The fork gives the fraction loop a budget `nowp_digits = 6`: the first six fraction digits go
through `ProcessMantissaDigit` and the others are skipped.

The results: on a number of the grammar (`JsonNumber.render`) the parser computes
`fixedPointOf` (`ParseFixedPoint_render`), which is exact for the digits it keeps
(`fixedPointOf_value`), hence exact for numbers with at most six fraction digits
(`ParseFixedPoint_exact`); every string it accepts is such a number
(`ParseFixedPoint_wellFormed`); and fraction digits past the sixth never change the result
(`ParseFixedPoint_truncate`), so a seventh digit is dropped rather than rejected.
-/

namespace NowpConsensus

/-- `UPPER_BOUND`: `10^18 - 1`, the largest arbitrary decimal that fits an `int64_t`. -/
def UPPER_BOUND : Int := 1000000000000000000 - 1

/-- `IsDigit`. -/
def IsDigit (c : Char) : Bool := '0' ≤ c && c ≤ '9'

/-- `ch - '0'`. -/
def digitValue (c : Char) : Int := (c.toNat : Int) - ('0'.toNat : Int)

/-- `ptr < end && IsDigit(val[ptr])`. -/
def startsWithDigit : List Char → Bool
  | c :: _ => IsDigit c
  | [] => false

/-! ## The model -/

/-- The loop `for (int i=0; i<=mantissa_tzeros; ++i)` of `ProcessMantissaDigit`, for `k`
turns: each turn fails if `mantissa > UPPER_BOUND / 10` and otherwise multiplies by ten. -/
def scaleMantissa : Nat → Int → Option Int
  | 0, m => some m
  | k + 1, m => if m > UPPER_BOUND / 10 then none else scaleMantissa k (m * 10)

/-- `ProcessMantissaDigit`: a `0` is counted as a trailing zero; another digit multiplies the
pending zeros into the mantissa and is added. `none` is the overflow. -/
def ProcessMantissaDigit (ch : Char) (mantissa : Int) (mantissa_tzeros : Nat) :
    Option (Int × Nat) :=
  if ch = '0' then some (mantissa, mantissa_tzeros + 1)
  else (scaleMantissa (mantissa_tzeros + 1) mantissa).map fun m => (m + digitValue ch, 0)

/-- The digit loop of the integer part. -/
def intDigitsLoop : List Char → Int → Nat → Option (List Char × Int × Nat)
  | [], m, tz => some ([], m, tz)
  | c :: cs, m, tz =>
    if IsDigit c then (ProcessMantissaDigit c m tz).bind fun r => intDigitsLoop cs r.1 r.2
    else some (c :: cs, m, tz)

/-- The digit loop of the fraction: while `nowp_digits` is not zero a digit goes through
`ProcessMantissaDigit` and counts in `point_ofs`; later digits are skipped. -/
def fracDigitsLoop : List Char → Int → Nat → Nat → Nat →
    Option (List Char × Int × Nat × Nat)
  | [], m, tz, point_ofs, _ => some ([], m, tz, point_ofs)
  | c :: cs, m, tz, point_ofs, nowp_digits =>
    if IsDigit c then
      if nowp_digits ≠ 0 then
        (ProcessMantissaDigit c m tz).bind fun r =>
          fracDigitsLoop cs r.1 r.2 (point_ofs + 1) (nowp_digits - 1)
      else fracDigitsLoop cs m tz point_ofs nowp_digits
    else some (c :: cs, m, tz, point_ofs)

/-- The digit loop of the exponent. -/
def expDigitsLoop : List Char → Int → Option (List Char × Int)
  | [], e => some ([], e)
  | c :: cs, e =>
    if IsDigit c then
      if e > UPPER_BOUND / 10 then none else expDigitsLoop cs (e * 10 + digitValue c)
    else some (c :: cs, e)

/-- The optional `-`: `mantissa_sign`. -/
def parseSign : List Char → Bool × List Char
  | c :: cs => if c = '-' then (true, cs) else (false, c :: cs)
  | [] => (false, [])

/-- The integer part: a single `0` is passed over; a digit `1` to `9` starts the digit loop;
anything else, or nothing, is a missing digit. -/
def parseIntPart : List Char → Option (List Char × Int × Nat)
  | [] => none
  | c :: cs =>
    if c = '0' then some (cs, 0, 0)
    else if '1' ≤ c ∧ c ≤ '9' then intDigitsLoop (c :: cs) 0 0
    else none

/-- The fraction part: a `.` must be followed by a digit. -/
def parseFracPart (m : Int) (tz : Nat) : List Char → Option (List Char × Int × Nat × Nat)
  | [] => some ([], m, tz, 0)
  | c :: cs =>
    if c = '.' then
      if startsWithDigit cs then fracDigitsLoop cs m tz 0 6 else none
    else some (c :: cs, m, tz, 0)

/-- The optional sign of the exponent: `exponent_sign`. -/
def parseExpSign : List Char → Bool × List Char
  | c :: cs => if c = '+' then (false, cs) else if c = '-' then (true, cs) else (false, c :: cs)
  | [] => (false, [])

/-- The exponent part: `e` or `E`, an optional sign, and at least one digit. -/
def parseExpPart : List Char → Option (List Char × Bool × Int)
  | [] => some ([], false, 0)
  | c :: cs =>
    if c = 'e' ∨ c = 'E' then
      if startsWithDigit (parseExpSign cs).2 then
        (expDigitsLoop (parseExpSign cs).2 0).map fun r => (r.1, (parseExpSign cs).1, r.2)
      else none
    else some (c :: cs, false, 0)

/-- The loop `for (int i=0; i < exponent; ++i)` of the conversion: each turn fails if the
mantissa is past `UPPER_BOUND / 10` either way and otherwise multiplies by ten. -/
def scaleOut : Nat → Int → Option Int
  | 0, m => some m
  | k + 1, m =>
    if m > UPPER_BOUND / 10 ∨ m < -(UPPER_BOUND / 10) then none else scaleOut k (m * 10)

/-- The end of `ParseFixedPoint`, once the whole input is read: the exponent and the mantissa
are finalised and the mantissa is scaled to `decimals` decimals. -/
def finalize (mantissa_sign exponent_sign : Bool) (mantissa exponent : Int)
    (mantissa_tzeros point_ofs : Nat) (decimals : Int) : Option Int :=
  let exponent := if exponent_sign then -exponent else exponent
  let exponent := exponent - point_ofs + mantissa_tzeros
  let mantissa := if mantissa_sign then -mantissa else mantissa
  let exponent := exponent + decimals
  if exponent < 0 then none
  else if exponent ≥ 18 then none
  else (scaleOut exponent.toNat mantissa).bind fun m =>
    if m > UPPER_BOUND ∨ m < -UPPER_BOUND then none else some m

/-- `ParseFixedPoint(val, decimals, &amount_out)`. -/
def ParseFixedPoint (val : List Char) (decimals : Int) : Option Int :=
  let mantissa_sign := (parseSign val).1
  (parseIntPart (parseSign val).2).bind fun (cs, mantissa, mantissa_tzeros) =>
  (parseFracPart mantissa mantissa_tzeros cs).bind fun (cs, mantissa, mantissa_tzeros, point_ofs) =>
  (parseExpPart cs).bind fun (cs, exponent_sign, exponent) =>
  if cs ≠ [] then none
  else finalize mantissa_sign exponent_sign mantissa exponent mantissa_tzeros point_ofs decimals

example : ParseFixedPoint "1.1e1".toList 8 = some 1100000000 := by decide
example : ParseFixedPoint "00.1".toList 8 = none := by decide

/-! ## Digits -/

theorem UPPER_BOUND_div_ten : UPPER_BOUND / 10 = 99999999999999999 := by decide

theorem toNat_of_isDigit {c : Char} (h : IsDigit c = true) : 48 ≤ c.toNat ∧ c.toNat ≤ 57 := by
  simp only [IsDigit, Bool.and_eq_true, decide_eq_true_eq, Char.le_def] at h
  exact h

theorem digitValue_bounds {c : Char} (h : IsDigit c = true) :
    0 ≤ digitValue c ∧ digitValue c ≤ 9 := by
  have := toNat_of_isDigit h
  unfold digitValue
  change 0 ≤ (c.toNat : Int) - 48 ∧ (c.toNat : Int) - 48 ≤ 9
  omega

theorem digitValue_pos {c : Char} (h : IsDigit c = true) (h0 : c ≠ '0') : 1 ≤ digitValue c := by
  have := toNat_of_isDigit h
  have hne : c.toNat ≠ 48 := fun h' => h0 (Char.toNat_inj.1 h')
  unfold digitValue
  change 1 ≤ (c.toNat : Int) - 48
  omega

/-- One digit of the mantissa as `ProcessMantissaDigit` takes it, without the overflow check:
the state is the mantissa and the count of pending zeros. -/
def mantissaDigit (s : Int × Nat) (c : Char) : Int × Nat :=
  if c = '0' then (s.1, s.2 + 1) else (s.1 * 10 ^ (s.2 + 1) + digitValue c, 0)

/-- The value of a string of decimal digits, read as the exponent loop reads it. -/
def digitsValue (ds : List Char) : Int := ds.foldl (fun n c => n * 10 + digitValue c) 0

/-- The number of `0`s that end a string. -/
def trailingZeros (ds : List Char) : Nat := (ds.reverse.takeWhile (· = '0')).length

theorem mantissaDigit_zero (s : Int × Nat) : mantissaDigit s '0' = (s.1, s.2 + 1) := if_pos rfl

theorem mantissaDigit_of_ne (s : Int × Nat) {c : Char} (h : c ≠ '0') :
    mantissaDigit s c = (s.1 * 10 ^ (s.2 + 1) + digitValue c, 0) := if_neg h

theorem digitsValue_append_singleton (ds : List Char) (c : Char) :
    digitsValue (ds ++ [c]) = digitsValue ds * 10 + digitValue c := by
  rw [digitsValue, List.foldl_append]
  rfl

theorem trailingZeros_append_zero (ds : List Char) :
    trailingZeros (ds ++ ['0']) = trailingZeros ds + 1 := by
  simp [trailingZeros]

theorem trailingZeros_append_of_ne (ds : List Char) {c : Char} (h : c ≠ '0') :
    trailingZeros (ds ++ [c]) = 0 := by
  simp [trailingZeros, h]

/-- The mantissa state after a string of digits, times its pending zeros, is the value of the
string, and the pending zeros are its trailing zeros. -/
theorem foldl_mantissaDigit_spec (ds : List Char) :
    (ds.foldl mantissaDigit (0, 0)).1 * 10 ^ (ds.foldl mantissaDigit (0, 0)).2 = digitsValue ds ∧
      (ds.foldl mantissaDigit (0, 0)).2 = trailingZeros ds := by
  induction ds using List.reverseRecOn with
  | nil => simp [digitsValue, trailingZeros]
  | append_singleton ds c ih =>
    obtain ⟨hval, htz⟩ := ih
    rw [List.foldl_append, List.foldl_cons, List.foldl_nil, digitsValue_append_singleton]
    by_cases hc : c = '0'
    · subst hc
      rw [mantissaDigit_zero, trailingZeros_append_zero, ← hval, ← htz, pow_succ,
        show digitValue '0' = 0 by decide]
      exact ⟨by ring, rfl⟩
    · rw [mantissaDigit_of_ne _ hc, trailingZeros_append_of_ne _ hc, ← hval, pow_succ]
      exact ⟨by ring, rfl⟩

/-- The mantissa state after a string of digits: the number without its trailing zeros, and
the zeros. -/
theorem foldl_mantissaDigit (ds : List Char) :
    ds.foldl mantissaDigit (0, 0) =
      (digitsValue ds / 10 ^ trailingZeros ds, trailingZeros ds) := by
  obtain ⟨hval, htz⟩ := foldl_mantissaDigit_spec ds
  ext
  · rw [← htz, ← hval, Int.mul_ediv_cancel _ (by positivity)]
  · exact htz

/-- The trailing zeros divide the value. -/
theorem digitsValue_div_mul (ds : List Char) :
    digitsValue ds / 10 ^ trailingZeros ds * 10 ^ trailingZeros ds = digitsValue ds := by
  have h := (foldl_mantissaDigit_spec ds).1
  rwa [foldl_mantissaDigit] at h

/-! ## The loops on a run of digits -/

theorem scaleMantissa_succ {m : Int} (hm : 0 ≤ m) : ∀ k : Nat,
    scaleMantissa (k + 1) m =
      if UPPER_BOUND / 10 < m * 10 ^ k then none else some (m * 10 ^ (k + 1))
  | 0 => by simp [scaleMantissa]
  | k + 1 => by
    have hpow : (1 : Int) ≤ 10 ^ (k + 1) := one_le_pow₀ (by norm_num)
    rw [scaleMantissa]
    by_cases hgt : m > UPPER_BOUND / 10
    · rw [if_pos hgt, if_pos (lt_of_lt_of_le hgt (le_mul_of_one_le_right hm hpow))]
    · rw [if_neg hgt, scaleMantissa_succ (by omega) k, show m * 10 * 10 ^ k = m * 10 ^ (k + 1) by
        ring, show m * 10 * 10 ^ (k + 1) = m * 10 ^ (k + 1 + 1) by ring]

/-- **`ProcessMantissaDigit` is `mantissaDigit`**, failing exactly when the new mantissa
would pass `UPPER_BOUND`. -/
theorem ProcessMantissaDigit_eq {c : Char} (hc : IsDigit c = true) {s : Int × Nat}
    (hs0 : 0 ≤ s.1) (hs : s.1 ≤ UPPER_BOUND) :
    ProcessMantissaDigit c s.1 s.2 =
      if UPPER_BOUND < (mantissaDigit s c).1 then none else some (mantissaDigit s c) := by
  by_cases h0 : c = '0'
  · subst h0
    rw [ProcessMantissaDigit, if_pos rfl, mantissaDigit_zero, if_neg (not_lt.2 hs)]
  · have hd := digitValue_bounds hc
    have hd1 := digitValue_pos hc h0
    rw [ProcessMantissaDigit, if_neg h0, scaleMantissa_succ hs0, mantissaDigit_of_ne _ h0,
      pow_succ, ← mul_assoc, UPPER_BOUND_div_ten]
    unfold UPPER_BOUND
    by_cases hov : 99999999999999999 < s.1 * 10 ^ s.2
    · rw [if_pos hov, if_pos (by omega)]
      rfl
    · rw [if_neg hov, if_neg (by omega)]
      rfl

theorem mantissaDigit_le {c : Char} (hc : IsDigit c = true) {s : Int × Nat} (hs : 0 ≤ s.1) :
    s.1 ≤ (mantissaDigit s c).1 := by
  by_cases h0 : c = '0'
  · subst h0
    rw [mantissaDigit_zero]
  · have hd := digitValue_bounds hc
    have hpow : (1 : Int) ≤ 10 ^ (s.2 + 1) := one_le_pow₀ (by norm_num)
    rw [mantissaDigit_of_ne _ h0]
    have := le_mul_of_one_le_right hs hpow
    change s.1 ≤ s.1 * 10 ^ (s.2 + 1) + digitValue c
    omega

/-- Digits never make the mantissa smaller. -/
theorem le_foldl_mantissaDigit {ds : List Char} (hds : ∀ c ∈ ds, IsDigit c = true) :
    ∀ {s : Int × Nat}, 0 ≤ s.1 → s.1 ≤ (ds.foldl mantissaDigit s).1 := by
  induction ds with
  | nil => intro s _; exact le_rfl
  | cons c ds ih =>
    intro s hs
    have hc := mantissaDigit_le (hds c (List.mem_cons_self ..)) hs
    exact le_trans hc (ih (fun d hd => hds d (List.mem_cons_of_mem _ hd)) (le_trans hs hc))

/-- **The integer digit loop** reads a run of digits into the mantissa and stops at the first
other character; it fails exactly when the mantissa would pass `UPPER_BOUND`. -/
theorem intDigitsLoop_append {ds rest : List Char} (hds : ∀ c ∈ ds, IsDigit c = true)
    (hrest : startsWithDigit rest = false) :
    ∀ {s : Int × Nat}, 0 ≤ s.1 → s.1 ≤ UPPER_BOUND →
      intDigitsLoop (ds ++ rest) s.1 s.2 =
        if UPPER_BOUND < (ds.foldl mantissaDigit s).1 then none
        else some (rest, (ds.foldl mantissaDigit s).1, (ds.foldl mantissaDigit s).2) := by
  induction ds with
  | nil =>
    intro s _ hs
    rw [List.foldl_nil, if_neg (not_lt.2 hs)]
    cases rest with
    | nil => rfl
    | cons c cs => simp_all [intDigitsLoop, startsWithDigit]
  | cons c ds ih =>
    intro s hs0 hs
    have hc := hds c (List.mem_cons_self ..)
    have hds' : ∀ d ∈ ds, IsDigit d = true := fun d hd => hds d (List.mem_cons_of_mem _ hd)
    rw [List.cons_append, intDigitsLoop, if_pos hc, ProcessMantissaDigit_eq hc hs0 hs,
      List.foldl_cons]
    by_cases hov : UPPER_BOUND < (mantissaDigit s c).1
    · rw [if_pos hov, Option.bind_none,
        if_pos (lt_of_lt_of_le hov (le_foldl_mantissaDigit hds' (by
          have := mantissaDigit_le hc hs0
          omega)))]
    · rw [if_neg hov, Option.bind_some]
      exact ih hds' (le_trans hs0 (mantissaDigit_le hc hs0)) (not_lt.1 hov)

/-- **The fraction digit loop** reads the first `nowp_digits` digits of a run into the
mantissa, counts them in `point_ofs`, and skips the others. -/
theorem fracDigitsLoop_append {ds rest : List Char} (hds : ∀ c ∈ ds, IsDigit c = true)
    (hrest : startsWithDigit rest = false) :
    ∀ {s : Int × Nat} (point_ofs nowp_digits : Nat), 0 ≤ s.1 → s.1 ≤ UPPER_BOUND →
      fracDigitsLoop (ds ++ rest) s.1 s.2 point_ofs nowp_digits =
        if UPPER_BOUND < ((ds.take nowp_digits).foldl mantissaDigit s).1 then none
        else some (rest, ((ds.take nowp_digits).foldl mantissaDigit s).1,
          ((ds.take nowp_digits).foldl mantissaDigit s).2,
          point_ofs + min nowp_digits ds.length) := by
  induction ds with
  | nil =>
    intro s point_ofs nowp_digits _ hs
    rw [List.take_nil, List.foldl_nil, if_neg (not_lt.2 hs), List.length_nil, Nat.min_zero,
      Nat.add_zero]
    cases rest with
    | nil => rfl
    | cons c cs => simp_all [fracDigitsLoop, startsWithDigit]
  | cons c ds ih =>
    intro s point_ofs nowp_digits hs0 hs
    have hc := hds c (List.mem_cons_self ..)
    have hds' : ∀ d ∈ ds, IsDigit d = true := fun d hd => hds d (List.mem_cons_of_mem _ hd)
    rw [List.cons_append, fracDigitsLoop, if_pos hc]
    cases nowp_digits with
    | zero =>
      rw [if_neg (by simp), ih hds' point_ofs 0 hs0 hs]
      simp
    | succ n =>
      rw [if_pos (by simp), ProcessMantissaDigit_eq hc hs0 hs, List.take_succ_cons,
        List.foldl_cons]
      by_cases hov : UPPER_BOUND < (mantissaDigit s c).1
      · rw [if_pos hov, Option.bind_none,
          if_pos (lt_of_lt_of_le hov (le_foldl_mantissaDigit (fun d hd => hds' d
            (List.mem_of_mem_take hd)) (by
              have := mantissaDigit_le hc hs0
              omega)))]
      · rw [if_neg hov, Option.bind_some, Nat.add_sub_cancel,
          ih hds' (point_ofs + 1) n (le_trans hs0 (mantissaDigit_le hc hs0)) (not_lt.1 hov),
          List.length_cons, show point_ofs + 1 + min n ds.length =
            point_ofs + min (n + 1) (ds.length + 1) by omega]

theorem le_foldl_digits {ds : List Char} (hds : ∀ c ∈ ds, IsDigit c = true) :
    ∀ {e : Int}, 0 ≤ e → e ≤ ds.foldl (fun n c => n * 10 + digitValue c) e := by
  induction ds with
  | nil => intro e _; exact le_rfl
  | cons c ds ih =>
    intro e he
    have hd := digitValue_bounds (hds c (List.mem_cons_self ..))
    have := ih (fun d hd => hds d (List.mem_cons_of_mem _ hd)) (e := e * 10 + digitValue c)
      (by omega)
    rw [List.foldl_cons]
    omega

/-- **The exponent digit loop** reads a run of digits; it fails exactly when the run is not
empty and its value passes `UPPER_BOUND`. -/
theorem expDigitsLoop_append {ds rest : List Char} (hds : ∀ c ∈ ds, IsDigit c = true)
    (hrest : startsWithDigit rest = false) :
    ∀ {e : Int}, 0 ≤ e → e ≤ UPPER_BOUND →
      expDigitsLoop (ds ++ rest) e =
        if ds ≠ [] ∧ UPPER_BOUND < ds.foldl (fun n c => n * 10 + digitValue c) e then none
        else some (rest, ds.foldl (fun n c => n * 10 + digitValue c) e) := by
  induction ds with
  | nil =>
    intro e _ _
    rw [if_neg (by simp), List.foldl_nil]
    cases rest with
    | nil => rfl
    | cons c cs => simp_all [expDigitsLoop, startsWithDigit]
  | cons c ds ih =>
    intro e he0 he
    have hc := hds c (List.mem_cons_self ..)
    have hd := digitValue_bounds hc
    have hds' : ∀ d ∈ ds, IsDigit d = true := fun d hd => hds d (List.mem_cons_of_mem _ hd)
    have hle := le_foldl_digits hds' (e := e * 10 + digitValue c) (by omega)
    rw [List.cons_append, expDigitsLoop, if_pos hc, List.foldl_cons, UPPER_BOUND_div_ten]
    unfold UPPER_BOUND at he ⊢
    by_cases hgt : e > 99999999999999999
    · rw [if_pos hgt, if_pos ⟨List.cons_ne_nil _ _, by omega⟩]
    · rw [if_neg hgt, ih hds' (by omega) (by unfold UPPER_BOUND; omega)]
      by_cases hnil : ds = []
      · subst hnil
        simp only [ne_eq, not_true_eq_false, false_and, if_false, List.foldl_nil,
          List.cons_ne_nil, not_false_eq_true, true_and]
        rw [if_neg (by omega)]
      · unfold UPPER_BOUND
        simp [hnil]

/-! ## The conversion -/

/-- The check after the conversion loop. -/
def inRange (m : Int) : Option Int :=
  if m > UPPER_BOUND ∨ m < -UPPER_BOUND then none else some m

theorem scaleOut_neg : ∀ (k : Nat) (m : Int), scaleOut k (-m) = (scaleOut k m).map (- ·)
  | 0, m => rfl
  | k + 1, m => by
    rw [scaleOut, scaleOut, if_congr (show -m > UPPER_BOUND / 10 ∨ -m < -(UPPER_BOUND / 10) ↔
      m > UPPER_BOUND / 10 ∨ m < -(UPPER_BOUND / 10) by omega) rfl rfl, neg_mul, scaleOut_neg k]
    split <;> rfl

theorem inRange_neg (m : Int) : inRange (-m) = (inRange m).map (- ·) := by
  unfold inRange
  rw [if_congr (show -m > UPPER_BOUND ∨ -m < -UPPER_BOUND ↔ m > UPPER_BOUND ∨ m < -UPPER_BOUND by
    omega) rfl rfl]
  split <;> rfl

/-- **The conversion loop and its final check** succeed exactly when the scaled mantissa stays
within `UPPER_BOUND`. -/
theorem scaleOut_bind_inRange {m : Int} (hm0 : 0 ≤ m) (hm : m ≤ UPPER_BOUND) :
    ∀ k : Nat, (scaleOut k m).bind inRange =
      if UPPER_BOUND < m * 10 ^ k then none else some (m * 10 ^ k)
  | 0 => by
    rw [scaleOut, Option.bind_some, inRange, pow_zero, mul_one, if_neg (by omega),
      if_neg (not_lt.2 hm)]
  | k + 1 => by
    have hpow : (10 : Int) ≤ 10 ^ (k + 1) := by
      calc (10 : Int) = 10 ^ 1 := by norm_num
        _ ≤ 10 ^ (k + 1) := pow_le_pow_right₀ (by norm_num) (by omega)
    rw [scaleOut, UPPER_BOUND_div_ten]
    by_cases hgt : m > 99999999999999999
    · have : m * 10 ≤ m * 10 ^ (k + 1) := mul_le_mul_of_nonneg_left hpow hm0
      rw [if_pos (Or.inl hgt), Option.bind_none, if_pos (by unfold UPPER_BOUND; omega)]
    · rw [if_neg (by omega), scaleOut_bind_inRange (by omega) (by unfold UPPER_BOUND; omega) k,
        show m * 10 * 10 ^ k = m * 10 ^ (k + 1) by ring]

/-- **`finalize`**: the exponent is the read exponent, less the fraction digits kept, plus the
pending zeros and `decimals`; it must lie in `[0, 18)` and the scaled mantissa within
`UPPER_BOUND`. -/
theorem finalize_eq {m : Int} (hm0 : 0 ≤ m) (hm : m ≤ UPPER_BOUND) (mantissa_sign exponent_sign : Bool)
    (e : Int) (tz point_ofs : Nat) (decimals : Int) :
    finalize mantissa_sign exponent_sign m e tz point_ofs decimals =
      let E := (if exponent_sign then -e else e) - point_ofs + tz + decimals
      if E < 0 ∨ 18 ≤ E ∨ UPPER_BOUND < m * 10 ^ E.toNat then none
      else some ((if mantissa_sign then -m else m) * 10 ^ E.toNat) := by
  simp only [finalize]
  generalize (if exponent_sign then -e else e) - point_ofs + tz + decimals = E
  by_cases hlt : E < 0
  · rw [if_pos hlt, if_pos (Or.inl hlt)]
  · by_cases hge : E ≥ 18
    · rw [if_neg hlt, if_pos hge, if_pos (Or.inr (Or.inl hge))]
    · rw [if_neg hlt, if_neg hge]
      have hbind : (scaleOut E.toNat m).bind (fun m =>
          if m > UPPER_BOUND ∨ m < -UPPER_BOUND then none else some m) =
          (scaleOut E.toNat m).bind inRange := rfl
      cases mantissa_sign
      · rw [if_neg (Bool.false_ne_true), hbind, scaleOut_bind_inRange hm0 hm]
        by_cases hov : UPPER_BOUND < m * 10 ^ E.toNat
        · rw [if_pos hov, if_pos (Or.inr (Or.inr hov))]
        · rw [if_neg hov, if_neg (by omega)]
      · rw [if_pos rfl, scaleOut_neg, Option.bind_map]
        change (scaleOut E.toNat m).bind (inRange ∘ fun x => -x) = _
        have hneg : (scaleOut E.toNat m).bind (inRange ∘ fun x => -x) =
            ((scaleOut E.toNat m).bind inRange).map (- ·) := by
          rw [Option.map_bind]
          congr 1
          funext x
          exact inRange_neg x
        rw [hneg, scaleOut_bind_inRange hm0 hm]
        by_cases hov : UPPER_BOUND < m * 10 ^ E.toNat
        · rw [if_pos hov, if_pos (Or.inr (Or.inr hov))]
          rfl
        · rw [if_neg hov, if_neg (by omega), Option.map_some, neg_mul]

/-! ## Numbers of the JSON grammar -/

/-- The exponent of a JSON number: `e` or `E`, an optional sign, and digits. -/
structure JsonExponent where
  marker : Char
  sign : Option Char
  digits : List Char
  marker_ok : marker = 'e' ∨ marker = 'E'
  sign_ok : sign = none ∨ sign = some '+' ∨ sign = some '-'
  digits_ne : digits ≠ []
  digits_ok : ∀ c ∈ digits, IsDigit c = true

/-- A number of the JSON grammar `-?(0|[1-9][0-9]*)(\.[0-9]+)?([eE][+-]?[0-9]+)?`, by its parts. -/
structure JsonNumber where
  negative : Bool
  intPart : List Char
  fracPart : Option (List Char)
  exp : Option JsonExponent
  intPart_ok : intPart = ['0'] ∨
    ∃ c cs, intPart = c :: cs ∧ '1' ≤ c ∧ c ≤ '9' ∧ ∀ d ∈ cs, IsDigit d = true
  fracPart_ok : ∀ f ∈ fracPart, f ≠ [] ∧ ∀ d ∈ f, IsDigit d = true

/-- The text of a fraction part. -/
def fracText : Option (List Char) → List Char
  | none => []
  | some f => '.' :: f

/-- The text of an exponent part. -/
def expText : Option JsonExponent → List Char
  | none => []
  | some x => x.marker :: (x.sign.toList ++ x.digits)

namespace JsonNumber

/-- The text of a number. -/
def render (p : JsonNumber) : List Char :=
  (if p.negative then ['-'] else []) ++ p.intPart ++ fracText p.fracPart ++ expText p.exp

/-- The integer digits that reach `ProcessMantissaDigit`: none for a lone `0`. -/
def intDigits (p : JsonNumber) : List Char := if p.intPart = ['0'] then [] else p.intPart

/-- The fraction digits that reach `ProcessMantissaDigit`: the first six. -/
def keptFrac (p : JsonNumber) : List Char := (p.fracPart.getD []).take 6

/-- All digits of the mantissa. -/
def keptDigits (p : JsonNumber) : List Char := p.intDigits ++ p.keptFrac

/-- `point_ofs`: the number of fraction digits kept. -/
def pointOfs (p : JsonNumber) : Nat := min 6 (p.fracPart.getD []).length

/-- The magnitude of the exponent. -/
def expValue (p : JsonNumber) : Int := match p.exp with
  | none => 0
  | some x => digitsValue x.digits

/-- `exponent_sign`. -/
def expNegative (p : JsonNumber) : Bool := match p.exp with
  | none => false
  | some x => x.sign == some '-'

/-- The rational number a JSON number denotes. -/
def value (p : JsonNumber) : ℚ :=
  (if p.negative then -1 else 1) * (digitsValue (p.intPart ++ p.fracPart.getD []) : ℚ) *
    10 ^ ((if p.expNegative then -p.expValue else p.expValue) - (p.fracPart.getD []).length)

/-- The same number with its fraction cut to six digits. -/
def truncFrac (p : JsonNumber) : JsonNumber :=
  { p with
    fracPart := p.fracPart.map (·.take 6)
    fracPart_ok := by
      intro f hf
      obtain ⟨g, hg, rfl⟩ := Option.mem_map.1 hf
      obtain ⟨hne, hd⟩ := p.fracPart_ok g hg
      exact ⟨by simp [List.take_eq_nil_iff, hne], fun d hd' => hd d (List.mem_of_mem_take hd')⟩ }

end JsonNumber

open JsonNumber

/-- What `ParseFixedPoint` returns on a number of the grammar: the kept digits without their
trailing zeros, scaled by ten to the exponent less the kept fraction digits plus those zeros
and `decimals`. -/
def fixedPointOf (p : JsonNumber) (decimals : Int) : Option Int :=
  let tz := trailingZeros p.keptDigits
  let sig := digitsValue p.keptDigits / 10 ^ tz
  if UPPER_BOUND < sig then none
  else if UPPER_BOUND < p.expValue then none
  else
    let E := (if p.expNegative then -p.expValue else p.expValue) - p.pointOfs + tz + decimals
    if E < 0 ∨ 18 ≤ E ∨ UPPER_BOUND < sig * 10 ^ E.toNat then none
    else some ((if p.negative then -sig else sig) * 10 ^ E.toNat)

/-! ## The parser on a number of the grammar -/

theorem isDigit_of_le {c : Char} (h1 : '1' ≤ c) (h9 : c ≤ '9') : IsDigit c = true := by
  simp only [IsDigit, Bool.and_eq_true, decide_eq_true_eq, Char.le_def,
    UInt32.le_iff_toNat_le] at *
  have h0' : ('0' : Char).val.toNat = 48 := rfl
  have h1' : ('1' : Char).val.toNat = 49 := rfl
  exact ⟨by omega, h9⟩

namespace JsonNumber

theorem intPart_cons (p : JsonNumber) : ∃ c cs, p.intPart = c :: cs ∧ IsDigit c = true := by
  rcases p.intPart_ok with h | ⟨c, cs, h, h1, h9, _⟩
  · exact ⟨'0', [], h, by decide⟩
  · exact ⟨c, cs, h, isDigit_of_le h1 h9⟩

theorem intDigits_digits (p : JsonNumber) : ∀ c ∈ p.intDigits, IsDigit c = true := by
  unfold intDigits
  rcases p.intPart_ok with h | ⟨c, cs, h, h1, h9, hcs⟩
  · simp [h]
  · rw [if_neg (by
      rw [h]
      intro h'
      rw [(List.cons.inj h').1] at h1
      exact absurd h1 (by decide))]
    intro d hd
    rw [h] at hd
    rcases List.mem_cons.1 hd with rfl | hd
    · exact isDigit_of_le h1 h9
    · exact hcs d hd

theorem keptFrac_digits (p : JsonNumber) : ∀ c ∈ p.keptFrac, IsDigit c = true := by
  intro c hc
  unfold keptFrac at hc
  cases hf : p.fracPart with
  | none => simp [hf] at hc
  | some f =>
    rw [hf, Option.getD_some] at hc
    exact (p.fracPart_ok f hf).2 c (List.mem_of_mem_take hc)

/-- `fixedPointOf` on the state the mantissa loops leave. -/
theorem fixedPointOf_eq (p : JsonNumber) (decimals : Int) :
    fixedPointOf p decimals =
      let B := p.keptDigits.foldl mantissaDigit (0, 0)
      if UPPER_BOUND < B.1 then none
      else if UPPER_BOUND < p.expValue then none
      else
        let E := (if p.expNegative then -p.expValue else p.expValue) - p.pointOfs + B.2 + decimals
        if E < 0 ∨ 18 ≤ E ∨ UPPER_BOUND < B.1 * 10 ^ E.toNat then none
        else some ((if p.negative then -B.1 else B.1) * 10 ^ E.toNat) := by
  rw [foldl_mantissaDigit]
  rfl

end JsonNumber

theorem startsWithDigit_expText (x : Option JsonExponent) : startsWithDigit (expText x) = false := by
  cases x with
  | none => rfl
  | some x =>
    rcases x.marker_ok with h | h <;> simp [expText, startsWithDigit, h, IsDigit]

theorem startsWithDigit_fracText (f : Option (List Char)) (x : Option JsonExponent) :
    startsWithDigit (fracText f ++ expText x) = false := by
  cases f with
  | none => exact startsWithDigit_expText x
  | some f => rfl

theorem parseSign_render (p : JsonNumber) :
    parseSign p.render = (p.negative, p.intPart ++ (fracText p.fracPart ++ expText p.exp)) := by
  obtain ⟨c, cs, hc, hd⟩ := p.intPart_cons
  have hne : c ≠ '-' := by
    rintro rfl
    exact absurd hd (by decide)
  unfold JsonNumber.render
  cases p.negative
  · simp [hc, parseSign, hne]
  · simp [parseSign]

theorem parseIntPart_render (p : JsonNumber) {tail : List Char}
    (htail : startsWithDigit tail = false) :
    parseIntPart (p.intPart ++ tail) =
      if UPPER_BOUND < (p.intDigits.foldl mantissaDigit (0, 0)).1 then none
      else some (tail, (p.intDigits.foldl mantissaDigit (0, 0)).1,
        (p.intDigits.foldl mantissaDigit (0, 0)).2) := by
  rcases p.intPart_ok with h | ⟨c, cs, h, h1, h9, _⟩
  · have hi : p.intDigits = [] := by simp [JsonNumber.intDigits, h]
    rw [hi, h]
    rfl
  · have hc0 : c ≠ '0' := by
      rintro rfl
      exact absurd h1 (by decide)
    have hi : p.intDigits = c :: cs := by
      rw [JsonNumber.intDigits, if_neg (by rw [h]; simp [hc0]), h]
    have hloop := intDigitsLoop_append (p.intDigits_digits) htail (s := (0, 0)) le_rfl (by decide)
    rw [hi] at hloop
    rw [h, hi, List.cons_append, parseIntPart, if_neg hc0, if_pos ⟨h1, h9⟩, ← List.cons_append]
    exact hloop

theorem parseFracPart_render (p : JsonNumber) {s : Int × Nat} (hs0 : 0 ≤ s.1)
    (hs : s.1 ≤ UPPER_BOUND) :
    parseFracPart s.1 s.2 (fracText p.fracPart ++ expText p.exp) =
      if UPPER_BOUND < (p.keptFrac.foldl mantissaDigit s).1 then none
      else some (expText p.exp, (p.keptFrac.foldl mantissaDigit s).1,
        (p.keptFrac.foldl mantissaDigit s).2, p.pointOfs) := by
  have hkept := p.keptFrac_digits
  unfold JsonNumber.keptFrac JsonNumber.pointOfs at *
  cases hf : p.fracPart with
  | none =>
    rw [Option.getD_none, List.take_nil, List.foldl_nil, if_neg (not_lt.2 hs), fracText,
      List.nil_append]
    cases hx : p.exp with
    | none => rfl
    | some x =>
      have hm : x.marker ≠ '.' := by rcases x.marker_ok with h | h <;> rw [h] <;> decide
      simp [expText, parseFracPart, hm]
  | some f =>
    obtain ⟨hne, hdig⟩ := p.fracPart_ok f hf
    obtain ⟨c, cs, rfl⟩ := List.exists_cons_of_ne_nil hne
    have hstart : startsWithDigit (c :: cs ++ expText p.exp) = true :=
      hdig c (List.mem_cons_self ..)
    rw [Option.getD_some, fracText, List.cons_append, parseFracPart, if_pos rfl, if_pos hstart,
      fracDigitsLoop_append hdig (startsWithDigit_expText _) 0 6 hs0 hs, Nat.zero_add]

theorem parseExpPart_render (p : JsonNumber) :
    parseExpPart (expText p.exp) =
      if UPPER_BOUND < p.expValue then none else some ([], p.expNegative, p.expValue) := by
  unfold JsonNumber.expValue JsonNumber.expNegative
  cases p.exp with
  | none => rfl
  | some x =>
    have hsign : parseExpSign (x.sign.toList ++ x.digits) = (x.sign == some '-', x.digits) := by
      obtain ⟨c, cs, hc⟩ := List.exists_cons_of_ne_nil x.digits_ne
      have hd := x.digits_ok c (by rw [hc]; exact List.mem_cons_self ..)
      have hp : c ≠ '+' := by rintro rfl; exact absurd hd (by decide)
      have hm : c ≠ '-' := by rintro rfl; exact absurd hd (by decide)
      rcases x.sign_ok with h | h | h <;> simp [h, hc, parseExpSign, hp, hm]
    have hstart : startsWithDigit x.digits = true := by
      obtain ⟨c, cs, hc⟩ := List.exists_cons_of_ne_nil x.digits_ne
      rw [hc]
      exact x.digits_ok c (by rw [hc]; exact List.mem_cons_self ..)
    have hloop := @expDigitsLoop_append x.digits [] x.digits_ok rfl 0 le_rfl (by decide)
    rw [List.append_nil] at hloop
    have hmarker : (x.marker = 'e' ∨ x.marker = 'E') := x.marker_ok
    simp only [expText, parseExpPart, if_pos hmarker, hsign, if_pos hstart, hloop, digitsValue]
    by_cases hv : UPPER_BOUND < x.digits.foldl (fun n c => n * 10 + digitValue c) 0
    · rw [if_pos ⟨x.digits_ne, hv⟩]
      simp [hv]
    · rw [if_neg (fun h => hv h.2)]
      simp [hv]

/-- **`ParseFixedPoint` on a number of the grammar** returns `fixedPointOf`: the kept digits
scaled to `decimals` decimals, or `false` on an overflow, a negative scale or a scale of 18 or
more. -/
theorem ParseFixedPoint_render (p : JsonNumber) (decimals : Int) :
    ParseFixedPoint p.render decimals = fixedPointOf p decimals := by
  have hA0 := le_foldl_mantissaDigit p.intDigits_digits (s := (0, 0)) le_rfl
  rw [JsonNumber.fixedPointOf_eq, ParseFixedPoint, parseSign_render,
    parseIntPart_render p (startsWithDigit_fracText _ _)]
  simp only
  rw [JsonNumber.keptDigits, List.foldl_append]
  set A := p.intDigits.foldl mantissaDigit (0, 0)
  have hB0 := le_foldl_mantissaDigit p.keptFrac_digits (s := A) hA0
  by_cases hA : UPPER_BOUND < A.1
  · rw [if_pos hA, Option.bind_none, if_pos (lt_of_lt_of_le hA hB0)]
  · rw [if_neg hA, Option.bind_some]
    simp only
    rw [parseFracPart_render p hA0 (not_lt.1 hA)]
    set B := p.keptFrac.foldl mantissaDigit A
    by_cases hB : UPPER_BOUND < B.1
    · rw [if_pos hB, Option.bind_none, if_pos hB]
    · rw [if_neg hB, Option.bind_some, if_neg hB]
      simp only
      rw [parseExpPart_render]
      by_cases hX : UPPER_BOUND < p.expValue
      · rw [if_pos hX, Option.bind_none, if_pos hX]
      · rw [if_neg hX, Option.bind_some, if_neg hX]
        simp only [ne_eq, not_true_eq_false, if_false]
        exact finalize_eq (le_trans hA0 hB0) (not_lt.1 hB) _ _ _ _ _ _

/-! ## What the parser accepts -/

theorem intDigitsLoop_some : ∀ {cs : List Char} {m : Int} {tz : Nat} {rest : List Char}
    {r : Int × Nat}, intDigitsLoop cs m tz = some (rest, r) →
      ∃ ds, cs = ds ++ rest ∧ (∀ c ∈ ds, IsDigit c = true) ∧ startsWithDigit rest = false
  | [], _, _, rest, _, h => by
    cases h
    exact ⟨[], rfl, by simp, rfl⟩
  | c :: cs, m, tz, rest, r, h => by
    rw [intDigitsLoop] at h
    by_cases hc : IsDigit c = true
    · rw [if_pos hc, Option.bind_eq_some_iff] at h
      obtain ⟨r', -, h⟩ := h
      obtain ⟨ds, rfl, hds, hrest⟩ := intDigitsLoop_some h
      refine ⟨c :: ds, rfl, ?_, hrest⟩
      intro d hd
      rcases List.mem_cons.1 hd with rfl | hd
      exacts [hc, hds d hd]
    · rw [if_neg hc] at h
      cases h
      exact ⟨[], rfl, by simp, by simpa [startsWithDigit] using hc⟩

theorem fracDigitsLoop_some : ∀ {cs : List Char} {m : Int} {tz point_ofs nowp_digits : Nat}
    {rest : List Char} {r : Int × Nat × Nat},
    fracDigitsLoop cs m tz point_ofs nowp_digits = some (rest, r) →
      ∃ ds, cs = ds ++ rest ∧ (∀ c ∈ ds, IsDigit c = true) ∧ startsWithDigit rest = false
  | [], _, _, _, _, rest, _, h => by
    cases h
    exact ⟨[], rfl, by simp, rfl⟩
  | c :: cs, m, tz, point_ofs, nowp_digits, rest, r, h => by
    rw [fracDigitsLoop] at h
    by_cases hc : IsDigit c = true
    · rw [if_pos hc] at h
      have hnext : ∃ m' tz' p' n', fracDigitsLoop cs m' tz' p' n' = some (rest, r) := by
        split at h
        · obtain ⟨r', -, h⟩ := Option.bind_eq_some_iff.1 h
          exact ⟨_, _, _, _, h⟩
        · exact ⟨_, _, _, _, h⟩
      obtain ⟨m', tz', p', n', h'⟩ := hnext
      obtain ⟨ds, rfl, hds, hrest⟩ := fracDigitsLoop_some h'
      refine ⟨c :: ds, rfl, ?_, hrest⟩
      intro d hd
      rcases List.mem_cons.1 hd with rfl | hd
      exacts [hc, hds d hd]
    · rw [if_neg hc] at h
      cases h
      exact ⟨[], rfl, by simp, by simpa [startsWithDigit] using hc⟩

theorem expDigitsLoop_some : ∀ {cs : List Char} {e : Int} {rest : List Char} {e' : Int},
    expDigitsLoop cs e = some (rest, e') →
      ∃ ds, cs = ds ++ rest ∧ (∀ c ∈ ds, IsDigit c = true) ∧ startsWithDigit rest = false
  | [], _, rest, _, h => by
    cases h
    exact ⟨[], rfl, by simp, rfl⟩
  | c :: cs, e, rest, e', h => by
    rw [expDigitsLoop] at h
    by_cases hc : IsDigit c = true
    · rw [if_pos hc] at h
      split at h
      · cases h
      · obtain ⟨ds, rfl, hds, hrest⟩ := expDigitsLoop_some h
        refine ⟨c :: ds, rfl, ?_, hrest⟩
        intro d hd
        rcases List.mem_cons.1 hd with rfl | hd
        exacts [hc, hds d hd]
    · rw [if_neg hc] at h
      cases h
      exact ⟨[], rfl, by simp, by simpa [startsWithDigit] using hc⟩

/-- A run of digits that is followed by something other than a digit is not empty when the text
starts with a digit. -/
theorem ne_nil_of_startsWithDigit {ds rest : List Char} (h : startsWithDigit (ds ++ rest) = true)
    (hrest : startsWithDigit rest = false) : ds ≠ [] := by
  rintro rfl
  rw [List.nil_append, hrest] at h
  cases h

theorem parseSign_spec (val : List Char) :
    val = (if (parseSign val).1 then ['-'] else []) ++ (parseSign val).2 := by
  cases val with
  | nil => rfl
  | cons c cs =>
    by_cases hc : c = '-'
    · simp [parseSign, hc]
    · simp [parseSign, hc]

theorem parseIntPart_some {cs rest : List Char} {m : Int} {tz : Nat}
    (h : parseIntPart cs = some (rest, m, tz)) :
    ∃ I, cs = I ++ rest ∧ (I = ['0'] ∨
      ∃ c ds, I = c :: ds ∧ '1' ≤ c ∧ c ≤ '9' ∧ ∀ d ∈ ds, IsDigit d = true) := by
  match cs, h with
  | c :: cs, h =>
    rw [parseIntPart] at h
    by_cases h0 : c = '0'
    · rw [if_pos h0] at h
      cases h
      exact ⟨['0'], by rw [h0]; rfl, Or.inl rfl⟩
    · rw [if_neg h0] at h
      split at h
      · rename_i h19
        obtain ⟨ds, hcs, hds, hrest⟩ := intDigitsLoop_some h
        have hne := ne_nil_of_startsWithDigit (hcs ▸ isDigit_of_le h19.1 h19.2 :
          startsWithDigit (ds ++ rest) = true) hrest
        obtain ⟨d, ds', rfl⟩ := List.exists_cons_of_ne_nil hne
        obtain ⟨rfl, rfl⟩ := List.cons.inj hcs
        refine ⟨c :: ds', rfl, Or.inr ⟨c, ds', rfl, h19.1, h19.2, ?_⟩⟩
        exact fun x hx => hds x (List.mem_cons_of_mem _ hx)
      · cases h

theorem parseFracPart_some {m : Int} {tz : Nat} {cs rest : List Char} {r : Int × Nat × Nat}
    (h : parseFracPart m tz cs = some (rest, r)) :
    ∃ f : Option (List Char), (∀ x ∈ f, x ≠ [] ∧ ∀ d ∈ x, IsDigit d = true) ∧
      cs = fracText f ++ rest := by
  match cs, h with
  | [], h =>
    cases h
    exact ⟨none, by simp, rfl⟩
  | c :: cs, h =>
    rw [parseFracPart] at h
    by_cases hc : c = '.'
    · rw [if_pos hc] at h
      split at h
      · rename_i hstart
        obtain ⟨ds, rfl, hds, hrest⟩ := fracDigitsLoop_some h
        refine ⟨some ds, ?_, by rw [hc]; rfl⟩
        intro x hx
        cases hx
        exact ⟨ne_nil_of_startsWithDigit hstart hrest, hds⟩
      · cases h
    · rw [if_neg hc] at h
      cases h
      exact ⟨none, by simp, rfl⟩

theorem parseExpSign_spec (cs : List Char) :
    ∃ sg : Option Char, (sg = none ∨ sg = some '+' ∨ sg = some '-') ∧
      cs = sg.toList ++ (parseExpSign cs).2 := by
  cases cs with
  | nil => exact ⟨none, Or.inl rfl, rfl⟩
  | cons c cs =>
    by_cases hp : c = '+'
    · exact ⟨some '+', Or.inr (Or.inl rfl), by simp [parseExpSign, hp]⟩
    · by_cases hm : c = '-'
      · exact ⟨some '-', Or.inr (Or.inr rfl), by simp [parseExpSign, hm]⟩
      · exact ⟨none, Or.inl rfl, by simp [parseExpSign, hp, hm]⟩

theorem parseExpPart_some {cs rest : List Char} {r : Bool × Int}
    (h : parseExpPart cs = some (rest, r)) : ∃ x : Option JsonExponent, cs = expText x ++ rest := by
  match cs, h with
  | [], h =>
    cases h
    exact ⟨none, rfl⟩
  | c :: cs, h =>
    rw [parseExpPart] at h
    by_cases hc : c = 'e' ∨ c = 'E'
    · rw [if_pos hc] at h
      split at h
      · rename_i hstart
        obtain ⟨⟨rest', e'⟩, hloop, hr⟩ := Option.map_eq_some_iff.1 h
        cases hr
        obtain ⟨ds, hds_eq, hds, hrest⟩ := expDigitsLoop_some hloop
        obtain ⟨sg, hsg, hcs⟩ := parseExpSign_spec cs
        rw [hds_eq] at hstart hcs
        refine ⟨some ⟨c, sg, ds, hc, hsg, ne_nil_of_startsWithDigit hstart hrest, hds⟩, ?_⟩
        simp only [expText, List.cons_append, List.append_assoc]
        rw [← hcs]
      · cases h
    · rw [if_neg hc] at h
      cases h
      exact ⟨none, rfl⟩

/-- **`ParseFixedPoint` accepts only numbers of the JSON grammar.** -/
theorem ParseFixedPoint_wellFormed {val : List Char} {decimals out : Int}
    (h : ParseFixedPoint val decimals = some out) : ∃ p : JsonNumber, p.render = val := by
  unfold ParseFixedPoint at h
  obtain ⟨⟨cs₁, m₁, tz₁⟩, h₁, h⟩ := Option.bind_eq_some_iff.1 h
  obtain ⟨⟨cs₂, m₂, tz₂, pofs⟩, h₂, h⟩ := Option.bind_eq_some_iff.1 h
  obtain ⟨⟨cs₃, es, e⟩, h₃, h⟩ := Option.bind_eq_some_iff.1 h
  have hcs₃ : cs₃ = [] := by
    by_contra hne
    simp [hne] at h
  obtain ⟨I, hI, hIok⟩ := parseIntPart_some h₁
  obtain ⟨f, hfok, hf⟩ := parseFracPart_some h₂
  obtain ⟨x, hx⟩ := parseExpPart_some h₃
  refine ⟨⟨(parseSign val).1, I, f, x, hIok, hfok⟩, ?_⟩
  have hval := parseSign_spec val
  rw [hI, hf, hx, hcs₃, List.append_nil] at hval
  simp only [JsonNumber.render, List.append_assoc]
  exact hval.symm

/-! ## The fork's six-digit cap -/

theorem JsonNumber.keptDigits_truncFrac (p : JsonNumber) :
    p.truncFrac.keptDigits = p.keptDigits := by
  unfold JsonNumber.keptDigits JsonNumber.keptFrac JsonNumber.intDigits
  cases hf : p.fracPart <;> simp [JsonNumber.truncFrac, hf]

theorem JsonNumber.pointOfs_truncFrac (p : JsonNumber) :
    p.truncFrac.pointOfs = p.pointOfs := by
  unfold JsonNumber.pointOfs
  cases hf : p.fracPart <;> simp [JsonNumber.truncFrac, hf]

/-- **Fraction digits past the sixth never change what `ParseFixedPoint` returns**: they are
neither added to the value nor rejected. -/
theorem ParseFixedPoint_truncate (p : JsonNumber) (decimals : Int) :
    ParseFixedPoint p.render decimals = ParseFixedPoint p.truncFrac.render decimals := by
  rw [ParseFixedPoint_render, ParseFixedPoint_render]
  unfold fixedPointOf
  rw [JsonNumber.keptDigits_truncFrac, JsonNumber.pointOfs_truncFrac]
  rfl

/-- **What `ParseFixedPoint` returns is exact for the digits it keeps**: the integer digits and
the first six fraction digits, scaled by ten to the exponent less the kept fraction digits plus
`decimals`. -/
theorem fixedPointOf_value {p : JsonNumber} {decimals out : Int}
    (h : fixedPointOf p decimals = some out) :
    (out : ℚ) = (if p.negative then -1 else 1) * (digitsValue p.keptDigits : ℚ) *
      10 ^ ((if p.expNegative then -p.expValue else p.expValue) - p.pointOfs + decimals) := by
  unfold fixedPointOf at h
  simp only at h
  generalize (if p.expNegative then -p.expValue else p.expValue) = X at h ⊢
  set tz := trailingZeros p.keptDigits
  set sig := digitsValue p.keptDigits / 10 ^ tz
  have hok : ∀ {c : Prop} [Decidable c] {x : Option Int}, (if c then none else x) = some out →
      ¬c ∧ x = some out := by
    intro c _ x hx
    by_cases hc : c
    · rw [if_pos hc] at hx
      cases hx
    · exact ⟨hc, by rwa [if_neg hc] at hx⟩
  obtain ⟨-, h⟩ := hok h
  obtain ⟨-, h⟩ := hok h
  obtain ⟨h3, h⟩ := hok h
  cases h
  have hE : 0 ≤ X - p.pointOfs + tz + decimals := by omega
  have hpow : (10 : ℚ) ^ (X - p.pointOfs + tz + decimals).toNat =
      10 ^ tz * 10 ^ (X - p.pointOfs + decimals) := by
    rw [← zpow_natCast, Int.toNat_of_nonneg hE,
      show X - p.pointOfs + tz + decimals = (tz : ℤ) + (X - p.pointOfs + decimals) by ring,
      zpow_add₀ (by norm_num), zpow_natCast]
  have hsig : (sig : ℚ) * 10 ^ tz = digitsValue p.keptDigits := by
    exact_mod_cast digitsValue_div_mul p.keptDigits
  cases p.negative
  · simp only [Bool.false_eq_true, if_false]
    push_cast
    rw [hpow, ← mul_assoc, hsig]
    ring
  · simp only [if_true]
    push_cast
    rw [hpow, neg_mul, ← mul_assoc, hsig]
    ring

theorem digitsValue_intDigits (p : JsonNumber) (f : List Char) :
    digitsValue (p.intDigits ++ f) = digitsValue (p.intPart ++ f) := by
  unfold JsonNumber.intDigits
  split_ifs with h
  · rw [h, List.nil_append, List.cons_append, digitsValue, digitsValue, List.foldl_cons]
    rfl
  · rfl

/-- **Up to six fraction digits, `ParseFixedPoint` is exact**: what it returns is the number
scaled to `decimals` decimals. -/
theorem ParseFixedPoint_exact {p : JsonNumber} (hfrac : (p.fracPart.getD []).length ≤ 6)
    {decimals out : Int} (h : ParseFixedPoint p.render decimals = some out) :
    (out : ℚ) = p.value * 10 ^ decimals := by
  rw [ParseFixedPoint_render] at h
  have hkept : p.keptDigits = p.intDigits ++ p.fracPart.getD [] := by
    rw [JsonNumber.keptDigits, JsonNumber.keptFrac, List.take_of_length_le hfrac]
  have hpofs : p.pointOfs = (p.fracPart.getD []).length := by
    rw [JsonNumber.pointOfs, Nat.min_eq_right hfrac]
  rw [fixedPointOf_value h, hkept, hpofs, digitsValue_intDigits, JsonNumber.value,
    zpow_add₀ (show (10 : ℚ) ≠ 0 by norm_num)]
  ring

/-- `ParseFixedPoint("0.0000001", 6)`, with the RPC default of six decimals, succeeds with `0`
although `10⁻⁷ · 10⁶` is not an integer; `ParseFixedPoint("0.00000001", 8)` gives `0`, not
the `1` the unit tests expect. -/
theorem ParseFixedPoint_drops_seventh_digit :
    ParseFixedPoint "0.0000001".toList 6 = some 0 ∧
      ParseFixedPoint "0.00000001".toList 8 = some 0 := by
  decide

end NowpConsensus
