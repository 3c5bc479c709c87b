import Mathlib.Tactic

/-!
# Runs that stop early

A shallow model of imperative code returns `Except Abort α`: `.ok a` when the code returns
`a`, and `.error e` when it stops on the way, by a failed `assert`, by an exception that escapes
it, by reading through a null pointer or past the end of a vector, or by a signed arithmetic
overflow, whose behaviour C++ leaves undefined. The models are written
with `do` and `match`; this module has the facts about `Except`'s bind that their proofs peel a
run apart with:

* `Except.bind_eq_ok`: a composite run returns exactly when both stages do;
* `Except.bind_eq_error`: a composite run stops exactly when one of its stages does;
* `Except.isAssertion`: the observation "this run failed an assertion", decidable on any run;
* `Abort.vectorGet`: a vector read, which stops past the end;
* `Abort.negInt64`: the negation of an `int64_t`, which overflows on `INT64_MIN`.
-/

/-- How a run of the code stops without returning. -/
inductive Abort
  /-- An `assert` whose condition is false. -/
  | assertion
  /-- A thrown exception, with the text the code gives it. -/
  | exception (what : String)
  /-- A read through a null pointer. -/
  | nullDeref
  /-- A read past the end of a vector (`operator[]` out of range). -/
  | outOfRange
  /-- A signed integer operation whose result does not fit its type (undefined behaviour). -/
  | overflow
  deriving DecidableEq, Repr

namespace Except

variable {ε α β : Type} {x : Except ε α} {f : α → Except ε β}

@[simp]
theorem bind_ok_left (a : α) : ((Except.ok a : Except ε α) >>= f) = f a := rfl

@[simp]
theorem bind_error_left (e : ε) : ((Except.error e : Except ε α) >>= f) = .error e := rfl

/-- A composite run returns exactly when its first stage returns and the second stage, on that
value, returns. -/
theorem bind_eq_ok {b : β} : x >>= f = .ok b ↔ ∃ a, x = .ok a ∧ f a = .ok b := by
  cases x with
  | error e => simp
  | ok a => simp

/-- A composite run stops exactly when its first stage stops, or returns a value on which the
second stage stops. -/
theorem bind_eq_error {e : ε} :
    x >>= f = .error e ↔ x = .error e ∨ ∃ a, x = .ok a ∧ f a = .error e := by
  cases x with
  | error e' => simp
  | ok a => simp

/-- A run whose result is mapped returns exactly when the run does. -/
theorem map_eq_ok {g : α → β} {b : β} : x.map g = .ok b ↔ ∃ a, x = .ok a ∧ g a = b := by
  cases x with
  | error e => simp [Except.map]
  | ok a => simp [Except.map]

/-- A run whose result is mapped stops exactly when the run does. -/
theorem map_eq_error {g : α → β} {e : ε} : x.map g = .error e ↔ x = .error e := by
  cases x with
  | error e' => simp [Except.map]
  | ok a => simp [Except.map]

/-- Two runs with the same first stage agree after a map when their second stages do. -/
theorem map_bind_congr {γ : Type} {g : β → γ} {f' : α → Except ε β}
    (h : ∀ a, (f a).map g = (f' a).map g) : (x >>= f).map g = (x >>= f').map g := by
  cases x with
  | error e => rfl
  | ok a => exact h a

/-- A guarded run returns exactly when its guard does not hold and the rest returns. -/
@[simp]
theorem ite_error_eq_ok {c : Prop} [Decidable c] {e : ε} {y : Except ε α} {a : α} :
    (if c then .error e else y) = .ok a ↔ ¬c ∧ y = .ok a := by
  split_ifs with h <;> simp [h]

/-- A run that pairs each result with a second value has the same first components whatever that
value is. -/
theorem map_fst_bind_pair {γ : Type} (g : α → β) (c c' : γ) :
    (x >>= fun a => pure (g a, c)).map Prod.fst = (x >>= fun a => pure (g a, c')).map Prod.fst := by
  cases x <;> rfl

/-- Whether a run stopped on a failed assertion. -/
def isAssertion : Except Abort α → Bool
  | .error .assertion => true
  | _ => false

theorem isAssertion_iff {r : Except Abort α} : r.isAssertion = true ↔ r = .error .assertion := by
  rcases r with (_ | _ | _ | _ | _) | a <;> simp [isAssertion]

end Except

namespace Abort

/-- `v[i]` on a `std::vector`: the element, or a read past the end. -/
def vectorGet {α : Type} (v : List α) (i : Nat) : Except Abort α :=
  match v[i]? with
  | some a => .ok a
  | none => .error .outOfRange

@[simp]
theorem vectorGet_of_lt {α : Type} {v : List α} {i : Nat} (h : i < v.length) :
    vectorGet v i = .ok v[i] := by
  simp [vectorGet, h]

/-- A vector read returns exactly the element at that position. -/
theorem vectorGet_eq_ok {α : Type} {v : List α} {i : Nat} {a : α} :
    vectorGet v i = .ok a ↔ v[i]? = some a := by
  unfold vectorGet
  split <;> simp_all

/-- `-n` on an `int64_t`: the negation, or an overflow on `INT64_MIN`, whose negation does not
fit. -/
def negInt64 (n : Int64) : Except Abort Int64 :=
  if n = Int64.minValue then .error .overflow else .ok (-n)

theorem negInt64_of_ne {n : Int64} (h : n ≠ Int64.minValue) : negInt64 n = .ok (-n) := if_neg h

end Abort
