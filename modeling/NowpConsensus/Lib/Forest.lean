import Mathlib.Tactic

/-!
# Forests given by parent pointers

A forest on a type `α`: each node has at most one parent, and a depth that is zero at a root and
one more than its parent's elsewhere (`IsDepth`), which also makes the parent relation
well-founded. `up k x` is the node `k` parents above `x`; `a` is an ancestor of `x`, or `x`
itself, when it is `up k x` for some `k` (`AncestorOrSelf`).

* `Forest.up_eq_some_iff`: `x` has a node `k` parents above it exactly when `k` is at most its
  depth;
* `Forest.AncestorOrSelf.eq_of_depth_eq`: two ancestors of a node at one depth are equal;
* `Forest.AncestorOrSelf.of_depth_le`: of two ancestors of a node, the shallower is an ancestor
  of the deeper;
* `Forest.IsMeet`: the highest common ancestor of two nodes, the one every common ancestor lies
  above; `Forest.isMeet_up_of_first` finds it for two nodes of one depth as the first place where
  walking both up in step meets, and `Forest.common_iff_of_ancestor` brings two nodes to one
  depth without changing their common ancestors.
-/

namespace Forest

variable {α : Type*} (parent : α → Option α)

/-- The node `k` parents above `x`, if there is one. -/
def up : Nat → α → Option α
  | 0, x => some x
  | k + 1, x => (parent x).bind (up k)

/-- `a` is `x` or one of its ancestors. -/
def AncestorOrSelf (a x : α) : Prop := ∃ k, up parent k x = some a

/-- `c` is the highest common ancestor of `x` and `y`: a common ancestor, above which every other
one lies. -/
def IsMeet (c x y : α) : Prop :=
  AncestorOrSelf parent c x ∧ AncestorOrSelf parent c y ∧
    ∀ c', AncestorOrSelf parent c' x → AncestorOrSelf parent c' y → AncestorOrSelf parent c' c

/-- A depth of the forest: zero at a root, one more than the parent's elsewhere. -/
structure IsDepth (depth : α → Nat) : Prop where
  root : ∀ x, parent x = none → depth x = 0
  parent_eq : ∀ x y, parent x = some y → depth x = depth y + 1

variable {parent}

@[simp]
theorem up_zero (x : α) : up parent 0 x = some x := rfl

theorem up_succ (k : Nat) (x : α) : up parent (k + 1) x = (parent x).bind (up parent k) := rfl

theorem up_add (j k : Nat) (x : α) : up parent (j + k) x = (up parent k x).bind (up parent j) := by
  induction k generalizing x with
  | zero => rfl
  | succ k ih =>
    rw [← Nat.add_assoc, up_succ, up_succ]
    cases parent x with
    | none => rfl
    | some y => exact ih y

/-- One more step up is the parent of the last node. -/
theorem up_succ' (k : Nat) (x : α) : up parent (k + 1) x = (up parent k x).bind parent := by
  rw [Nat.add_comm, up_add]
  cases up parent k x with
  | none => rfl
  | some a =>
    rw [Option.bind_some, Option.bind_some, up_succ]
    cases parent a <;> rfl

/-- Going up past a node's parent: the steps to the node, one to its parent, then more. -/
theorem up_add_succ_of_parent {j k : Nat} {x w y a : α} (hw : up parent k x = some w)
    (hy : parent w = some y) (ha : up parent j y = some a) : up parent (j + (k + 1)) x = some a := by
  rw [up_add, up_succ', hw, Option.bind_some, hy, Option.bind_some, ha]

theorem AncestorOrSelf.refl (x : α) : AncestorOrSelf parent x x := ⟨0, rfl⟩

theorem AncestorOrSelf.trans {a b x : α} (hab : AncestorOrSelf parent a b)
    (hbx : AncestorOrSelf parent b x) : AncestorOrSelf parent a x := by
  obtain ⟨j, hj⟩ := hab
  obtain ⟨k, hk⟩ := hbx
  exact ⟨j + k, by rw [up_add, hk, Option.bind_some, hj]⟩

theorem IsMeet.of_common {c x y x' y' : α}
    (h : ∀ c, AncestorOrSelf parent c x ∧ AncestorOrSelf parent c y ↔
      AncestorOrSelf parent c x' ∧ AncestorOrSelf parent c y') (hm : IsMeet parent c x y) :
    IsMeet parent c x' y' := by
  obtain ⟨hx, hy, hmax⟩ := hm
  obtain ⟨hx', hy'⟩ := (h c).mp ⟨hx, hy⟩
  refine ⟨hx', hy', fun c' h₁ h₂ => ?_⟩
  obtain ⟨h₁', h₂'⟩ := (h c').mpr ⟨h₁, h₂⟩
  exact hmax c' h₁' h₂'

/-- The meet of two nodes depends only on their common ancestors. -/
theorem isMeet_congr {x y x' y' : α}
    (h : ∀ c, AncestorOrSelf parent c x ∧ AncestorOrSelf parent c y ↔
      AncestorOrSelf parent c x' ∧ AncestorOrSelf parent c y') (c : α) :
    IsMeet parent c x y ↔ IsMeet parent c x' y' :=
  ⟨IsMeet.of_common h, IsMeet.of_common fun c => (h c).symm⟩

section Depth

variable {depth : α → Nat} (hd : IsDepth parent depth)
include hd

theorem depth_up {k : Nat} {x a : α} (h : up parent k x = some a) : depth a + k = depth x := by
  induction k generalizing x with
  | zero =>
    cases h
    rfl
  | succ k ih =>
    rw [up_succ] at h
    cases hp : parent x with
    | none => rw [hp] at h; cases h
    | some y =>
      rw [hp, Option.bind_some] at h
      have := ih h
      have := hd.parent_eq x y hp
      omega

theorem up_eq_some_iff {k : Nat} {x : α} : (∃ a, up parent k x = some a) ↔ k ≤ depth x := by
  refine ⟨fun ⟨a, ha⟩ => by have := depth_up hd ha; omega, fun hk => ?_⟩
  induction k generalizing x with
  | zero => exact ⟨x, rfl⟩
  | succ k ih =>
    rw [up_succ]
    cases hp : parent x with
    | none =>
      have := hd.root x hp
      omega
    | some y =>
      have := hd.parent_eq x y hp
      exact ih (by omega)

theorem up_eq_none {k : Nat} {x : α} (hk : depth x < k) : up parent k x = none := by
  cases h : up parent k x with
  | none => rfl
  | some a =>
    have := (up_eq_some_iff hd).mp ⟨a, h⟩
    omega

theorem AncestorOrSelf.depth_le {a x : α} (h : AncestorOrSelf parent a x) : depth a ≤ depth x := by
  obtain ⟨k, hk⟩ := h
  have := depth_up hd hk
  omega

/-- An ancestor is found by going up the difference of the depths. -/
theorem AncestorOrSelf.up_eq {a x : α} (h : AncestorOrSelf parent a x) :
    up parent (depth x - depth a) x = some a := by
  obtain ⟨k, hk⟩ := h
  have := depth_up hd hk
  rw [show depth x - depth a = k by omega, hk]

/-- Two ancestors of a node at one depth are the same node. -/
theorem AncestorOrSelf.eq_of_depth_eq {a b x : α} (ha : AncestorOrSelf parent a x)
    (hb : AncestorOrSelf parent b x) (h : depth a = depth b) : a = b := by
  have hua := ha.up_eq hd
  rw [h, hb.up_eq hd] at hua
  exact (Option.some.inj hua).symm

/-- Of two ancestors of one node, the shallower is an ancestor of the deeper. -/
theorem AncestorOrSelf.of_depth_le {a b x : α} (ha : AncestorOrSelf parent a x)
    (hb : AncestorOrSelf parent b x) (h : depth a ≤ depth b) : AncestorOrSelf parent a b := by
  have hua := ha.up_eq hd
  have hbx := hb.depth_le hd
  rw [show depth x - depth a = (depth b - depth a) + (depth x - depth b) by omega, up_add,
    hb.up_eq hd, Option.bind_some] at hua
  exact ⟨_, hua⟩

/-- Raising one of two nodes to an ancestor no shallower than the other keeps their common
ancestors. -/
theorem common_iff_of_ancestor {x x' y c : α} (hx : AncestorOrSelf parent x x')
    (hdepth : depth y ≤ depth x) :
    AncestorOrSelf parent c x ∧ AncestorOrSelf parent c y ↔
      AncestorOrSelf parent c x' ∧ AncestorOrSelf parent c y := by
  constructor
  · rintro ⟨hcx, hcy⟩
    exact ⟨hcx.trans hx, hcy⟩
  · rintro ⟨hcx', hcy⟩
    have := hcy.depth_le hd
    exact ⟨hcx'.of_depth_le hd hx (by omega), hcy⟩

/-- Walking two nodes of one depth up in step without meeting in the first `k` steps, every
common ancestor lies at or above the node reached after `k` steps. -/
theorem exists_up_of_first {x y : α} (hxy : depth x = depth y) {k : Nat}
    (hmin : ∀ j < k, up parent j x ≠ up parent j y) {c' : α} (hx : AncestorOrSelf parent c' x)
    (hy : AncestorOrSelf parent c' y) : ∃ c, up parent k x = some c ∧ AncestorOrSelf parent c' c := by
  have hux := hx.up_eq hd
  have huy := hy.up_eq hd
  rw [← hxy] at huy
  have hkj : k ≤ depth x - depth c' := by
    by_contra hlt
    exact hmin _ (Nat.lt_of_not_le hlt) (hux.trans huy.symm)
  rw [← Nat.sub_add_cancel hkj, up_add] at hux
  cases hc : up parent k x with
  | none => rw [hc] at hux; cases hux
  | some c =>
    rw [hc, Option.bind_some] at hux
    exact ⟨c, rfl, _, hux⟩

/-- Walking two nodes of one depth up in step, the first place where the walks meet is their
highest common ancestor, if they have a common ancestor at all; where there is none, the walks
meet only once both have run off the forest. -/
theorem isMeet_up_of_first {x y : α} (hxy : depth x = depth y) {k : Nat}
    (hk : up parent k x = up parent k y) (hmin : ∀ j < k, up parent j x ≠ up parent j y) :
    ∀ c, up parent k x = some c ↔ IsMeet parent c x y := by
  intro c
  constructor
  · intro hc
    refine ⟨⟨k, hc⟩, ⟨k, hk ▸ hc⟩, fun c' hx hy => ?_⟩
    obtain ⟨c₀, hc₀, h⟩ := exists_up_of_first hd hxy hmin hx hy
    rw [hc] at hc₀
    exact Option.some.inj hc₀ ▸ h
  · rintro ⟨hx, hy, hmax⟩
    obtain ⟨c₀, hc₀, h⟩ := exists_up_of_first hd hxy hmin hx hy
    have h' : AncestorOrSelf parent c₀ c := hmax c₀ ⟨k, hc₀⟩ ⟨k, hk ▸ hc₀⟩
    have := (h.depth_le hd).antisymm (h'.depth_le hd)
    rw [hc₀, h'.eq_of_depth_eq hd (AncestorOrSelf.refl c) this.symm]

end Depth

end Forest
