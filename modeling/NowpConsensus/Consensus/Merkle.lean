import NowpConsensus.Validation.CheckBlock

/-!
# Merkle roots

`ComputeMerkleRoot` and `BlockMerkleRoot` of `consensus/merkle.cpp`, over an arbitrary pair hash
`Hash` standing for `SHA256D64`. `ComputeMerkleRoot.loop` is the source's `while` loop: each pass
records whether two hashes paired at an even position are equal, and replaces the list by the
level above it, the last hash of an odd level being paired with itself.

* `ComputeMerkleRoot_eq_tree`: the loop refines the tree built top-down at the enclosing power
  of two (`MerkleTree.root`), and its flag is whether a node of that tree joins two equal
  subtrees (`MerkleTree.mutated`).
* `ComputeMerkleRoot_append`: on two lists of `2 ^ j` hashes the root is the pair hash of their
  roots, and it is mutated when a half is or when the two roots are equal.
* `ComputeMerkleRoot_duplicate`: the weakness (CVE-2012-2459) that the source's comment
  describes. On `2 ^ j` times an odd number, at least three, of hashes, repeating the last `2 ^ j`
  of them keeps the root, and the longer list is reported mutated.
* `ComputeMerkleRoot_collision`: what the mutation flag buys. Two different nonempty lists with
  as many levels, the same root and neither mutated give a collision of `Hash`.
* `CheckBlock_duplicate`: with `BlockMerkleRoot` as the codec's Merkle root, the block that
  repeats the last transactions that way under the header of a block whose root matches fails
  `CheckBlock` with `bad-txns-duplicate`, not with `bad-txnmrklroot`.
-/

namespace NowpConsensus

namespace ComputeMerkleRoot

/-- One pass of the loop: `SHA256D64` over consecutive pairs, after `push_back(hashes.back())`
on an odd level. -/
def level (Hash : uint256 → uint256 → uint256) : List uint256 → List uint256
  | a :: b :: rest => Hash a b :: level Hash rest
  | [a] => [Hash a a]
  | [] => []

/-- The scan of one level for `mutation`: two equal hashes at `pos` and `pos + 1`, `pos` even. -/
def pairEqual : List uint256 → Bool
  | a :: b :: rest => a == b || pairEqual rest
  | _ => false

variable {Hash : uint256 → uint256 → uint256}

@[simp]
theorem length_level (l : List uint256) : (level Hash l).length = (l.length + 1) / 2 := by
  fun_induction level Hash l with
  | case1 a b rest ih => simp only [List.length_cons, ih]; omega
  | case2 a => simp
  | case3 => rfl

/-- The `while (hashes.size() > 1)` loop, with the flag `mutation` it accumulates; the empty list
gives `uint256()`. -/
def loop (Hash : uint256 → uint256 → uint256) (hashes : List uint256) (mutation : Bool) :
    uint256 × Bool :=
  if 1 < hashes.length then loop Hash (level Hash hashes) (mutation || pairEqual hashes)
  else (hashes.headD 0, mutation)
termination_by hashes.length
decreasing_by rw [length_level]; omega

end ComputeMerkleRoot

/-- `ComputeMerkleRoot(hashes, &mutated)`: the root and the mutation flag. -/
def ComputeMerkleRoot (Hash : uint256 → uint256 → uint256) (hashes : List uint256) :
    uint256 × Bool :=
  ComputeMerkleRoot.loop Hash hashes false

/-- `BlockMerkleRoot(block, &mutated)`: the tree over the hashes of the block's transactions. -/
def BlockMerkleRoot (Hash : uint256 → uint256 → uint256) (GetHash : CTransaction → uint256)
    (block : CBlock) : uint256 × Bool :=
  ComputeMerkleRoot Hash (block.vtx.map GetHash)

/-! ## The tree the loop computes -/

namespace MerkleTree

variable (Hash : uint256 → uint256 → uint256)

/-- The root of the Merkle tree over `xs` with `2 ^ k` leaf slots, built top-down: the hashes
past the first `2 ^ (k - 1)` form the right subtree, and where there are none the right subtree
is the left one again. -/
def root : Nat → List uint256 → uint256
  | 0, xs => xs.headD 0
  | k + 1, xs =>
    if xs.length ≤ 2 ^ k then Hash (root k xs) (root k xs)
    else Hash (root k (xs.take (2 ^ k))) (root k (xs.drop (2 ^ k)))

/-- Whether a node of that tree joins two subtrees with the same root, the nodes that repeat
their left subtree apart. -/
def mutated : Nat → List uint256 → Bool
  | 0, _ => false
  | k + 1, xs =>
    if xs.length ≤ 2 ^ k then mutated k xs
    else mutated k (xs.take (2 ^ k)) || mutated k (xs.drop (2 ^ k)) ||
      root Hash k (xs.take (2 ^ k)) == root Hash k (xs.drop (2 ^ k))

variable {Hash : uint256 → uint256 → uint256} {k : Nat} {xs : List uint256}

theorem root_succ_of_le (h : xs.length ≤ 2 ^ k) :
    root Hash (k + 1) xs = Hash (root Hash k xs) (root Hash k xs) := by
  rw [root, if_pos h]

theorem root_succ_of_not_le (h : ¬ xs.length ≤ 2 ^ k) :
    root Hash (k + 1) xs = Hash (root Hash k (xs.take (2 ^ k))) (root Hash k (xs.drop (2 ^ k))) := by
  rw [root, if_neg h]

theorem mutated_succ_of_le (h : xs.length ≤ 2 ^ k) :
    mutated Hash (k + 1) xs = mutated Hash k xs := by
  rw [mutated, if_pos h]

theorem mutated_succ_of_not_le (h : ¬ xs.length ≤ 2 ^ k) :
    mutated Hash (k + 1) xs = (mutated Hash k (xs.take (2 ^ k)) ||
      mutated Hash k (xs.drop (2 ^ k)) ||
        root Hash k (xs.take (2 ^ k)) == root Hash k (xs.drop (2 ^ k))) := by
  rw [mutated, if_neg h]

end MerkleTree

namespace ComputeMerkleRoot

variable {Hash : uint256 → uint256 → uint256}

theorem loop_of_one_lt {hashes : List uint256} (m : Bool) (h : 1 < hashes.length) :
    loop Hash hashes m = loop Hash (level Hash hashes) (m || pairEqual hashes) := by
  rw [loop, if_pos h]

theorem loop_of_le_one {hashes : List uint256} (m : Bool) (h : hashes.length ≤ 1) :
    loop Hash hashes m = (hashes.headD 0, m) := by
  rw [loop, if_neg (by omega)]

/-- The flag only accumulates: the root does not depend on the flag the loop starts from. -/
theorem loop_mutation (hashes : List uint256) (m : Bool) :
    loop Hash hashes m = ((loop Hash hashes false).1, m || (loop Hash hashes false).2) := by
  induction hn : hashes.length using Nat.strong_induction_on generalizing hashes m with
  | _ n ih =>
    by_cases h : 1 < hashes.length
    · have hlt : (level Hash hashes).length < n := by rw [length_level]; omega
      rw [loop_of_one_lt m h, loop_of_one_lt false h, ih _ hlt _ _ rfl,
        ih _ hlt _ (false || pairEqual hashes) rfl]
      simp [Bool.or_assoc]
    · rw [loop_of_le_one m (by omega), loop_of_le_one false (by omega), Bool.or_false]

theorem fst_loop (hashes : List uint256) (m m' : Bool) :
    (loop Hash hashes m).1 = (loop Hash hashes m').1 := by
  rw [loop_mutation hashes m, loop_mutation hashes m']

theorem level_append {l₁ : List uint256} (h : l₁.length % 2 = 0) (l₂ : List uint256) :
    level Hash (l₁ ++ l₂) = level Hash l₁ ++ level Hash l₂ := by
  fun_induction level Hash l₁ with
  | case1 a b rest ih =>
    simp only [List.length_cons] at h
    simp only [List.cons_append, level, ih (by omega)]
  | case2 a => simp at h
  | case3 => rfl

theorem pairEqual_append {l₁ : List uint256} (h : l₁.length % 2 = 0) (l₂ : List uint256) :
    pairEqual (l₁ ++ l₂) = (pairEqual l₁ || pairEqual l₂) := by
  fun_induction pairEqual l₁ with
  | case1 a b rest ih =>
    simp only [List.length_cons] at h
    simp only [List.cons_append, pairEqual, ih (by omega), Bool.or_assoc]
  | case2 l hl =>
    rcases l with _ | ⟨a, _ | ⟨b, rest⟩⟩
    · rfl
    · simp at h
    · exact absurd rfl (hl a b rest)

theorem length_level_of_length {l : List uint256} {j k : Nat}
    (h : l.length = 2 ^ (j + 1) * k) : (level Hash l).length = 2 ^ j * k := by
  have h2 : 2 ^ (j + 1) * k = 2 * (2 ^ j * k) := by ring
  rw [length_level, h, h2]
  omega

theorem even_length_of_length {l : List uint256} {j k : Nat}
    (h : l.length = 2 ^ (j + 1) * k) : l.length % 2 = 0 := by
  have h2 : 2 ^ (j + 1) * k = 2 * (2 ^ j * k) := by ring
  rw [h, h2]
  omega

/-! ## Two complete trees -/

/-- The loop on two lists of `2 ^ j` hashes, from any flag. -/
theorem loop_append_pow (j : Nat) {l₁ l₂ : List uint256} (h₁ : l₁.length = 2 ^ j)
    (h₂ : l₂.length = 2 ^ j) (m : Bool) :
    loop Hash (l₁ ++ l₂) m =
      (Hash (loop Hash l₁ false).1 (loop Hash l₂ false).1,
        m || (loop Hash l₁ false).2 || (loop Hash l₂ false).2 ||
          ((loop Hash l₁ false).1 == (loop Hash l₂ false).1)) := by
  induction j generalizing l₁ l₂ m with
  | zero =>
    obtain ⟨a, rfl⟩ := List.length_eq_one_iff.1 h₁
    obtain ⟨b, rfl⟩ := List.length_eq_one_iff.1 h₂
    rw [loop_of_one_lt m (by simp), loop_of_le_one _ (by simp), loop_of_le_one false (by simp),
      loop_of_le_one false (by simp)]
    simp [level, pairEqual]
  | succ j ih =>
    have h₁' : l₁.length = 2 ^ (j + 1) * 1 := by rw [h₁, Nat.mul_one]
    have h₂' : l₂.length = 2 ^ (j + 1) * 1 := by rw [h₂, Nat.mul_one]
    have hpow : 1 < 2 ^ (j + 1) := Nat.one_lt_two_pow (by omega)
    have hlong : 1 < (l₁ ++ l₂).length := by rw [List.length_append]; omega
    rw [loop_of_one_lt m hlong, level_append (even_length_of_length h₁'),
      pairEqual_append (even_length_of_length h₁'),
      ih (by rw [length_level_of_length h₁', Nat.mul_one])
        (by rw [length_level_of_length h₂', Nat.mul_one]),
      loop_of_one_lt false (by omega : 1 < l₁.length), loop_of_one_lt false (by omega : 1 < l₂.length),
      loop_mutation (level Hash l₁) (false || pairEqual l₁),
      loop_mutation (level Hash l₂) (false || pairEqual l₂)]
    simp only [Bool.false_or, Bool.or_assoc, Bool.or_left_comm]

/-! ## Repeating the last hashes -/

theorem one_lt_length_append {l : List uint256} {j k : Nat} (h : l.length = 2 ^ (j + 1) * k)
    (hk : 0 < k) (t : List uint256) : 1 < (l ++ t).length := by
  have h2 : 2 ^ (j + 1) * k = 2 * (2 ^ j * k) := by ring
  have := Nat.mul_pos (Nat.two_pow_pos j) hk
  rw [List.length_append, h, h2]
  omega

/-- One pass of the loop over a list that starts with an even number, two at least, of hashes. -/
theorem loop_append_step {p : List uint256} {j k : Nat} (hp : p.length = 2 ^ (j + 1) * k)
    (hk : 0 < k) (t : List uint256) (m : Bool) :
    loop Hash (p ++ t) m = loop Hash (level Hash p ++ level Hash t) (m || pairEqual (p ++ t)) := by
  rw [loop_of_one_lt m (one_lt_length_append hp hk t), level_append (even_length_of_length hp)]

/-- On `2 ^ j` times an odd number (at least three) of hashes, repeating the last `2 ^ j` leaves
the same list after `j` levels but for a repeated last hash, which then pairs with itself. -/
theorem loop_duplicate (j : Nat) {k : Nat} {p s : List uint256} (hs : s.length = 2 ^ j)
    (hp : p.length = 2 ^ (j + 1) * k) (hk : 0 < k) (m : Bool) :
    loop Hash (p ++ s ++ s) m = ((loop Hash (p ++ s) m).1, true) := by
  induction j generalizing p s m with
  | zero =>
    obtain ⟨x, rfl⟩ := List.length_eq_one_iff.1 hs
    have hlevel : level Hash ([x] ++ [x]) = level Hash [x] := rfl
    have hpair : pairEqual (p ++ ([x] ++ [x])) = true := by
      simp [pairEqual_append (even_length_of_length hp), pairEqual]
    rw [List.append_assoc, loop_append_step hp hk, loop_append_step hp hk, hlevel, hpair,
      Bool.or_true, loop_mutation _ true, Bool.true_or]
    exact Prod.ext (fst_loop _ _ _) rfl
  | succ j ih =>
    have hs' : s.length = 2 ^ (j + 1) * 1 := by rw [hs, Nat.mul_one]
    have hsl : (level Hash s).length = 2 ^ j := by rw [length_level_of_length hs', Nat.mul_one]
    rw [List.append_assoc, loop_append_step hp hk, loop_append_step hp hk,
      level_append (even_length_of_length hs'), ← List.append_assoc,
      ih hsl (length_level_of_length hp)]
    exact Prod.ext (fst_loop _ _ _) rfl

/-! ## Binding -/

theorem level_ne_nil {l : List uint256} (h : l ≠ []) : level Hash l ≠ [] := by
  have := List.length_pos_iff.2 h
  rw [← List.length_pos_iff, length_level]
  omega

/-- The depth of the tree, `Nat.clog 2` of the number of hashes, drops by one per level. -/
theorem clog_length_level {l : List uint256} (h : 1 < l.length) :
    Nat.clog 2 (level Hash l).length + 1 = Nat.clog 2 l.length := by
  have hdiv : (l.length + 2 - 1) / 2 = (l.length + 1) / 2 := by omega
  rw [length_level, Nat.clog_of_two_le (by norm_num) h, hdiv]

theorem length_eq_one_of_clog_eq_zero {l : List uint256} (hne : l ≠ [])
    (hd : Nat.clog 2 l.length = 0) : l.length = 1 := by
  have := List.length_pos_iff.2 hne
  by_contra hn
  have := Nat.clog_pos (b := 2) (by norm_num) (by omega : 1 < l.length)
  omega

theorem one_lt_length_of_clog_eq_succ {l : List uint256} {d : Nat}
    (hd : Nat.clog 2 l.length = d + 1) : 1 < l.length := by
  by_contra hn
  rw [Nat.clog_of_right_le_one (by omega)] at hd
  omega

/-- A run that ends unmutated has no equal pair on its first level, and the run from the level
above ends the same way. -/
theorem loop_level_of_eq {l : List uint256} {root : uint256} (h : 1 < l.length)
    (hr : loop Hash l false = (root, false)) :
    pairEqual l = false ∧ loop Hash (level Hash l) false = (root, false) := by
  rw [loop_of_one_lt false h, Bool.false_or, loop_mutation, Prod.mk.injEq,
    Bool.or_eq_false_iff] at hr
  exact ⟨hr.2.1, Prod.ext hr.1 hr.2.2⟩

section Binding

variable (hinj : ∀ a b c d, Hash a b = Hash c d → a = c ∧ b = d)
include hinj

/-- Without a collision, a level with no equal pair determines the level below it. -/
theorem level_inj {l₁ l₂ : List uint256} (h : level Hash l₁ = level Hash l₂)
    (h₁ : pairEqual l₁ = false) (h₂ : pairEqual l₂ = false) : l₁ = l₂ := by
  fun_induction level Hash l₁ generalizing l₂ with
  | case1 a b rest ih =>
    rcases l₂ with _ | ⟨c, _ | ⟨d, rest₂⟩⟩
    · simp [level] at h
    · simp only [level, List.cons.injEq] at h
      obtain ⟨rfl, rfl⟩ := hinj _ _ _ _ h.1
      simp [pairEqual] at h₁
    · simp only [level, List.cons.injEq] at h
      obtain ⟨rfl, rfl⟩ := hinj _ _ _ _ h.1
      simp only [pairEqual, Bool.or_eq_false_iff] at h₁ h₂
      rw [ih h.2 h₁.2 h₂.2]
  | case2 a =>
    rcases l₂ with _ | ⟨c, _ | ⟨d, rest₂⟩⟩
    · simp [level] at h
    · simp only [level, List.cons.injEq, and_true] at h
      rw [(hinj _ _ _ _ h).1]
    · simp only [level, List.cons.injEq] at h
      obtain ⟨rfl, rfl⟩ := hinj _ _ _ _ h.1.symm
      simp [pairEqual] at h₂
  | case3 =>
    rcases l₂ with _ | ⟨c, _ | ⟨d, rest₂⟩⟩ <;> simp [level] at h ⊢

/-- Without a collision, two nonempty lists of the same depth with the same root and neither
mutated are equal; by induction on the depth, one level at a time. -/
theorem loop_inj (d : Nat) {l₁ l₂ : List uint256} {root : uint256} (hne₁ : l₁ ≠ [])
    (hne₂ : l₂ ≠ []) (hd₁ : Nat.clog 2 l₁.length = d) (hd₂ : Nat.clog 2 l₂.length = d)
    (h₁ : loop Hash l₁ false = (root, false)) (h₂ : loop Hash l₂ false = (root, false)) :
    l₁ = l₂ := by
  induction d generalizing l₁ l₂ with
  | zero =>
    obtain ⟨a, rfl⟩ := List.length_eq_one_iff.1 (length_eq_one_of_clog_eq_zero hne₁ hd₁)
    obtain ⟨c, rfl⟩ := List.length_eq_one_iff.1 (length_eq_one_of_clog_eq_zero hne₂ hd₂)
    rw [loop_of_le_one false (by simp), Prod.mk.injEq, List.headD_cons] at h₁ h₂
    rw [h₁.1, h₂.1]
  | succ d ih =>
    have hgt₁ := one_lt_length_of_clog_eq_succ hd₁
    have hgt₂ := one_lt_length_of_clog_eq_succ hd₂
    obtain ⟨hpe₁, hl₁⟩ := loop_level_of_eq hgt₁ h₁
    obtain ⟨hpe₂, hl₂⟩ := loop_level_of_eq hgt₂ h₂
    have hd₁' : Nat.clog 2 (level Hash l₁).length + 1 = d + 1 := (clog_length_level hgt₁).trans hd₁
    have hd₂' : Nat.clog 2 (level Hash l₂).length + 1 = d + 1 := (clog_length_level hgt₂).trans hd₂
    have hlevel := ih (level_ne_nil hne₁) (level_ne_nil hne₂) (by omega) (by omega) hl₁ hl₂
    exact level_inj hinj hlevel hpe₁ hpe₂

end Binding

/-! ## Refinement of the tree -/

/-- The level above a list of more than `2 ^ (k + 1)` hashes, split where the tree splits. -/
theorem level_take_drop (Hash : uint256 → uint256 → uint256) {xs : List uint256} {k : Nat}
    (ht : (xs.take (2 ^ (k + 1))).length = 2 ^ (k + 1)) :
    (level Hash xs).take (2 ^ k) = level Hash (xs.take (2 ^ (k + 1))) ∧
      (level Hash xs).drop (2 ^ k) = level Hash (xs.drop (2 ^ (k + 1))) := by
  have heven : (xs.take (2 ^ (k + 1))).length % 2 = 0 := by rw [ht, pow_succ]; omega
  have hlen : (level Hash (xs.take (2 ^ (k + 1)))).length = 2 ^ k := by
    rw [length_level, ht, pow_succ]; omega
  have hx : level Hash (xs.take (2 ^ (k + 1)) ++ xs.drop (2 ^ (k + 1))) =
      level Hash (xs.take (2 ^ (k + 1))) ++ level Hash (xs.drop (2 ^ (k + 1))) :=
    level_append heven _
  rw [List.take_append_drop] at hx
  rw [hx]
  exact ⟨List.take_left' hlen, List.drop_left' hlen⟩

/-- One level of the loop is one level of the tree: the tree with `2 ^ (k + 1)` slots over the
hashes is the tree with `2 ^ k` slots over the level above them. -/
theorem tree_succ_level (Hash : uint256 → uint256 → uint256) (k : Nat) {xs : List uint256} (hne : xs ≠ [])
    (hlen : xs.length ≤ 2 ^ (k + 1)) :
    MerkleTree.root Hash (k + 1) xs = MerkleTree.root Hash k (level Hash xs) ∧
      MerkleTree.mutated Hash (k + 1) xs =
        (pairEqual xs || MerkleTree.mutated Hash k (level Hash xs)) := by
  induction k generalizing xs with
  | zero =>
    rcases xs with _ | ⟨a, _ | ⟨b, _ | ⟨c, rest⟩⟩⟩
    · exact absurd rfl hne
    · simp [MerkleTree.root, MerkleTree.mutated, level, pairEqual]
    · simp [MerkleTree.root, MerkleTree.mutated, level, pairEqual, List.take_one]
    · simp at hlen
  | succ k ih =>
    by_cases hfit : xs.length ≤ 2 ^ (k + 1)
    · have hfit' : (level Hash xs).length ≤ 2 ^ k := by
        rw [length_level]
        rw [pow_succ] at hfit
        omega
      obtain ⟨hroot, hmut⟩ := ih hne hfit
      rw [MerkleTree.root_succ_of_le hfit, MerkleTree.root_succ_of_le hfit', hroot,
        MerkleTree.mutated_succ_of_le hfit, MerkleTree.mutated_succ_of_le hfit', hmut]
      exact ⟨rfl, rfl⟩
    · have ht : (xs.take (2 ^ (k + 1))).length = 2 ^ (k + 1) := by
        rw [List.length_take]
        omega
      have hdne : xs.drop (2 ^ (k + 1)) ≠ [] := by
        rw [← List.length_pos_iff, List.length_drop]
        omega
      have hdlen : (xs.drop (2 ^ (k + 1))).length ≤ 2 ^ (k + 1) := by
        rw [List.length_drop]
        rw [pow_succ 2 (k + 1)] at hlen
        omega
      have htne : xs.take (2 ^ (k + 1)) ≠ [] := by
        rw [← List.length_pos_iff, ht]
        exact Nat.two_pow_pos _
      have hover : ¬ (level Hash xs).length ≤ 2 ^ k := by
        rw [length_level]
        rw [pow_succ] at hfit
        omega
      obtain ⟨htake, hdrop⟩ := level_take_drop Hash ht
      obtain ⟨hrt, hmt⟩ := ih htne ht.le
      obtain ⟨hrd, hmd⟩ := ih hdne hdlen
      have hpair : pairEqual xs =
          (pairEqual (xs.take (2 ^ (k + 1))) || pairEqual (xs.drop (2 ^ (k + 1)))) := by
        rw [← pairEqual_append (by rw [ht, pow_succ]; omega), List.take_append_drop]
      rw [MerkleTree.root_succ_of_not_le hfit, MerkleTree.root_succ_of_not_le hover, hrt, hrd,
        htake, hdrop, MerkleTree.mutated_succ_of_not_le hfit,
        MerkleTree.mutated_succ_of_not_le hover, hmt, hmd, hrt, hrd, htake, hdrop, hpair]
      simp only [Bool.or_assoc, Bool.or_left_comm, and_self]

/-- The loop, from any flag, on a nonempty list: the tree at the depth `Nat.clog 2` of the
length, by strong induction on the length with one level per step. -/
theorem loop_eq_tree {xs : List uint256} (hne : xs ≠ []) (m : Bool) :
    loop Hash xs m = (MerkleTree.root Hash (Nat.clog 2 xs.length) xs,
      m || MerkleTree.mutated Hash (Nat.clog 2 xs.length) xs) := by
  induction hn : xs.length using Nat.strong_induction_on generalizing xs m with
  | _ n ih =>
    by_cases h : 1 < xs.length
    · have hlt : (level Hash xs).length < n := by rw [length_level]; omega
      have hclog : Nat.clog 2 (level Hash xs).length + 1 = Nat.clog 2 xs.length :=
        clog_length_level h
      obtain ⟨hroot, hmut⟩ := tree_succ_level Hash (Nat.clog 2 (level Hash xs).length) hne
        (by rw [hclog]; exact Nat.le_pow_clog (by norm_num) _)
      rw [loop_of_one_lt m h, ih _ hlt (level_ne_nil hne) _ rfl, ← hn, ← hclog, hroot, hmut,
        Bool.or_assoc]
    · have hone : xs.length = 1 := by
        have := List.length_pos_iff.2 hne
        omega
      obtain ⟨a, rfl⟩ := List.length_eq_one_iff.1 hone
      rw [loop_of_le_one m (by simp), ← hn, hone, Nat.clog_of_right_le_one le_rfl]
      simp [MerkleTree.root, MerkleTree.mutated]

end ComputeMerkleRoot

open ComputeMerkleRoot

section

variable {Hash : uint256 → uint256 → uint256}

/-- **The loop computes the tree.** On a nonempty list of `n` hashes, `ComputeMerkleRoot`
returns the root of the Merkle tree with `2 ^ Nat.clog 2 n` leaf slots built top-down, and
reports mutated exactly when a node of that tree, other than one that repeats its left subtree,
joins two subtrees with the same root. -/
theorem ComputeMerkleRoot_eq_tree (xs : List uint256) (hne : xs ≠ []) :
    ComputeMerkleRoot Hash xs =
      (MerkleTree.root Hash (Nat.clog 2 xs.length) xs,
        MerkleTree.mutated Hash (Nat.clog 2 xs.length) xs) := by
  rw [ComputeMerkleRoot, loop_eq_tree hne, Bool.false_or]

theorem ComputeMerkleRoot_eq_tree_sixLeaves :
    ComputeMerkleRoot (· + ·) [1, 2, 3, 4, 5, 6] =
      (MerkleTree.root (· + ·) (Nat.clog 2 [1, 2, 3, 4, 5, 6].length) [1, 2, 3, 4, 5, 6],
        MerkleTree.mutated (· + ·) (Nat.clog 2 [1, 2, 3, 4, 5, 6].length) [1, 2, 3, 4, 5, 6]) :=
  ComputeMerkleRoot_eq_tree _ (by simp)

/-- **The tree over two complete subtrees.** On two lists of `2 ^ j` hashes the root is the pair
hash of the two roots; the list is mutated when a half is, or when the two roots are equal. -/
theorem ComputeMerkleRoot_append (j : Nat) (l₁ l₂ : List uint256) (h₁ : l₁.length = 2 ^ j)
    (h₂ : l₂.length = 2 ^ j) :
    ComputeMerkleRoot Hash (l₁ ++ l₂) =
      (Hash (ComputeMerkleRoot Hash l₁).1 (ComputeMerkleRoot Hash l₂).1,
        (ComputeMerkleRoot Hash l₁).2 || (ComputeMerkleRoot Hash l₂).2 ||
          ((ComputeMerkleRoot Hash l₁).1 == (ComputeMerkleRoot Hash l₂).1)) := by
  rw [ComputeMerkleRoot, loop_append_pow j h₁ h₂, Bool.false_or]
  rfl

theorem ComputeMerkleRoot_append_four :
    ComputeMerkleRoot (· + ·) ([1, 2] ++ [3, 4]) =
      ((ComputeMerkleRoot (· + ·) [1, 2]).1 + (ComputeMerkleRoot (· + ·) [3, 4]).1,
        (ComputeMerkleRoot (· + ·) [1, 2]).2 || (ComputeMerkleRoot (· + ·) [3, 4]).2 ||
          ((ComputeMerkleRoot (· + ·) [1, 2]).1 == (ComputeMerkleRoot (· + ·) [3, 4]).1)) :=
  ComputeMerkleRoot_append 1 [1, 2] [3, 4] rfl rfl

/-- **CVE-2012-2459.** On `2 ^ j` times an odd number, at least three, of hashes, repeating the
last `2 ^ j` of them keeps the root, and only the mutation flag tells the two lists apart. -/
theorem ComputeMerkleRoot_duplicate (j k : Nat) (p s : List uint256) (hs : s.length = 2 ^ j)
    (hp : p.length = 2 ^ (j + 1) * k) (hk : 0 < k) :
    ComputeMerkleRoot Hash (p ++ s ++ s) = ((ComputeMerkleRoot Hash (p ++ s)).1, true) :=
  loop_duplicate j hs hp hk false

/-- The source comment's lists `[1,2,3,4,5,6]` and `[1,2,3,4,5,6,5,6]`. -/
theorem ComputeMerkleRoot_duplicate_sixLeaves :
    ComputeMerkleRoot (· + ·) ([1, 2, 3, 4] ++ [5, 6] ++ [5, 6]) =
      ((ComputeMerkleRoot (· + ·) ([1, 2, 3, 4] ++ [5, 6])).1, true) :=
  ComputeMerkleRoot_duplicate 1 1 _ _ rfl rfl (by decide)

/-- **Binding.** Two different nonempty lists of hashes with as many levels, the same root and
neither mutated give two different pairs with the same hash. -/
theorem ComputeMerkleRoot_collision (l₁ l₂ : List uint256) (root : uint256) (hne₁ : l₁ ≠ [])
    (hne₂ : l₂ ≠ []) (hdepth : Nat.clog 2 l₁.length = Nat.clog 2 l₂.length)
    (h₁ : ComputeMerkleRoot Hash l₁ = (root, false))
    (h₂ : ComputeMerkleRoot Hash l₂ = (root, false)) (hne : l₁ ≠ l₂) :
    ∃ a b c d, (a, b) ≠ (c, d) ∧ Hash a b = Hash c d := by
  by_contra hno
  have hinj : ∀ a b c d, Hash a b = Hash c d → a = c ∧ b = d := by
    intro a b c d h
    by_contra hpair
    exact hno ⟨a, b, c, d, by rwa [Ne, Prod.mk.injEq], h⟩
  exact hne (loop_inj hinj _ hne₁ hne₂ rfl hdepth.symm h₁ h₂)

/-- Addition as the pair hash: `[1, 2]` and `[2, 1]` share their root `3`. -/
theorem ComputeMerkleRoot_collision_swap :
    ∃ a b c d : uint256, (a, b) ≠ (c, d) ∧ a + b = c + d :=
  ComputeMerkleRoot_collision [1, 2] [2, 1] 3 (by simp) (by simp) rfl
    (by simp [ComputeMerkleRoot, loop_of_one_lt, loop_of_le_one, level, pairEqual])
    (by simp [ComputeMerkleRoot, loop_of_one_lt, loop_of_le_one, level, pairEqual]) (by decide)

end

/-- `CheckBlockHeader` reads the header, and of the body only whether it is proof-of-stake. -/
theorem CheckBlockHeader_vtx {hashes : BlockHashes} {block : CBlock} {vtx : List CTransaction}
    (h : ({ block with vtx := vtx } : CBlock).isProofOfStake = block.isProofOfStake)
    (params : Params) (fCheckPOW : Bool) :
    CheckBlockHeader hashes { block with vtx := vtx } params fCheckPOW =
      CheckBlockHeader hashes block params fCheckPOW := by
  unfold CheckBlockHeader CheckPOW
  rw [h]

/-- Whether a body is proof-of-stake is read from its first two transactions. -/
theorem CBlock.isProofOfStake_append {block : CBlock} {p t : List CTransaction}
    (hp : 2 ≤ p.length) (hvtx : block.vtx = p ++ t) (t' : List CTransaction) :
    ({ block with vtx := p ++ t' } : CBlock).isProofOfStake = block.isProofOfStake := by
  rcases p with _ | ⟨a, _ | ⟨b, r⟩⟩
  · simp at hp
  · simp at hp
  · simp [CBlock.isProofOfStake, hvtx]

/-- **A repeated suffix is caught as a mutation.** With `BlockMerkleRoot` as the codec's Merkle
root, take a block whose header commits to its transactions, `2 ^ j` times an odd number (at
least three) of them. The block under the same header that repeats its last `2 ^ j` transactions
has the header's root, and `CheckBlock` rejects it with `bad-txns-duplicate`, once the header and,
on signet, the block solution pass. -/
theorem CheckBlock_duplicate {cp : CChainParams} {codec : BlockCodec}
    {Hash : uint256 → uint256 → uint256}
    (hcodec : codec.BlockMerkleRoot = BlockMerkleRoot Hash codec.txHash) {block : CBlock}
    (j k : Nat) (p s : List CTransaction) (hs : s.length = 2 ^ j)
    (hp : p.length = 2 ^ (j + 1) * k) (hk : 0 < k) (hvtx : block.vtx = p ++ s)
    (hroot : block.header.hashMerkleRoot = (codec.BlockMerkleRoot block).1) {fCheckPOW : Bool}
    (hheader : CheckBlockHeader codec.toBlockHashes block cp.consensus
      (fCheckPOW && !block.isProofOfStake) = .valid)
    (hsignet : (cp.consensus.signet_blocks && fCheckPOW) = true →
      codec.CheckSignetBlockSolution { block with vtx := p ++ s ++ s } = true)
    (fCheckSignature : Bool) :
    CheckBlock cp codec { block with vtx := p ++ s ++ s } fCheckPOW true fCheckSignature =
      .invalid "bad-txns-duplicate" := by
  have hmut : codec.BlockMerkleRoot { block with vtx := p ++ s ++ s } =
      ((codec.BlockMerkleRoot block).1, true) := by
    rw [hcodec]
    simp only [BlockMerkleRoot, ComputeMerkleRoot, hvtx, List.map_append]
    exact loop_duplicate j (by rw [List.length_map, hs]) (by rw [List.length_map, hp]) hk false
  have hp2 : 2 ≤ p.length := by
    rw [hp]
    calc 2 = 2 ^ 1 := rfl
      _ ≤ 2 ^ (j + 1) := Nat.pow_le_pow_right (by norm_num) (by omega)
      _ ≤ 2 ^ (j + 1) * k := Nat.le_mul_of_pos_right _ hk
  have hpos : ({ block with vtx := p ++ s ++ s } : CBlock).isProofOfStake = block.isProofOfStake := by
    rw [List.append_assoc]
    exact CBlock.isProofOfStake_append hp2 hvtx _
  have hsol : (cp.consensus.signet_blocks && fCheckPOW &&
      !codec.CheckSignetBlockSolution { block with vtx := p ++ s ++ s }) = false := by
    cases hc : (cp.consensus.signet_blocks && fCheckPOW)
    · rfl
    · rw [hsignet hc]
      rfl
  unfold CheckBlock
  rw [hmut, CheckBlockHeader_vtx hpos, hpos, hheader]
  simp only [hsol, Bool.false_eq_true, if_false]
  simp [hroot]

/-- A transaction with no inputs or outputs, told apart by its lock time. -/
def lockTimeTx (n : UInt32) : CTransaction := ⟨[], [], 1, 0, n⟩

/-- Stand-in hashes: a transaction hashes to its lock time, and the Merkle root is
`BlockMerkleRoot` with addition as the pair hash. -/
def sumCodec : BlockCodec where
  GetHash _ := 0
  GetPOWHash _ _ := 0
  txHash tx := BitVec.ofNat 256 tx.nLockTime.toNat
  BlockMerkleRoot := BlockMerkleRoot (· + ·) fun tx => BitVec.ofNat 256 tx.nLockTime.toNat
  txSizeNoWitness _ := 100
  blockSizeNoWitness _ := 200
  GetLegacySigOpCount _ := 0
  CheckBlockSignature _ := true
  CheckSignetBlockSolution _ := true

/-- The source comment's six transactions. -/
def sixTxs : List CTransaction := [1, 2, 3, 4, 5, 6].map lockTimeTx

/-- A block of `sixTxs` under the header that commits to them. -/
def sixTxBlock : CBlock where
  header :=
    { nVersion := 4, hashPrevBlock := 0,
      hashMerkleRoot := (ComputeMerkleRoot (· + ·) (sixTxs.map sumCodec.txHash)).1,
      nTime := 0, nBits := 0, nNonce := 0, nFlags := 0 }
  vtx := sixTxs
  vchBlockSig := []

theorem CheckBlock_duplicate_sixTxs :
    CheckBlock mainParams sumCodec
        { sixTxBlock with
          vtx := [1, 2, 3, 4].map lockTimeTx ++ [5, 6].map lockTimeTx ++ [5, 6].map lockTimeTx }
        false true true = .invalid "bad-txns-duplicate" :=
  CheckBlock_duplicate rfl 1 1 _ _ rfl rfl (by decide) rfl rfl rfl (by decide) true

end NowpConsensus
