import NowpConsensus.Chain.BlockIndex
import NowpConsensus.Primitives.Serialize
import NowpConsensus.Arith.Uint256
import Mathlib.Data.List.MinMax
import Mathlib.Data.Prod.Lex

/-!
# The stake modifier

The stake modifier (`kernel.cpp`) is the 64-bit value a proof-of-stake kernel hashes with. A block
either carries the modifier of its parent or generates a new one (`BLOCK_STAKE_MODIFIER`), once
per modifier interval: `ComputeNextStakeModifier` collects the blocks of the last selection
interval, shuffles them with `GetRand`, sorts them by time and hash, and runs up to 64 rounds,
each of which picks one block (`SelectBlockFromCandidates`) and writes its entropy bit into the
new modifier. A kernel reads the modifier of the nearest ancestor that generated one early enough
(`GetKernelStakeModifierV05`).

The chain is a list of entries, newest first, as in `Chain/BlockIndex.lean`; `Hash` is the
double SHA-256 of a stream's bytes, `LookupBlockIndex` the block index, and `GetRand` the draws
of the shuffle, the one at step `i` below `i`.

* `ComputeNextStakeModifier_shuffle_irrelevant`: the result does not depend on the draws;
* `ComputeNextStakeModifier_rounds`: when a new modifier is generated from indexed candidates,
  it runs `min 64 n` rounds over the `n` candidates, each picking a new block as `pickSpec`
  says, and bit `k` of the modifier is the entropy bit of round `k`'s block;
* `GetKernelStakeModifierV05_eq`: the modifier a kernel reads is that of the nearest strict
  ancestor that generated one early enough, and there is none when the previous block itself is
  early enough.
-/

namespace NowpConsensus

/-- `CBlockIndex::BLOCK_STAKE_ENTROPY`, the flag that holds a block's entropy bit. -/
def BLOCK_STAKE_ENTROPY : UInt32 := 2

/-- `CBlockIndex::BLOCK_STAKE_MODIFIER`, the flag of a block that generated a modifier. -/
def BLOCK_STAKE_MODIFIER : UInt32 := 4

/-- `CBlockIndex` with the stake fields `kernel.cpp` reads: the block's stake modifier and its
proof-of-stake hash. -/
structure StakeBlockIndex extends CBlockIndex where
  nStakeModifier : UInt64
  hashProofOfStake : uint256
  deriving DecidableEq, Repr

namespace StakeBlockIndex

/-- `CBlockIndex::GetStakeEntropyBit`. -/
def GetStakeEntropyBit (b : StakeBlockIndex) : UInt32 := (b.nFlags &&& BLOCK_STAKE_ENTROPY) >>> 1

/-- `CBlockIndex::GeneratedStakeModifier`. -/
def GeneratedStakeModifier (b : StakeBlockIndex) : Bool := b.nFlags &&& BLOCK_STAKE_MODIFIER != 0

/-- The pair the candidates are collected and sorted as: the block's time and hash. -/
def key (b : StakeBlockIndex) : Int × uint256 := (b.getBlockTime, b.hashBlock)

end StakeBlockIndex

/-- `MODIFIER_INTERVAL_RATIO`: how much longer the last selection section is than the first. -/
def MODIFIER_INTERVAL_RATIO : Int := 3

/-- `Consensus::Params` with the modifier interval, which only the stake modifier reads and which
every network sets positive. -/
structure StakeParams extends Params where
  nModifierInterval : Int
  nModifierInterval_pos : 0 < nModifierInterval

/-- The main network's (`CMainParams`): a modifier interval of six hours. -/
def mainStakeParams : StakeParams :=
  { mainConsensus with nModifierInterval := 6 * 60 * 60, nModifierInterval_pos := by decide }

/-- `GetStakeModifierSelectionIntervalSection(nSection)`. Its callers pass sections below 64,
which its `assert` checks. -/
def GetStakeModifierSelectionIntervalSection (params : StakeParams) (nSection : Fin 64) : Int :=
  (params.nModifierInterval * 63).tdiv
    (63 + (63 - (nSection.val : Int)) * ( MODIFIER_INTERVAL_RATIO - 1))

/-- `GetStakeModifierSelectionInterval()`: the 64 sections together. -/
def GetStakeModifierSelectionInterval (params : StakeParams) : Int :=
  ((List.finRange 64).map (GetStakeModifierSelectionIntervalSection params)).sum

/-- `GetLastStakeModifier(pindex, ...)`: the modifier and time of the last block that generated
one, from `pindex` back to genesis; `none` where it returns `false`. -/
def GetLastStakeModifier : List StakeBlockIndex → Option (UInt64 × Int)
  | [] => none
  | [b] => if b.GeneratedStakeModifier then some (b.nStakeModifier, b.getBlockTime) else none
  | b :: b' :: rest =>
    if b.GeneratedStakeModifier then some (b.nStakeModifier, b.getBlockTime)
    else GetLastStakeModifier (b' :: rest)

/-! ## The candidates and their order -/

/-- The blocks `ComputeNextStakeModifier` collects from `pindexPrev` back, while their time is at
or after the start of the selection interval. -/
def candidateBlocks (nSelectionIntervalStart : Int) (pindexPrev : List StakeBlockIndex) :
    List StakeBlockIndex :=
  pindexPrev.takeWhile fun b => decide (nSelectionIntervalStart ≤ b.getBlockTime)

/-- Word `i` of a hash as `GetDataPtr()[i]` reads it: the words of the little-endian blob, least
significant first. -/
def hashWord (h : uint256) (i : Nat) : Nat := h.toNat / 2 ^ (32 * i) % 2 ^ 32

/-- The comparator's loop over the words below `cnt`, from the most significant down. -/
def hashWordsLt : Nat → uint256 → uint256 → Bool
  | 0, _, _ => false
  | cnt + 1, a, b =>
    if hashWord a cnt ≠ hashWord b cnt then decide (hashWord a cnt < hashWord b cnt)
    else hashWordsLt cnt a b

/-- The comparator of `ComputeNextStakeModifier`'s sort: by time, then by the hash's eight
32-bit words from the most significant. -/
def compareCandidates (a b : Int × uint256) : Bool :=
  if a.1 ≠ b.1 then decide (a.1 < b.1) else hashWordsLt (256 / 32) a.2 b.2

/-- The order `std::sort` leaves the candidates in: no candidate before one the comparator puts
first. -/
def candidateLe (a b : Int × uint256) : Prop := compareCandidates b a = false

instance : DecidableRel candidateLe := fun a b =>
  inferInstanceAs (Decidable (compareCandidates b a = false))

/-- `std::swap(v[i], v[j])`, for indices in range; `GetRand(i)` is below `i`, so the shuffle
only swaps in range. -/
def swapAt {α : Type} (v : Array α) (i j : Nat) : Array α := v.swapIfInBounds i j

/-- The shuffle `for (i = n - 1; i > 1; --i) std::swap(v[i], v[GetRand(i)])`, from `i` down. -/
def shuffle {α : Type} (GetRand : Nat → Nat) : Nat → Array α → Array α
  | 0, v => v
  | 1, v => v
  | i + 2, v => shuffle GetRand (i + 1) (swapAt v (i + 2) (GetRand (i + 2)))

/-- `std::sort` of the candidates under the comparator, as an insertion sort; the comparator being
a strict total order, every sort gives this list. -/
def sortCandidates (v : List (Int × uint256)) : List (Int × uint256) :=
  v.insertionSort candidateLe

/-- The candidate blocks in the order the rounds read them. -/
def sortedCandidateBlocks (nSelectionIntervalStart : Int) (pindexPrev : List StakeBlockIndex) :
    List StakeBlockIndex :=
  (candidateBlocks nSelectionIntervalStart pindexPrev).insertionSort fun a b =>
    candidateLe a.key b.key

/-! ### The comparator is the order of times, then of hashes -/

/-- Numbers written with a low digit below `B` compare by their high digit first. -/
theorem lex_digits_lt_iff {B lo lo' hi hi' : Nat} (hlo : lo < B) (hlo' : lo' < B) :
    lo + B * hi < lo' + B * hi' ↔ hi < hi' ∨ hi = hi' ∧ lo < lo' := by
  constructor
  · intro h
    rcases lt_trichotomy hi hi' with hlt | rfl | hgt
    · exact .inl hlt
    · exact .inr ⟨rfl, by omega⟩
    · have : B * (hi' + 1) ≤ B * hi := Nat.mul_le_mul_left B hgt
      rw [Nat.mul_succ] at this
      omega
  · rintro (hlt | ⟨rfl, hlt⟩)
    · have : B * (hi + 1) ≤ B * hi' := Nat.mul_le_mul_left B hlt
      rw [Nat.mul_succ] at this
      omega
    · omega

/-- The comparator's loop over the `n` low words compares the hashes modulo `2 ^ (32 * n)`. -/
theorem hashWordsLt_iff (n : Nat) (a b : uint256) :
    hashWordsLt n a b = true ↔ a.toNat % 2 ^ (32 * n) < b.toNat % 2 ^ (32 * n) := by
  induction n with
  | zero => simp [hashWordsLt, Nat.mod_one]
  | succ n ih =>
    have hsplit : ∀ x : Nat, x % 2 ^ (32 * (n + 1)) =
        x % 2 ^ (32 * n) + 2 ^ (32 * n) * (x / 2 ^ (32 * n) % 2 ^ 32) := by
      intro x
      rw [Nat.mul_succ, Nat.pow_add, Nat.mod_mul]
    have hpos : 0 < 2 ^ (32 * n) := Nat.two_pow_pos _
    rw [hsplit, hsplit, lex_digits_lt_iff (Nat.mod_lt _ hpos) (Nat.mod_lt _ hpos), ← ih]
    change _ ↔ hashWord a n < hashWord b n ∨ hashWord a n = hashWord b n ∧ _
    simp only [hashWordsLt]
    by_cases hw : hashWord a n = hashWord b n
    · simp [hw]
    · simp [hw]

/-- **The comparator orders by time, then by hash**, as numbers. -/
theorem compareCandidates_iff (a b : Int × uint256) :
    compareCandidates a b = true ↔ toLex (a.1, a.2.toNat) < toLex (b.1, b.2.toNat) := by
  have hmod : ∀ x : uint256, x.toNat % 2 ^ (32 * (256 / 32)) = x.toNat :=
    fun x => Nat.mod_eq_of_lt x.isLt
  rw [Prod.Lex.toLex_lt_toLex]
  unfold compareCandidates
  by_cases ht : a.1 = b.1
  · simp only [ht, ne_eq, not_true_eq_false, if_false, hashWordsLt_iff, hmod, lt_irrefl,
      true_and, false_or]
  · simp only [ht, ne_eq, not_false_eq_true, if_true, decide_eq_true_eq, false_and, or_false]

theorem candidateLe_iff (a b : Int × uint256) :
    candidateLe a b ↔ toLex (a.1, a.2.toNat) ≤ toLex (b.1, b.2.toNat) := by
  unfold candidateLe
  rw [← not_lt, ← compareCandidates_iff, Bool.not_eq_true]

instance : Std.Total candidateLe :=
  ⟨fun a b => by simp only [candidateLe_iff]; exact le_total _ _⟩

instance : IsTrans (Int × uint256) candidateLe :=
  ⟨fun a b c => by simp only [candidateLe_iff]; exact le_trans⟩

instance : Std.Antisymm candidateLe :=
  ⟨fun a b hab hba => by
    rw [candidateLe_iff] at hab hba
    have h := congrArg ofLex (le_antisymm hab hba)
    simp only [ofLex_toLex, Prod.mk.injEq] at h
    exact Prod.ext h.1 (BitVec.eq_of_toNat_eq h.2)⟩

/-! ### The shuffle does not change the sorted candidates -/

theorem swapAt_perm {α : Type} (v : Array α) (i j : Nat) : (swapAt v i j).toList.Perm v.toList := by
  unfold swapAt
  rw [Array.swapIfInBounds_def]
  split
  · split
    · exact Array.perm_iff_toList_perm.1 (Array.swap_perm _ _)
    · exact List.Perm.refl _
  · exact List.Perm.refl _

theorem shuffle_perm {α : Type} (GetRand : Nat → Nat) (i : Nat) (v : Array α) :
    (shuffle GetRand i v).toList.Perm v.toList := by
  fun_induction shuffle GetRand i v with
  | case1 v => exact List.Perm.refl _
  | case2 v => exact List.Perm.refl _
  | case3 i v ih => exact ih.trans (swapAt_perm _ _ _)

/-- **Sorting does not see the order it is given**: the comparator being a strict total order,
candidates in any order sort to the same list. -/
theorem sortCandidates_eq_of_perm {l₁ l₂ : List (Int × uint256)} (h : l₁.Perm l₂) :
    sortCandidates l₁ = sortCandidates l₂ :=
  List.Perm.eq_of_pairwise' (List.pairwise_insertionSort candidateLe l₁)
    (List.pairwise_insertionSort candidateLe l₂)
    (((List.perm_insertionSort candidateLe l₁).trans h).trans
      (List.perm_insertionSort candidateLe l₂).symm)

theorem sortCandidates_shuffle (GetRand : Nat → Nat) (i : Nat) (v : List (Int × uint256)) :
    sortCandidates (shuffle GetRand i v.toArray).toList = sortCandidates v :=
  sortCandidates_eq_of_perm (by simpa using shuffle_perm GetRand i v.toArray)

/-! ## The selection rounds -/

/-- The selection hash of a candidate: the hash of its proof hash and the previous modifier,
divided by `2 ^ 32` for a proof-of-stake block. -/
def selectionHash (Hash : List UInt8 → uint256) (nStakeModifierPrev : UInt64)
    (pindex : StakeBlockIndex) : arith_uint256 :=
  let hashProof := if pindex.isProofOfStake then pindex.hashProofOfStake else pindex.hashBlock
  let hashSelection := UintToArith256 (Hash (ser_uint256 hashProof ++ ser_uint64 nStakeModifierPrev))
  if pindex.isProofOfStake then hashSelection >>> 32 else hashSelection

/-- The loop of `SelectBlockFromCandidates` over the sorted candidates, with `best` the pair
`(hashBest, *pindexSelected)` once `fSelected`. It stops past the stop time once a block is
selected, skips the blocks already selected, and keeps a later block only when its hash is
strictly smaller. -/
def SelectBlockFromCandidates.loop (Hash : List UInt8 → uint256)
    (LookupBlockIndex : uint256 → Option StakeBlockIndex)
    (mapSelectedBlocks : List (uint256 × StakeBlockIndex)) (nSelectionIntervalStop : Int)
    (nStakeModifierPrev : UInt64) :
    List (Int × uint256) → Option (arith_uint256 × StakeBlockIndex) →
      Except String (Option (arith_uint256 × StakeBlockIndex))
  | [], best => .ok best
  | item :: rest, best =>
    match LookupBlockIndex item.2 with
    | none => .error "SelectBlockFromCandidates: failed to find block index for candidate block"
    | some pindex =>
      if best.isSome && decide (pindex.getBlockTime > nSelectionIntervalStop) then .ok best
      else if pindex.hashBlock ∈ mapSelectedBlocks.map Prod.fst then
        loop Hash LookupBlockIndex mapSelectedBlocks nSelectionIntervalStop nStakeModifierPrev rest
          best
      else
        let hashSelection := selectionHash Hash nStakeModifierPrev pindex
        match best with
        | some (hashBest, _) =>
          loop Hash LookupBlockIndex mapSelectedBlocks nSelectionIntervalStop nStakeModifierPrev
            rest (if hashSelection < hashBest then some (hashSelection, pindex) else best)
        | none =>
          loop Hash LookupBlockIndex mapSelectedBlocks nSelectionIntervalStop nStakeModifierPrev
            rest (some (hashSelection, pindex))

/-- `SelectBlockFromCandidates(...)`: the block selected, or `none` where it returns `false`. -/
def SelectBlockFromCandidates (Hash : List UInt8 → uint256)
    (LookupBlockIndex : uint256 → Option StakeBlockIndex)
    (vSortedByTimestamp : List (Int × uint256))
    (mapSelectedBlocks : List (uint256 × StakeBlockIndex)) (nSelectionIntervalStop : Int)
    (nStakeModifierPrev : UInt64) : Option StakeBlockIndex :=
  match SelectBlockFromCandidates.loop Hash LookupBlockIndex mapSelectedBlocks
      nSelectionIntervalStop nStakeModifierPrev vSortedByTimestamp none with
  | .ok (some (_, pindex)) => some pindex
  | _ => none

/-- The rounds of `ComputeNextStakeModifier`, with the new modifier, the stop time and the map of
selected blocks: each round widens the stop time by its section, selects a block and writes its
entropy bit at the round's position. -/
def selectionRounds (params : StakeParams) (Hash : List UInt8 → uint256)
    (LookupBlockIndex : uint256 → Option StakeBlockIndex)
    (vSortedByTimestamp : List (Int × uint256)) (nStakeModifierPrev : UInt64) :
    List (Fin 64) → UInt64 × Int × List (uint256 × StakeBlockIndex) →
      Option (UInt64 × Int × List (uint256 × StakeBlockIndex))
  | [], s => some s
  | nRound :: rounds, (nStakeModifierNew, nSelectionIntervalStop, mapSelectedBlocks) =>
    let nSelectionIntervalStop :=
      nSelectionIntervalStop + GetStakeModifierSelectionIntervalSection params nRound
    match SelectBlockFromCandidates Hash LookupBlockIndex vSortedByTimestamp mapSelectedBlocks
        nSelectionIntervalStop nStakeModifierPrev with
    | none => none
    | some pindex =>
      selectionRounds params Hash LookupBlockIndex vSortedByTimestamp nStakeModifierPrev rounds
        (nStakeModifierNew ||| (pindex.GetStakeEntropyBit.toUInt64 <<< nRound.val.toUInt64),
          nSelectionIntervalStop, mapSelectedBlocks ++ [(pindex.hashBlock, pindex)])

/-- The start of the selection interval: the previous block's modifier interval, moved back by
the selection interval. -/
def selectionIntervalStart (params : StakeParams) (pindexPrev : StakeBlockIndex) : Int :=
  pindexPrev.getBlockTime.tdiv params.nModifierInterval * params.nModifierInterval -
    GetStakeModifierSelectionInterval params

/-- `ComputeNextStakeModifier(pindexCurrent, ...)` for the block `pindexCurrent` on the chain
`pindexPrev`: the modifier and whether it was generated, or `none` where it returns `false`. -/
def ComputeNextStakeModifier (params : StakeParams) (Hash : List UInt8 → uint256)
    (LookupBlockIndex : uint256 → Option StakeBlockIndex) (GetRand : Nat → Nat)
    (pindexCurrent : StakeBlockIndex) (pindexPrev : List StakeBlockIndex) :
    Option (UInt64 × Bool) :=
  match pindexPrev with
  | [] => some (0, true)
  | prev :: _ =>
    match GetLastStakeModifier pindexPrev with
    | none => none
    | some (nStakeModifier, nModifierTime) =>
      let I := params.nModifierInterval
      if nModifierTime.tdiv I ≥ prev.getBlockTime.tdiv I then some (nStakeModifier, false)
      else if nModifierTime.tdiv I ≥ pindexCurrent.getBlockTime.tdiv I then
        some (nStakeModifier, false)
      else
        let nSelectionIntervalStart := selectionIntervalStart params prev
        let v := (candidateBlocks nSelectionIntervalStart pindexPrev).map StakeBlockIndex.key
        let vSortedByTimestamp := sortCandidates (shuffle GetRand (v.length - 1) v.toArray).toList
        (selectionRounds params Hash LookupBlockIndex vSortedByTimestamp nStakeModifier
            ((List.finRange 64).take vSortedByTimestamp.length)
            (0, nSelectionIntervalStart, [])).map fun r => (r.1, true)

/-! ### What a round picks -/

/-- The candidates not yet selected. -/
def unselected (selected : List uint256) (bs : List StakeBlockIndex) : List StakeBlockIndex :=
  bs.filter fun b => decide (b.hashBlock ∉ selected)

/-- The candidates whose time is at most the stop. -/
def eligible (stop : Int) (bs : List StakeBlockIndex) : List StakeBlockIndex :=
  bs.filter fun b => decide (b.getBlockTime ≤ stop)

/-- The selection hash as a number, the order a round compares candidates by. -/
def selectionKey (Hash : List UInt8 → uint256) (nStakeModifierPrev : UInt64)
    (b : StakeBlockIndex) : Nat :=
  (selectionHash Hash nStakeModifierPrev b).toNat

/-- What a round picks from the sorted candidates `bs`: among those not yet selected whose time
is at most the stop, the one with the smallest selection hash, the earliest of equal ones; where
there is none, the earliest candidate not yet selected. -/
def pickSpec (Hash : List UInt8 → uint256) (nStakeModifierPrev : UInt64)
    (bs : List StakeBlockIndex) (selected : List uint256) (stop : Int) : Option StakeBlockIndex :=
  if eligible stop (unselected selected bs) = [] then (unselected selected bs).head?
  else (eligible stop (unselected selected bs)).argmin (selectionKey Hash nStakeModifierPrev)

theorem unselected_cons_of_mem {selected : List uint256} {b : StakeBlockIndex}
    {bs : List StakeBlockIndex} (h : b.hashBlock ∈ selected) :
    unselected selected (b :: bs) = unselected selected bs :=
  List.filter_cons_of_neg (by simpa using h)

theorem unselected_cons_of_not_mem {selected : List uint256} {b : StakeBlockIndex}
    {bs : List StakeBlockIndex} (h : b.hashBlock ∉ selected) :
    unselected selected (b :: bs) = b :: unselected selected bs :=
  List.filter_cons_of_pos (by simpa using h)

theorem eligible_cons_of_le {stop : Int} {b : StakeBlockIndex} {bs : List StakeBlockIndex}
    (h : b.getBlockTime ≤ stop) : eligible stop (b :: bs) = b :: eligible stop bs :=
  List.filter_cons_of_pos (by simpa using h)

theorem eligible_cons_of_lt {stop : Int} {b : StakeBlockIndex} {bs : List StakeBlockIndex}
    (h : stop < b.getBlockTime) : eligible stop (b :: bs) = eligible stop bs :=
  List.filter_cons_of_neg (by simpa using h)

section Selection

variable (Hash : List UInt8 → uint256) (LookupBlockIndex : uint256 → Option StakeBlockIndex)
  (mapSelectedBlocks : List (uint256 × StakeBlockIndex)) (stop : Int) (prev : UInt64)

/-- Past a candidate later than the stop, a list sorted by time has no candidate at most the
stop. -/
theorem eligible_unselected_eq_nil {b : StakeBlockIndex} {bs : List StakeBlockIndex}
    {selected : List uint256} (hsorted : ∀ b' ∈ bs, b.getBlockTime ≤ b'.getBlockTime)
    (hlate : stop < b.getBlockTime) : eligible stop (unselected selected bs) = [] := by
  rw [eligible, List.filter_eq_nil_iff]
  intro b' hb'
  have := hsorted b' (List.mem_of_mem_filter hb')
  simp only [decide_eq_true_eq, not_le]
  omega

/-- Once a block is selected, the loop keeps the first candidate of smallest selection hash among
those not yet selected up to the stop: an `argmin` from the selected block on. -/
theorem SelectBlockFromCandidates.loop_some {bs : List StakeBlockIndex}
    (hsorted : bs.Pairwise fun a b => a.getBlockTime ≤ b.getBlockTime)
    (hidx : ∀ b ∈ bs, LookupBlockIndex b.hashBlock = some b) (b₀ : StakeBlockIndex) :
    loop Hash LookupBlockIndex mapSelectedBlocks stop prev (bs.map StakeBlockIndex.key)
        (some (selectionHash Hash prev b₀, b₀)) =
      .ok (((eligible stop (unselected (mapSelectedBlocks.map Prod.fst) bs)).foldl
        (List.argAux fun b c => selectionKey Hash prev b < selectionKey Hash prev c)
          (some b₀)).map fun b => (selectionHash Hash prev b, b)) := by
  induction bs generalizing b₀ with
  | nil => rfl
  | cons b bs ih =>
    obtain ⟨hb_le, hsorted⟩ := List.pairwise_cons.1 hsorted
    have hb := hidx b List.mem_cons_self
    have hidx' := fun b' hb' => hidx b' (List.mem_cons_of_mem b hb')
    simp only [List.map_cons, loop, StakeBlockIndex.key, hb, Option.isSome_some, Bool.true_and]
    by_cases hlate : stop < b.getBlockTime
    · rw [if_pos (by simpa using hlate)]
      have hnil : eligible stop (unselected (mapSelectedBlocks.map Prod.fst) (b :: bs)) = [] :=
        eligible_unselected_eq_nil stop (fun b' hb' => by
          rcases List.mem_cons.1 hb' with rfl | hb'
          · exact le_refl _
          · exact hb_le b' hb') hlate
      rw [hnil]
      rfl
    · rw [if_neg (by simpa using hlate)]
      by_cases hsel : b.hashBlock ∈ mapSelectedBlocks.map Prod.fst
      · rw [if_pos hsel, ih hsorted hidx' b₀, unselected_cons_of_mem hsel]
      · rw [if_neg hsel, unselected_cons_of_not_mem hsel, eligible_cons_of_le (not_lt.1 hlate),
          List.foldl_cons]
        by_cases hlt : selectionHash Hash prev b < selectionHash Hash prev b₀
        · have harg : List.argAux (fun b c => selectionKey Hash prev b < selectionKey Hash prev c)
              (some b₀) b = some b := if_pos (BitVec.lt_def.1 hlt)
          rw [if_pos hlt, harg, ih hsorted hidx' b]
        · have harg : List.argAux (fun b c => selectionKey Hash prev b < selectionKey Hash prev c)
              (some b₀) b = some b₀ := if_neg (fun h => hlt (BitVec.lt_def.2 h))
          rw [if_neg hlt, harg, ih hsorted hidx' b₀]

/-- **The selection loop picks what `pickSpec` says**, on candidates sorted by time that are all
in the block index. -/
theorem SelectBlockFromCandidates.loop_none {bs : List StakeBlockIndex}
    (hsorted : bs.Pairwise fun a b => a.getBlockTime ≤ b.getBlockTime)
    (hidx : ∀ b ∈ bs, LookupBlockIndex b.hashBlock = some b) :
    loop Hash LookupBlockIndex mapSelectedBlocks stop prev (bs.map StakeBlockIndex.key) none =
      .ok ((pickSpec Hash prev bs (mapSelectedBlocks.map Prod.fst) stop).map
        fun b => (selectionHash Hash prev b, b)) := by
  induction bs with
  | nil => rfl
  | cons b bs ih =>
    obtain ⟨hb_le, hsorted⟩ := List.pairwise_cons.1 hsorted
    have hb := hidx b List.mem_cons_self
    have hidx' := fun b' hb' => hidx b' (List.mem_cons_of_mem b hb')
    simp only [List.map_cons, loop, StakeBlockIndex.key, hb, Option.isSome_none, Bool.false_and,
      Bool.false_eq_true, if_false]
    by_cases hsel : b.hashBlock ∈ mapSelectedBlocks.map Prod.fst
    · rw [if_pos hsel, ih hsorted hidx']
      unfold pickSpec
      rw [unselected_cons_of_mem hsel]
    · rw [if_neg hsel, loop_some Hash LookupBlockIndex mapSelectedBlocks stop prev hsorted hidx' b]
      unfold pickSpec
      rw [unselected_cons_of_not_mem hsel]
      by_cases hlate : stop < b.getBlockTime
      · have hnil : eligible stop (unselected (mapSelectedBlocks.map Prod.fst) bs) = [] :=
          eligible_unselected_eq_nil stop hb_le hlate
        rw [hnil, eligible_cons_of_lt hlate, hnil, if_pos rfl]
        rfl
      · rw [eligible_cons_of_le (not_lt.1 hlate), if_neg (List.cons_ne_nil _ _)]
        rfl

theorem SelectBlockFromCandidates_eq_pickSpec {bs : List StakeBlockIndex}
    (hsorted : bs.Pairwise fun a b => a.getBlockTime ≤ b.getBlockTime)
    (hidx : ∀ b ∈ bs, LookupBlockIndex b.hashBlock = some b) :
    SelectBlockFromCandidates Hash LookupBlockIndex (bs.map StakeBlockIndex.key) mapSelectedBlocks
        stop prev =
      pickSpec Hash prev bs (mapSelectedBlocks.map Prod.fst) stop := by
  unfold SelectBlockFromCandidates
  rw [SelectBlockFromCandidates.loop_none Hash LookupBlockIndex mapSelectedBlocks stop prev hsorted
    hidx]
  cases pickSpec Hash prev bs (mapSelectedBlocks.map Prod.fst) stop <;> rfl

end Selection

/-! ### The rounds -/

/-- A pick is a candidate not yet selected. -/
theorem mem_unselected_of_pickSpec {Hash : List UInt8 → uint256} {prev : UInt64}
    {bs : List StakeBlockIndex} {selected : List uint256} {stop : Int} {p : StakeBlockIndex}
    (h : pickSpec Hash prev bs selected stop = some p) : p ∈ unselected selected bs := by
  unfold pickSpec at h
  split at h
  · exact List.mem_of_mem_head? h
  · exact List.mem_of_mem_filter (List.argmin_mem h)

/-- While a candidate is left, a round picks one. -/
theorem pickSpec_isSome {Hash : List UInt8 → uint256} {prev : UInt64}
    {bs : List StakeBlockIndex} {selected : List uint256} (stop : Int)
    (h : unselected selected bs ≠ []) : ∃ p, pickSpec Hash prev bs selected stop = some p := by
  unfold pickSpec
  split
  · obtain ⟨p, ps, hps⟩ := List.exists_cons_of_ne_nil h
    exact ⟨p, by rw [hps]; rfl⟩
  · rename_i hne
    rcases harg : (eligible stop (unselected selected bs)).argmin (selectionKey Hash prev) with
      _ | p
    · exact absurd (List.argmin_eq_none.1 harg) hne
    · exact ⟨p, rfl⟩

/-- Fewer hashes selected than candidates with distinct hashes leave a candidate. -/
theorem unselected_ne_nil {bs : List StakeBlockIndex} {selected : List uint256}
    (hnodup : (bs.map (·.hashBlock)).Nodup) (hlen : selected.length < bs.length) :
    unselected selected bs ≠ [] := by
  intro hnil
  have hsub : bs.map (·.hashBlock) ⊆ selected := by
    intro h hh
    obtain ⟨b, hb, rfl⟩ := List.mem_map.1 hh
    have : b ∉ unselected selected bs := by simp [hnil]
    simpa [unselected, hb] using this
  have := (hnodup.subperm hsub).length_le
  rw [List.length_map] at this
  omega

/-- The bits the rounds `rounds` write into the modifier `m`: each picked block's entropy bit at
its round's position. -/
def writeEntropyBits (rounds : List (Fin 64 × StakeBlockIndex)) (m : UInt64) : UInt64 :=
  rounds.foldl (fun m r => m ||| (r.2.GetStakeEntropyBit.toUInt64 <<< r.1.val.toUInt64)) m

/-- **The rounds over sorted, indexed candidates with distinct hashes**: as long as rounds are
left for the candidates, each picks as `pickSpec` says, from the candidates not picked before and
with the stop widened by the round's section; none fails, and the picks are distinct. -/
theorem selectionRounds_spec (params : StakeParams) (Hash : List UInt8 → uint256)
    (LookupBlockIndex : uint256 → Option StakeBlockIndex) (prev : UInt64)
    {bs : List StakeBlockIndex} (hsorted : bs.Pairwise fun a b => a.getBlockTime ≤ b.getBlockTime)
    (hidx : ∀ b ∈ bs, LookupBlockIndex b.hashBlock = some b)
    (hnodup : (bs.map (·.hashBlock)).Nodup) :
    ∀ (ks : List (Fin 64)) (m : UInt64) (stop : Int) (picks : List StakeBlockIndex),
      picks.length + ks.length ≤ bs.length → (picks.map (·.hashBlock)).Nodup →
      ∃ picks' : List StakeBlockIndex,
        selectionRounds params Hash LookupBlockIndex (bs.map StakeBlockIndex.key) prev ks
            (m, stop, picks.map fun b => (b.hashBlock, b)) =
          some (writeEntropyBits (ks.zip picks') m,
            stop + (ks.map (GetStakeModifierSelectionIntervalSection params)).sum,
            (picks ++ picks').map fun b => (b.hashBlock, b)) ∧
        picks'.length = ks.length ∧
        ((picks ++ picks').map (·.hashBlock)).Nodup ∧
        ∀ i (hi : i < picks'.length),
          pickSpec Hash prev bs ((picks ++ picks'.take i).map (·.hashBlock))
              (stop + ((ks.take (i + 1)).map (GetStakeModifierSelectionIntervalSection params)).sum) =
            some (picks'.get ⟨i, hi⟩) := by
  intro ks
  induction ks with
  | nil =>
    intro m stop picks _ hnd
    exact ⟨[], by simp [selectionRounds, writeEntropyBits], rfl, by simpa using hnd,
      fun i hi => absurd hi (Nat.not_lt_zero _)⟩
  | cons k ks ih =>
    intro m stop picks hlen hnd
    have hfst : (picks.map fun b => (b.hashBlock, b)).map Prod.fst =
        picks.map (·.hashBlock) := by
      rw [List.map_map]
      rfl
    obtain ⟨p, hp⟩ := @pickSpec_isSome Hash prev _ _
      (stop + GetStakeModifierSelectionIntervalSection params k)
      (@unselected_ne_nil _ (picks.map (·.hashBlock)) hnodup
        (by simp only [List.length_map, List.length_cons] at hlen ⊢; omega))
    have hpnew : p.hashBlock ∉ picks.map (·.hashBlock) := by
      have := mem_unselected_of_pickSpec hp
      simp only [unselected, List.mem_filter, decide_eq_true_eq] at this
      exact this.2
    have hselect : SelectBlockFromCandidates Hash LookupBlockIndex (bs.map StakeBlockIndex.key)
        (picks.map fun b => (b.hashBlock, b)) (stop + GetStakeModifierSelectionIntervalSection params k)
        prev = some p := by
      rw [SelectBlockFromCandidates_eq_pickSpec Hash LookupBlockIndex _ _ prev hsorted hidx, hfst, hp]
    have hnd' : ((picks ++ [p]).map (·.hashBlock)).Nodup := by
      rw [List.map_append, List.nodup_append]
      exact ⟨hnd, List.nodup_singleton _, fun a ha b hb hab => by
        rw [List.map_singleton, List.mem_singleton] at hb
        exact hpnew (by rw [← hb, ← hab]; exact ha)⟩
    obtain ⟨picks'', hrun, hlen'', hnd'', hspec⟩ :=
      ih (m ||| (p.GetStakeEntropyBit.toUInt64 <<< k.val.toUInt64))
        (stop + GetStakeModifierSelectionIntervalSection params k) (picks ++ [p])
        (by simp only [List.length_append, List.length_cons, List.length_nil] at hlen ⊢; omega)
        hnd'
    refine ⟨p :: picks'', ?_, by simp [hlen''], by simpa using hnd'', ?_⟩
    · have happ : (picks.map fun b => (b.hashBlock, b)) ++ [(p.hashBlock, p)] =
          (picks ++ [p]).map fun b => (b.hashBlock, b) := by simp
      simp only [selectionRounds, hselect, happ, hrun, List.zip_cons_cons, List.map_cons,
        List.sum_cons, List.append_assoc, List.singleton_append, Option.some.injEq, Prod.mk.injEq]
      exact ⟨rfl, by ring, trivial⟩
    · intro i hi
      cases i with
      | zero => simpa using hp
      | succ j =>
        have h := hspec j (by simpa using hi)
        simp only [List.append_assoc, List.singleton_append] at h
        simpa [List.take_succ_cons, add_assoc] using h

/-! ### The bits of the new modifier -/

theorem GetStakeEntropyBit_le_one (b : StakeBlockIndex) : b.GetStakeEntropyBit.toNat ≤ 1 := by
  have h : b.nFlags.toNat &&& 2 ≤ 2 := Nat.and_le_right
  simp only [StakeBlockIndex.GetStakeEntropyBit, BLOCK_STAKE_ENTROPY, UInt32.toNat_shiftRight,
    UInt32.toNat_and, Nat.shiftRight_eq_div_pow]
  change (b.nFlags.toNat &&& 2) / 2 ≤ 1
  omega

/-- A round writes its block's entropy bit at its position and nowhere else. -/
theorem testBit_entropyBit (b : StakeBlockIndex) (k : Fin 64) (j : Nat) :
    (b.GetStakeEntropyBit.toUInt64 <<< k.val.toUInt64).toNat.testBit j =
      (decide (j = k.val) && b.GetStakeEntropyBit == 1) := by
  have hk : k.val.toUInt64.toNat % 64 = k.val := by
    rw [Nat.toUInt64_eq, UInt64.toNat_ofNat', Nat.mod_eq_of_lt (by omega : k.val < 2 ^ 64),
      Nat.mod_eq_of_lt k.isLt]
  rw [UInt64.toNat_shiftLeft, UInt32.toNat_toUInt64, hk, Nat.testBit_mod_two_pow,
    Nat.testBit_shiftLeft]
  rcases Nat.le_one_iff_eq_zero_or_eq_one.1 (GetStakeEntropyBit_le_one b) with h | h
  · have h0 : b.GetStakeEntropyBit = 0 := UInt32.toNat_inj.1 h
    simp [h0]
  · have h1 : b.GetStakeEntropyBit = 1 := UInt32.toNat_inj.1 h
    rw [h, h1, show (1 : Nat) = 2 ^ 0 from rfl, Nat.testBit_two_pow]
    have hk64 := k.isLt
    by_cases hj : j = k.val
    · subst hj
      simp [hk64]
    · simp [hj]
      omega

/-- Bit `j` of the written modifier: set before, or written by a round at position `j`. -/
theorem testBit_writeEntropyBits (rounds : List (Fin 64 × StakeBlockIndex)) (m : UInt64)
    (j : Nat) :
    (writeEntropyBits rounds m).toNat.testBit j =
      (m.toNat.testBit j ||
        rounds.any fun r => decide (j = r.1.val) && r.2.GetStakeEntropyBit == 1) := by
  induction rounds generalizing m with
  | nil => simp [writeEntropyBits]
  | cons r rs ih =>
    rw [writeEntropyBits, List.foldl_cons, ← writeEntropyBits, ih, UInt64.toNat_or,
      Nat.testBit_or, testBit_entropyBit, List.any_cons, Bool.or_assoc]

/-- Rounds `0, 1, ...` zipped with their picks write pick `j` at position `j`. -/
theorem any_zip_finRange {picks : List StakeBlockIndex} (hlen : picks.length ≤ 64) (j : Nat)
    (f : StakeBlockIndex → Bool) :
    (((List.finRange 64).take picks.length).zip picks).any (fun r => decide (j = r.1.val) && f r.2) =
      if hj : j < picks.length then f (picks.get ⟨j, hj⟩) else false := by
  have hzlen : (((List.finRange 64).take picks.length).zip picks).length = picks.length := by
    simp [hlen]
  have hget : ∀ i (hi : i < (((List.finRange 64).take picks.length).zip picks).length),
      ((((List.finRange 64).take picks.length).zip picks)[i]).1.val = i ∧
        (((List.finRange 64).take picks.length).zip picks)[i].2 =
          picks.get ⟨i, by rw [hzlen] at hi; exact hi⟩ := by
    intro i hi
    simp
  split
  · rename_i hj
    rw [Bool.eq_iff_iff, List.any_eq_true]
    constructor
    · rintro ⟨r, hr, h⟩
      obtain ⟨i, hi, rfl⟩ := List.mem_iff_getElem.1 hr
      obtain ⟨h1, h2⟩ := hget i hi
      simp only [Bool.and_eq_true, decide_eq_true_eq] at h
      obtain ⟨rfl, hf⟩ := h
      rw [h2] at hf
      simpa [h1] using hf
    · intro h
      have hj' : j < (((List.finRange 64).take picks.length).zip picks).length := by
        rw [hzlen]
        exact hj
      refine ⟨_, List.getElem_mem hj', ?_⟩
      obtain ⟨h1, h2⟩ := hget j hj'
      simp only [Bool.and_eq_true, decide_eq_true_eq, h1, h2, true_and]
      exact h
  · rename_i hj
    rw [List.any_eq_false]
    intro r hr
    obtain ⟨i, hi, rfl⟩ := List.mem_iff_getElem.1 hr
    have h1 := (hget i hi).1
    have : i < picks.length := hzlen ▸ hi
    simp only [Bool.and_eq_true, decide_eq_true_eq, not_and, h1]
    omega

/-! ### The sorted candidates -/

theorem sortCandidates_map_key (s : Int) (pindexPrev : List StakeBlockIndex) :
    sortCandidates ((candidateBlocks s pindexPrev).map StakeBlockIndex.key) =
      (sortedCandidateBlocks s pindexPrev).map StakeBlockIndex.key := by
  unfold sortCandidates sortedCandidateBlocks
  exact (List.map_insertionSort (fun a b : StakeBlockIndex => candidateLe a.key b.key) candidateLe
    StakeBlockIndex.key _ fun _ _ _ _ => Iff.rfl).symm

theorem sortedCandidateBlocks_perm (s : Int) (pindexPrev : List StakeBlockIndex) :
    (sortedCandidateBlocks s pindexPrev).Perm (candidateBlocks s pindexPrev) :=
  List.perm_insertionSort _ _

/-- The rounds read the candidates in order of time. -/
theorem sortedCandidateBlocks_sorted (s : Int) (pindexPrev : List StakeBlockIndex) :
    (sortedCandidateBlocks s pindexPrev).Pairwise fun a b => a.getBlockTime ≤ b.getBlockTime := by
  have h := List.pairwise_insertionSort candidateLe
    ((candidateBlocks s pindexPrev).map StakeBlockIndex.key)
  rw [← sortCandidates, sortCandidates_map_key, List.pairwise_map] at h
  refine h.imp fun hab => ?_
  rw [candidateLe_iff, Prod.Lex.toLex_le_toLex] at hab
  rcases hab with hlt | ⟨heq, -⟩
  · exact le_of_lt hlt
  · exact le_of_eq heq

/-- **A new modifier from indexed candidates**: where the last modifier is from an earlier
modifier interval than both the previous and the current block, and every candidate of a chain of
distinct entries is in the block index, `ComputeNextStakeModifier` generates a modifier in
`min 64 n` rounds over the `n` candidates. Round `k` picks as `pickSpec` says, among the
candidates not picked before, with the stop widened by `k + 1` sections; the picks are distinct;
and bit `k` of the modifier is the entropy bit of round `k`'s pick, the bits past the last round
being zero. -/
theorem ComputeNextStakeModifier_rounds {params : StakeParams} {Hash : List UInt8 → uint256}
    {LookupBlockIndex : uint256 → Option StakeBlockIndex} (GetRand : Nat → Nat)
    {pindexCurrent prev : StakeBlockIndex} {rest : List StakeBlockIndex}
    {nStakeModifier : UInt64} {nModifierTime : Int}
    (hlast : GetLastStakeModifier (prev :: rest) = some (nStakeModifier, nModifierTime))
    (hprev : nModifierTime.tdiv params.nModifierInterval <
      prev.getBlockTime.tdiv params.nModifierInterval)
    (hcurrent : nModifierTime.tdiv params.nModifierInterval <
      pindexCurrent.getBlockTime.tdiv params.nModifierInterval)
    (hchain : (prev :: rest).Nodup)
    (hidx : ∀ b ∈ candidateBlocks (selectionIntervalStart params prev) (prev :: rest),
      LookupBlockIndex b.hashBlock = some b) :
    ∃ (m : UInt64) (picks : List StakeBlockIndex),
      ComputeNextStakeModifier params Hash LookupBlockIndex GetRand pindexCurrent (prev :: rest) =
        some (m, true) ∧
      picks.length =
        min 64 (sortedCandidateBlocks (selectionIntervalStart params prev) (prev :: rest)).length ∧
      (picks.map (·.hashBlock)).Nodup ∧
      (∀ k (hk : k < picks.length),
        pickSpec Hash nStakeModifier
            (sortedCandidateBlocks (selectionIntervalStart params prev) (prev :: rest))
            ((picks.take k).map (·.hashBlock))
            (selectionIntervalStart params prev + (((List.finRange 64).take (k + 1)).map
              (GetStakeModifierSelectionIntervalSection params)).sum) =
          some (picks.get ⟨k, hk⟩) ∧
        m.toNat.testBit k = ((picks.get ⟨k, hk⟩).GetStakeEntropyBit == 1)) ∧
      ∀ k, picks.length ≤ k → m.toNat.testBit k = false := by
  have hperm := sortedCandidateBlocks_perm (selectionIntervalStart params prev) (prev :: rest)
  have hsorted := sortedCandidateBlocks_sorted (selectionIntervalStart params prev) (prev :: rest)
  have hidx' : ∀ b ∈ sortedCandidateBlocks (selectionIntervalStart params prev) (prev :: rest),
      LookupBlockIndex b.hashBlock = some b := fun b hb => hidx b (hperm.mem_iff.1 hb)
  have hnodup : ((sortedCandidateBlocks (selectionIntervalStart params prev)
      (prev :: rest)).map (·.hashBlock)).Nodup := by
    have hnd := hperm.nodup_iff.2 (hchain.sublist (List.takeWhile_sublist _))
    refine hnd.map_on fun a ha b hb hab => Option.some.inj ?_
    rw [← hidx' a ha, ← hidx' b hb, hab]
  obtain ⟨picks, hrun, hlen, hnd, hspec⟩ := selectionRounds_spec params Hash LookupBlockIndex
    nStakeModifier hsorted hidx' hnodup
    ((List.finRange 64).take
      (sortedCandidateBlocks (selectionIntervalStart params prev) (prev :: rest)).length)
    0 (selectionIntervalStart params prev) [] (by simp) List.nodup_nil
  have hlen64 : picks.length =
      min 64 (sortedCandidateBlocks (selectionIntervalStart params prev) (prev :: rest)).length := by
    rw [hlen, List.length_take, List.length_finRange, Nat.min_comm]
  have hrounds : (List.finRange 64).take
      (sortedCandidateBlocks (selectionIntervalStart params prev) (prev :: rest)).length =
      (List.finRange 64).take picks.length := by
    rw [hlen64, List.take_eq_take_min, List.length_finRange, Nat.min_comm]
  have hcompute : ComputeNextStakeModifier params Hash LookupBlockIndex GetRand pindexCurrent
      (prev :: rest) = some (writeEntropyBits
        (((List.finRange 64).take picks.length).zip picks) 0, true) := by
    simp only [ComputeNextStakeModifier, hlast, ge_iff_le, if_neg (not_le.2 hprev),
      if_neg (not_le.2 hcurrent), sortCandidates_shuffle, sortCandidates_map_key, List.length_map]
    rw [← hrounds]
    rw [show ([] : List (uint256 × StakeBlockIndex)) =
      ([] : List StakeBlockIndex).map fun b => (b.hashBlock, b) from rfl, hrun]
    rfl
  have hpicks64 : picks.length ≤ 64 := by omega
  refine ⟨_, picks, hcompute, hlen64, by simpa using hnd, fun k hk => ⟨?_, ?_⟩, fun k hk => ?_⟩
  · have h := hspec k hk
    rwa [List.nil_append, List.take_take, Nat.min_eq_left (by omega)] at h
  · rw [testBit_writeEntropyBits, any_zip_finRange hpicks64 k (·.GetStakeEntropyBit == 1),
      dif_pos hk]
    simp
  · rw [testBit_writeEntropyBits, any_zip_finRange hpicks64 k (·.GetStakeEntropyBit == 1),
      dif_neg (by omega)]
    simp

/-- A modifier generated on the main network over a chain of two indexed blocks, the older of
which generated the last modifier two intervals before. -/
theorem ComputeNextStakeModifier_rounds_two :
    let b₀ : StakeBlockIndex :=
      { hashBlock := 1, nHeight := 0, nTime := 1680357192, nBits := 0,
        nFlags := BLOCK_STAKE_MODIFIER, nStakeModifier := 7, hashProofOfStake := 0 }
    let b₁ : StakeBlockIndex :=
      { hashBlock := 2, nHeight := 1, nTime := 1680357192 + 43200, nBits := 0,
        nFlags := BLOCK_STAKE_ENTROPY, nStakeModifier := 7, hashProofOfStake := 0 }
    let current : StakeBlockIndex :=
      { b₁ with hashBlock := 3, nHeight := 2, nTime := 1680357192 + 43320 }
    GetLastStakeModifier [b₁, b₀] = some (7, 1680357192) ∧
      ∃ m, ComputeNextStakeModifier mainStakeParams (fun _ => 0)
        (fun h => [b₁, b₀].find? (·.hashBlock = h)) (fun _ => 0) current [b₁, b₀] = some (m, true) := by
  intro b₀ b₁ current
  have hlast : GetLastStakeModifier [b₁, b₀] = some (7, 1680357192) := by decide
  obtain ⟨m, -, hm, -⟩ := @ComputeNextStakeModifier_rounds mainStakeParams (fun _ => 0)
    (fun h => [b₁, b₀].find? (·.hashBlock = h)) (fun _ => 0) current b₁ [b₀] 7 1680357192 hlast
    (by decide) (by decide) (by decide) (by decide)
  exact ⟨hlast, m, hm⟩

/-- **The stake modifier does not depend on the shuffle**: whatever `GetRand` draws,
`ComputeNextStakeModifier` returns the same modifier and flag, on every chain and block index. -/
theorem ComputeNextStakeModifier_shuffle_irrelevant (params : StakeParams)
    (Hash : List UInt8 → uint256) (LookupBlockIndex : uint256 → Option StakeBlockIndex)
    (GetRand₁ GetRand₂ : Nat → Nat) (pindexCurrent : StakeBlockIndex)
    (pindexPrev : List StakeBlockIndex) :
    ComputeNextStakeModifier params Hash LookupBlockIndex GetRand₁ pindexCurrent pindexPrev =
      ComputeNextStakeModifier params Hash LookupBlockIndex GetRand₂ pindexCurrent pindexPrev := by
  simp only [ComputeNextStakeModifier, sortCandidates_shuffle]

/-! ## The modifier a kernel reads -/

/-- The loop of `GetKernelStakeModifierV05` from `pindex` back, with `nStakeModifierTime` the time
of the last generating block it passed (at first, the previous block's): it stops where that time
is early enough for `nTimeTx`, and fails at genesis. -/
def GetKernelStakeModifierV05.loop (params : StakeParams) (nTimeTx : UInt32)
    (nStakeModifierSelectionInterval : Int) :
    List StakeBlockIndex → Int → Option UInt64
  | [], _ => none
  | pindex :: rest, nStakeModifierTime =>
    if nStakeModifierTime + params.nStakeMinAge - nStakeModifierSelectionInterval >
        (nTimeTx.toNat : Int) then
      match rest with
      | [] => none
      | p :: _ =>
        loop params nTimeTx nStakeModifierSelectionInterval rest
          (if p.GeneratedStakeModifier then p.getBlockTime else nStakeModifierTime)
    else some pindex.nStakeModifier

/-- `GetKernelStakeModifierV05(pindexPrev, nTimeTx, ...)`: the modifier, or `none` where it
returns `false`. -/
def GetKernelStakeModifierV05 (params : StakeParams) (pindexPrev : List StakeBlockIndex)
    (nTimeTx : UInt32) : Except Abort (Option UInt64) :=
  match pindexPrev with
  | [] => .error .nullDeref
  | prev :: _ =>
    let nStakeModifierTime := prev.getBlockTime
    let nStakeModifierSelectionInterval := GetStakeModifierSelectionInterval params
    if nStakeModifierTime + params.nStakeMinAge - nStakeModifierSelectionInterval ≤
        (nTimeTx.toNat : Int) then .ok none
    else .ok (GetKernelStakeModifierV05.loop params nTimeTx nStakeModifierSelectionInterval
      pindexPrev nStakeModifierTime)

/-- The walk stops at a block once its stored time is early enough. -/
theorem GetKernelStakeModifierV05.loop_of_le (params : StakeParams) (nTimeTx : UInt32)
    (interval : Int) (pindex : StakeBlockIndex) (rest : List StakeBlockIndex) {t : Int}
    (ht : t + params.nStakeMinAge - interval ≤ (nTimeTx.toNat : Int)) :
    loop params nTimeTx interval (pindex :: rest) t = some pindex.nStakeModifier := by
  cases rest <;> simp [loop, not_lt.2 ht]

/-- The walk from a block whose stored time is not yet early enough finds the nearest block
behind it that generated a modifier early enough. -/
theorem GetKernelStakeModifierV05.loop_eq (params : StakeParams) (nTimeTx : UInt32)
    (interval : Int) (pindex : StakeBlockIndex) (rest : List StakeBlockIndex) {t : Int}
    (ht : ¬ t + params.nStakeMinAge - interval ≤ (nTimeTx.toNat : Int)) :
    loop params nTimeTx interval (pindex :: rest) t =
      (rest.find? fun g => g.GeneratedStakeModifier &&
        decide (g.getBlockTime + params.nStakeMinAge - interval ≤ (nTimeTx.toNat : Int))).map
        StakeBlockIndex.nStakeModifier := by
  induction rest generalizing pindex t with
  | nil => simp [loop, not_le.1 ht]
  | cons p rest ih =>
    have hstep : loop params nTimeTx interval (pindex :: p :: rest) t =
        loop params nTimeTx interval (p :: rest)
          (if p.GeneratedStakeModifier then p.getBlockTime else t) := by
      rw [loop, if_pos (not_le.1 ht)]
    rw [hstep]
    by_cases hfound : p.GeneratedStakeModifier = true ∧
        p.getBlockTime + params.nStakeMinAge - interval ≤ (nTimeTx.toNat : Int)
    · rw [if_pos hfound.1, List.find?_cons_of_pos (by simp [hfound.1, hfound.2]),
        loop_of_le params nTimeTx interval p rest hfound.2]
      rfl
    · have ht' : ¬ (if p.GeneratedStakeModifier then p.getBlockTime else t) + params.nStakeMinAge -
          interval ≤ (nTimeTx.toNat : Int) := by
        split
        · exact fun h => hfound ⟨‹_›, h⟩
        · exact ht
      rw [ih p ht', List.find?_cons_of_neg]
      simpa using hfound

/-- **The modifier a kernel reads**: `GetKernelStakeModifierV05` returns the modifier of the
nearest strict ancestor of `pindexPrev` that generated one and whose time is early enough for
`nTimeTx`; it returns `false` exactly when `pindexPrev` itself is early enough or no such ancestor
exists. -/
theorem GetKernelStakeModifierV05_eq (params : StakeParams) (pindexPrev : StakeBlockIndex)
    (ancestors : List StakeBlockIndex) (nTimeTx : UInt32) :
    GetKernelStakeModifierV05 params (pindexPrev :: ancestors) nTimeTx =
      .ok (if pindexPrev.getBlockTime + params.nStakeMinAge -
            GetStakeModifierSelectionInterval params ≤ (nTimeTx.toNat : Int) then none
        else (ancestors.find? fun g => g.GeneratedStakeModifier &&
          decide (g.getBlockTime + params.nStakeMinAge - GetStakeModifierSelectionInterval params ≤
            (nTimeTx.toNat : Int))).map StakeBlockIndex.nStakeModifier) := by
  unfold GetKernelStakeModifierV05
  dsimp only
  split
  · rfl
  · rw [GetKernelStakeModifierV05.loop_eq params nTimeTx _ pindexPrev ancestors ‹_›]

end NowpConsensus
