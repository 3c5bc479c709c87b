import NowpConsensus.Consensus.Params
import Mathlib.Data.List.Sort

/-!
# The block index

A `CBlockIndex` entry of `chain.h` holds what the node keeps about a header, and a pointer to
its predecessor. The functions modelled here read only the entry's own fields and follow
`pprev`, so a pointer is modelled as the list of the entry it points to and its ancestors,
newest first, down to genesis: `pprev` is the tail, and `nullptr` the empty list. A block tree
is then a set of such lists, closed under taking tails (`Validation/HeaderTree.lean`).

The walks over ancestors are list functions: `GetLastBlockIndex` (`chain.cpp`), the backwards
search for the last block of a type, and `GetMedianTimePast`. The count of blocks of one type
among a list of entries, `countType`, is what the difficulty code's walks consume.
-/

namespace NowpConsensus

/-- `CBlockIndex`, the fields the model reads. -/
structure CBlockIndex where
  /-- `*phashBlock`. -/
  hashBlock : uint256
  nHeight : Int
  nTime : UInt32
  nBits : UInt32
  nFlags : UInt32
  deriving DecidableEq, Repr

namespace CBlockIndex

/-- `CBlockIndex::IsProofOfStake`. -/
def isProofOfStake (b : CBlockIndex) : Bool := b.nFlags &&& BLOCK_PROOF_OF_STAKE != 0

/-- `CBlockIndex::GetBlockTime`. -/
def getBlockTime (b : CBlockIndex) : Int := b.nTime.toNat

end CBlockIndex

/-- `CBlockIndex*`: the entry pointed to and its ancestors, newest first; `[]` is `nullptr`. -/
abbrev BlockPtr := List CBlockIndex

/-- `GetLastBlockIndex(pindex, fProofOfStake)`: walk back to the last block of the requested
type, stopping at genesis (the entry without `pprev`). -/
def GetLastBlockIndex : BlockPtr → Bool → BlockPtr
  | [], _ => []
  | [b], _ => [b]
  | b :: b' :: rest, fProofOfStake =>
    if b.isProofOfStake != fProofOfStake then GetLastBlockIndex (b' :: rest) fProofOfStake
    else b :: b' :: rest

/-- `CBlockIndex::nMedianTimeSpan`. -/
def nMedianTimeSpan : Nat := 11

/-- `CBlockIndex::GetMedianTimePast`: the median of the times of the entry and its ten
predecessors (fewer near genesis), `pbegin[(pend - pbegin) / 2]` after `std::sort`. -/
def GetMedianTimePast (p : BlockPtr) : Int :=
  let sorted := ((p.take nMedianTimeSpan).map CBlockIndex.getBlockTime).insertionSort (· ≤ ·)
  sorted.getD (sorted.length / 2) 0

/-- The number of entries of a list whose type is `fProofOfStake`. -/
def countType (fProofOfStake : Bool) (l : BlockPtr) : Nat :=
  l.countP (fun b => b.isProofOfStake == fProofOfStake)

@[simp]
theorem countType_nil (f : Bool) : countType f [] = 0 := rfl

theorem countType_cons (f : Bool) (b : CBlockIndex) (l : BlockPtr) :
    countType f (b :: l) = countType f l + if b.isProofOfStake = f then 1 else 0 := by
  simp [countType, List.countP_cons]

/-- Skipping the blocks of the other type loses none of the requested type. -/
theorem countType_dropWhile (f : Bool) (l : BlockPtr) :
    countType f (l.dropWhile fun b => b.isProofOfStake != f) = countType f l := by
  induction l with
  | nil => rfl
  | cons b l ih =>
    by_cases hb : b.isProofOfStake = f
    · have : (b :: l).dropWhile (fun b => b.isProofOfStake != f) = b :: l := by
        simp [hb]
      rw [this]
    · rw [List.dropWhile_cons_of_pos (by simpa using hb), ih, countType_cons]
      simp [hb]

/-- After skipping the blocks of the other type, a non-empty rest starts with a block of the
requested type. -/
theorem head_dropWhile {f : Bool} {l : BlockPtr} {b : CBlockIndex} {rest : BlockPtr}
    (h : l.dropWhile (fun b => b.isProofOfStake != f) = b :: rest) : b.isProofOfStake = f := by
  have := @List.head_dropWhile_not _ (fun b : CBlockIndex => b.isProofOfStake != f) l
    (by simp [h])
  simpa [h] using this

/-- The skip is empty exactly when no block of the requested type is left. -/
theorem dropWhile_eq_nil_iff {f : Bool} {l : BlockPtr} :
    l.dropWhile (fun b => b.isProofOfStake != f) = [] ↔ countType f l = 0 := by
  induction l with
  | nil => simp
  | cons b l ih =>
    by_cases hb : b.isProofOfStake = f
    · simp [hb, countType_cons]
    · rw [List.dropWhile_cons_of_pos (by simpa using hb), ih, countType_cons]
      simp [hb]

/-! ## `GetLastBlockIndex` -/

theorem GetLastBlockIndex_ne_nil {p : BlockPtr} (hp : p ≠ []) (f : Bool) :
    GetLastBlockIndex p f ≠ [] := by
  fun_induction GetLastBlockIndex p f with
  | case1 => exact absurd rfl hp
  | case2 b => exact List.cons_ne_nil _ _
  | case3 b b' rest f _ ih => exact ih (List.cons_ne_nil _ _)
  | case4 b b' rest f _ => exact List.cons_ne_nil _ _

/-- `GetLastBlockIndex` returns a suffix of its argument. -/
theorem GetLastBlockIndex_suffix (p : BlockPtr) (f : Bool) : GetLastBlockIndex p f <:+ p := by
  fun_induction GetLastBlockIndex p f with
  | case1 => exact List.suffix_refl _
  | case2 b => exact List.suffix_refl _
  | case3 b b' rest f _ ih => exact ih.trans (List.suffix_cons _ _)
  | case4 b b' rest f _ => exact List.suffix_refl _

/-- Where `GetLastBlockIndex` stops with a predecessor left, the block has the requested type. -/
theorem isProofOfStake_GetLastBlockIndex {p : BlockPtr} {f : Bool} {b : CBlockIndex}
    {b' : CBlockIndex} {rest : BlockPtr} (h : GetLastBlockIndex p f = b :: b' :: rest) :
    b.isProofOfStake = f := by
  fun_induction GetLastBlockIndex p f with
  | case1 => cases h
  | case2 c => cases h
  | case3 c c' tail f _ ih => exact ih h
  | case4 c c' tail f hc =>
    obtain ⟨rfl, -⟩ := List.cons.inj h
    simpa using hc

end NowpConsensus
