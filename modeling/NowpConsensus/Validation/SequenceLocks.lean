import NowpConsensus.Chain.BlockIndex

/-!
# Relative lock-times

BIP68's relative lock-times, from `consensus/tx_verify.cpp`: `CalculateSequenceLocks` folds the
inputs of a transaction into the last invalid height and time, `EvaluateSequenceLocks` compares
them with the block, and `SequenceLocks` runs the two in turn, as `ConnectBlock` calls it. The
block is the list view of `CBlockIndex*` (`Chain/BlockIndex.lean`), and `GetAncestor(height)`
steps back along `pprev`; the skip pointers reach the same entry (`Chain/Skip.lean`).

An input's `nSequence` sets a relative lock (`RelativeLock.ofSequence`): none with the disable
flag, otherwise a number of blocks or, with the type flag, of 512-second units, counted from the
coin's block. On a chain whose heights count down to genesis (`BlockPtr.IsChain`):

* `SequenceLocks_eq_ok`: `SequenceLocks` returns, and it returns `true` exactly when BIP68 is
  not enforced for the transaction (a version below 2 read unsigned, or the flag off) or every
  input's lock has expired at the block (`RelativeLock.expired`);
* `CalculateSequenceLocks_prevHeights`: the heights it is given come back with those of the
  inputs without a lock set to 0, when BIP68 is enforced;
* `SequenceLocks_mono`: a transaction that passes at a block passes at every later block of the
  same chain whose median time past has not gone back.
-/

namespace NowpConsensus

/-! ## The source -/

/-- `CTxIn::SEQUENCE_LOCKTIME_DISABLE_FLAG`. -/
def SEQUENCE_LOCKTIME_DISABLE_FLAG : UInt32 := (1 : UInt32) <<< 31

/-- `CTxIn::SEQUENCE_LOCKTIME_TYPE_FLAG`. -/
def SEQUENCE_LOCKTIME_TYPE_FLAG : UInt32 := (1 : UInt32) <<< 22

/-- `CTxIn::SEQUENCE_LOCKTIME_MASK`. -/
def SEQUENCE_LOCKTIME_MASK : UInt32 := 0x0000ffff

/-- `CTxIn::SEQUENCE_LOCKTIME_GRANULARITY`. -/
def SEQUENCE_LOCKTIME_GRANULARITY : UInt32 := 9

/-- The walk of `CBlockIndex::GetAncestor`, `k` steps back along `pprev` from the entry `p`
points to, past `assert(pindexWalk->pprev)`. -/
def BlockPtr.walkBack : Nat → BlockPtr → Except Abort BlockPtr
  | 0, p => .ok p
  | k + 1, _ :: prev@(_ :: _) => walkBack k prev
  | _ + 1, _ => .error .assertion

/-- `CBlockIndex::GetAncestor(height)` on the entry `p` points to: `nullptr` outside
`[0, nHeight]`, and otherwise the entry `nHeight - height` steps back. -/
def BlockPtr.GetAncestor (p : BlockPtr) (height : Int) : Except Abort BlockPtr :=
  match p with
  | [] => .error .nullDeref
  | b :: _ =>
    if height > b.nHeight || height < 0 then .ok []
    else BlockPtr.walkBack (b.nHeight - height).toNat p

/-- One input of the loop of `CalculateSequenceLocks`, with `acc` the bounds
`(nMinHeight, nMinTime)` so far and `nCoinHeight` the input's entry of `prevHeights`: the bounds
after the input, and the entry as the input leaves it. -/
def CalculateSequenceLocks.input (block : BlockPtr) (txin : CTxIn) (nCoinHeight : Int)
    (acc : Int × Int) : Except Abort ((Int × Int) × Int) :=
  if txin.nSequence &&& SEQUENCE_LOCKTIME_DISABLE_FLAG != 0 then .ok (acc, 0)
  else if txin.nSequence &&& SEQUENCE_LOCKTIME_TYPE_FLAG != 0 then
    BlockPtr.GetAncestor block (max (nCoinHeight - 1) 0) >>= fun ancestor =>
    match ancestor with
    | [] => .error .nullDeref
    | _ :: _ =>
      let nCoinTime := GetMedianTimePast ancestor
      let units := (txin.nSequence &&& SEQUENCE_LOCKTIME_MASK) <<< SEQUENCE_LOCKTIME_GRANULARITY
      .ok ((acc.1, max acc.2 (nCoinTime + units.toNat - 1)), nCoinHeight)
  else
    .ok ((max acc.1 (nCoinHeight + (txin.nSequence &&& SEQUENCE_LOCKTIME_MASK).toNat - 1), acc.2),
      nCoinHeight)

/-- The loop of `CalculateSequenceLocks` over the inputs and their entries of `prevHeights`. -/
def CalculateSequenceLocks.loop (block : BlockPtr) :
    List CTxIn → List Int → Int × Int → Except Abort ((Int × Int) × List Int)
  | [], prevHeights, acc => .ok (acc, prevHeights)
  | _ :: _, [], _ => .error .outOfRange
  | txin :: vin, nCoinHeight :: prevHeights, acc =>
    input block txin nCoinHeight acc >>= fun (acc, nCoinHeight) =>
    loop block vin prevHeights acc >>= fun (acc, prevHeights) =>
    .ok (acc, nCoinHeight :: prevHeights)

/-- `CalculateSequenceLocks(tx, flags, prevHeights, block)`, with `flags` whether
`LOCKTIME_VERIFY_SEQUENCE` is set: the last invalid height and time, and `prevHeights` as the
call leaves it. The version is compared unsigned, so a negative one is enforced. -/
def CalculateSequenceLocks (tx : CTransaction) (flags : Bool) (prevHeights : List Int)
    (block : BlockPtr) : Except Abort ((Int × Int) × List Int) :=
  if prevHeights.length != tx.vin.length then .error .assertion
  else
    let fEnforceBIP68 := decide (2 ≤ tx.nVersion.toUInt32) && flags
    if !fEnforceBIP68 then .ok ((-1, -1), prevHeights)
    else CalculateSequenceLocks.loop block tx.vin prevHeights (-1, -1)

/-- `EvaluateSequenceLocks(block, lockPair)`, past `assert(block.pprev)`. -/
def EvaluateSequenceLocks (block : BlockPtr) (lockPair : Int × Int) : Except Abort Bool :=
  match block with
  | [] => .error .nullDeref
  | b :: pprev =>
    if pprev = [] then .error .assertion
    else
      let nBlockTime := GetMedianTimePast pprev
      .ok !(decide (lockPair.1 ≥ b.nHeight) || decide (lockPair.2 ≥ nBlockTime))

/-- `SequenceLocks(tx, flags, prevHeights, block)`. -/
def SequenceLocks (tx : CTransaction) (flags : Bool) (prevHeights : List Int) (block : BlockPtr) :
    Except Abort Bool :=
  CalculateSequenceLocks tx flags prevHeights block >>= fun (lockPair, _) =>
  EvaluateSequenceLocks block lockPair

/-! ## What the rule says -/

/-- The relative lock an input's `nSequence` sets. -/
inductive RelativeLock
  /-- The disable flag is set: no lock. -/
  | none
  /-- `value` blocks after the coin's block. -/
  | blocks (value : Nat)
  /-- `value` units of `2 ^ 9` seconds after the median time past before the coin's block. -/
  | time (value : Nat)
  deriving DecidableEq, Repr

/-- The lock an `nSequence` sets, BIP68's reading of its flags and its low 16 bits. -/
def RelativeLock.ofSequence (nSequence : UInt32) : RelativeLock :=
  if nSequence &&& SEQUENCE_LOCKTIME_DISABLE_FLAG != 0 then .none
  else if nSequence &&& SEQUENCE_LOCKTIME_TYPE_FLAG != 0 then
    .time (nSequence &&& SEQUENCE_LOCKTIME_MASK).toNat
  else .blocks (nSequence &&& SEQUENCE_LOCKTIME_MASK).toNat

/-- Whether the lock of an input that spends a coin of height `nCoinHeight` has expired in the
block `b` on `pprev`: the coin's block is `value` blocks back, or the median time past before `b`
is `value` units past the one before the coin's block (genesis for a coin of genesis). -/
def RelativeLock.expired (b : CBlockIndex) (pprev : BlockPtr) (nCoinHeight : Int) :
    RelativeLock → Bool
  | .none => true
  | .blocks value => decide (nCoinHeight + value ≤ b.nHeight)
  | .time value =>
    decide (GetMedianTimePast ((b :: pprev).drop (b.nHeight - max (nCoinHeight - 1) 0).toNat) +
      value * 2 ^ 9 ≤ GetMedianTimePast pprev)

/-- BIP68 for a transaction in the block `b` on `pprev`: not enforced below version 2 (read
unsigned) or without the flag, and otherwise every input's lock has expired. -/
def SequenceLocks.spec (tx : CTransaction) (flags : Bool) (prevHeights : List Int)
    (b : CBlockIndex) (pprev : BlockPtr) : Bool :=
  !(decide (2 ≤ tx.nVersion.toUInt32) && flags) ||
    (tx.vin.zip prevHeights).all fun p => (RelativeLock.ofSequence p.1.nSequence).expired b pprev p.2

/-- The bounds `(nMinHeight, nMinTime)` are met in the block `b` on `pprev`: the last invalid
height is below `b`'s, and the last invalid time below the median time past before it. -/
def SequenceLocks.Met (b : CBlockIndex) (pprev : BlockPtr) (lockPair : Int × Int) : Prop :=
  lockPair.1 < b.nHeight ∧ lockPair.2 < GetMedianTimePast pprev

instance SequenceLocks.decidableMet (b : CBlockIndex) (pprev : BlockPtr) (lockPair : Int × Int) :
    Decidable (SequenceLocks.Met b pprev lockPair) :=
  inferInstanceAs (Decidable (lockPair.1 < b.nHeight ∧ lockPair.2 < GetMedianTimePast pprev))

/-- The entry of `prevHeights` after an input: 0 for an input without a lock. -/
def SequenceLocks.heightAfter (txin : CTxIn) (nCoinHeight : Int) : Int :=
  if txin.nSequence &&& SEQUENCE_LOCKTIME_DISABLE_FLAG != 0 then 0 else nCoinHeight

/-- A pointer into a chain whose heights count down by one to genesis at height 0. -/
def BlockPtr.IsChain : BlockPtr → Prop
  | [] => True
  | b :: pprev => b.nHeight = pprev.length ∧ BlockPtr.IsChain pprev

instance BlockPtr.decidableIsChain : (p : BlockPtr) → Decidable (BlockPtr.IsChain p)
  | [] => isTrue trivial
  | b :: pprev =>
    @instDecidableAnd _ _ (inferInstanceAs (Decidable (b.nHeight = pprev.length)))
      (BlockPtr.decidableIsChain pprev)

/-! ## The walk back and the median time past -/

theorem BlockPtr.walkBack_eq {k : Nat} {p : BlockPtr} (h : k < p.length) :
    BlockPtr.walkBack k p = .ok (p.drop k) := by
  induction k generalizing p with
  | zero => rfl
  | succ k ih =>
    rcases p with _ | ⟨x, _ | ⟨y, rest⟩⟩
    · simp at h
    · simp at h
    · rw [BlockPtr.walkBack, ih (by simp at h ⊢; omega), List.drop_succ_cons]

/-- On a pointer whose height counts its ancestors, `GetAncestor` of a height in `[0, nHeight]`
is the entry that many steps back. -/
theorem BlockPtr.GetAncestor_eq {b : CBlockIndex} {pprev : BlockPtr}
    (hh : b.nHeight = pprev.length) {height : Int} (h0 : 0 ≤ height) (hle : height ≤ b.nHeight) :
    BlockPtr.GetAncestor (b :: pprev) height =
      .ok ((b :: pprev).drop (b.nHeight - height).toNat) := by
  rw [BlockPtr.GetAncestor, if_neg (by simp; omega), BlockPtr.walkBack_eq (by simp; omega)]

theorem GetMedianTimePast_nonneg (p : BlockPtr) : 0 ≤ GetMedianTimePast p := by
  unfold GetMedianTimePast
  rw [List.getD_eq_getElem?_getD]
  cases ht : (((p.take nMedianTimeSpan).map CBlockIndex.getBlockTime).insertionSort
      (· ≤ ·))[(((p.take nMedianTimeSpan).map CBlockIndex.getBlockTime).insertionSort
      (· ≤ ·)).length / 2]? with
  | none => simp
  | some t =>
    have hmem := List.mem_of_getElem? ht
    rw [List.mem_insertionSort, List.mem_map] at hmem
    obtain ⟨e, -, rfl⟩ := hmem
    simp [CBlockIndex.getBlockTime]

/-- A pointer into a chain points into a chain all the way back. -/
theorem BlockPtr.IsChain.of_suffix {p q : BlockPtr} (hq : BlockPtr.IsChain q) (h : p <:+ q) :
    BlockPtr.IsChain p := by
  obtain ⟨t, rfl⟩ := h
  induction t with
  | nil => exact hq
  | cons x t ih => exact ih hq.2

theorem units_toNat (nSequence : UInt32) :
    ((nSequence &&& SEQUENCE_LOCKTIME_MASK) <<< SEQUENCE_LOCKTIME_GRANULARITY).toNat =
      (nSequence &&& SEQUENCE_LOCKTIME_MASK).toNat * 2 ^ 9 := by
  have hlt : (nSequence &&& SEQUENCE_LOCKTIME_MASK).toNat ≤ 0xffff := by
    rw [UInt32.toNat_and]
    exact Nat.and_le_right
  have h9 : SEQUENCE_LOCKTIME_GRANULARITY.toNat % 32 = 9 := by decide
  rw [UInt32.toNat_shiftLeft, h9, Nat.shiftLeft_eq]
  omega

/-! ## One input, and the loop -/

section Loop

variable {b : CBlockIndex} {pprev : BlockPtr} (hh : b.nHeight = pprev.length)
include hh

/-- An input of a coin no higher than the block: the bounds after it are met exactly when those
before it are and its lock has expired. -/
theorem CalculateSequenceLocks.input_eq_ok (txin : CTxIn) {nCoinHeight : Int}
    (hcoin : nCoinHeight ≤ b.nHeight) (acc : Int × Int) :
    ∃ acc', CalculateSequenceLocks.input (b :: pprev) txin nCoinHeight acc =
        .ok (acc', SequenceLocks.heightAfter txin nCoinHeight) ∧
      (SequenceLocks.Met b pprev acc' ↔ SequenceLocks.Met b pprev acc ∧
        (RelativeLock.ofSequence txin.nSequence).expired b pprev nCoinHeight = true) := by
  unfold CalculateSequenceLocks.input SequenceLocks.heightAfter RelativeLock.ofSequence
  by_cases hd : (txin.nSequence &&& SEQUENCE_LOCKTIME_DISABLE_FLAG != 0) = true
  · refine ⟨acc, by rw [if_pos hd, if_pos hd], ?_⟩
    simp [hd, RelativeLock.expired]
  by_cases ht : (txin.nSequence &&& SEQUENCE_LOCKTIME_TYPE_FLAG != 0) = true
  · have hanc := BlockPtr.GetAncestor_eq hh (le_max_right (nCoinHeight - 1) 0)
      (by omega : max (nCoinHeight - 1) 0 ≤ b.nHeight)
    have hne : (b :: pprev).drop (b.nHeight - max (nCoinHeight - 1) 0).toNat ≠ [] := by
      rw [ne_eq, List.drop_eq_nil_iff, List.length_cons]
      omega
    obtain ⟨e, rest, hcons⟩ := List.exists_cons_of_ne_nil hne
    refine ⟨(acc.1, max acc.2 (GetMedianTimePast (e :: rest) +
      ((txin.nSequence &&& SEQUENCE_LOCKTIME_MASK) <<< SEQUENCE_LOCKTIME_GRANULARITY).toNat - 1)),
      by simp only [if_neg hd, if_pos ht, hanc, Except.bind_ok_left, hcons], ?_⟩
    simp only [if_neg hd, if_pos ht, SequenceLocks.Met, RelativeLock.expired, hcons, units_toNat,
      max_lt_iff, decide_eq_true_eq]
    push_cast
    omega
  · refine ⟨(max acc.1 (nCoinHeight + (txin.nSequence &&& SEQUENCE_LOCKTIME_MASK).toNat - 1),
      acc.2), by simp only [if_neg hd, if_neg ht], ?_⟩
    simp only [if_neg hd, if_neg ht, SequenceLocks.Met, RelativeLock.expired, max_lt_iff,
      decide_eq_true_eq]
    omega

/-- The loop over inputs of coins no higher than the block, from any bounds: the bounds after
it are met exactly when those before it are and every input's lock has expired. -/
theorem CalculateSequenceLocks.loop_eq_ok (vin : List CTxIn) (prevHeights : List Int)
    (acc : Int × Int) (hlen : prevHeights.length = vin.length)
    (hcoin : ∀ h ∈ prevHeights, h ≤ b.nHeight) :
    ∃ acc', CalculateSequenceLocks.loop (b :: pprev) vin prevHeights acc =
        .ok (acc', List.zipWith SequenceLocks.heightAfter vin prevHeights) ∧
      (SequenceLocks.Met b pprev acc' ↔ SequenceLocks.Met b pprev acc ∧
        ∀ p ∈ vin.zip prevHeights,
          (RelativeLock.ofSequence p.1.nSequence).expired b pprev p.2 = true) := by
  induction vin generalizing prevHeights acc with
  | nil =>
    rw [List.length_eq_zero_iff.1 hlen]
    exact ⟨acc, rfl, by simp⟩
  | cons txin vin ih =>
    rcases prevHeights with _ | ⟨h, hs⟩
    · simp at hlen
    obtain ⟨acc₁, h₁, hiff₁⟩ :=
      CalculateSequenceLocks.input_eq_ok hh txin (hcoin h (List.mem_cons_self ..)) acc
    obtain ⟨acc₂, h₂, hiff₂⟩ := ih hs acc₁ (by simpa using hlen)
      (fun x hx => hcoin x (List.mem_cons_of_mem _ hx))
    refine ⟨acc₂, by simp only [CalculateSequenceLocks.loop, h₁, h₂, Except.bind_ok_left,
      List.zipWith_cons_cons], ?_⟩
    rw [hiff₂, hiff₁, List.zip_cons_cons]
    simp only [List.mem_cons, forall_eq_or_imp, and_assoc]

end Loop

/-! ## Later blocks of a chain -/

section Later

variable {b b' : CBlockIndex} {pprev pprev' : BlockPtr}
  (hchain : BlockPtr.IsChain (b' :: pprev')) (hsuffix : b :: pprev <:+ b' :: pprev')
include hchain hsuffix

theorem BlockPtr.nHeight_le_of_suffix : b.nHeight ≤ b'.nHeight := by
  have hl := hsuffix.length_le
  simp only [List.length_cons] at hl
  rw [(hchain.of_suffix hsuffix).1, hchain.1]
  omega

/-- From a later block of the chain, the entry at a height both reach is the same: the suffix
of the chain of that length. -/
theorem BlockPtr.drop_eq_of_suffix {height : Int} (h0 : 0 ≤ height) (hle : height ≤ b.nHeight) :
    (b' :: pprev').drop (b'.nHeight - height).toNat =
      (b :: pprev).drop (b.nHeight - height).toNat := by
  have hh : b.nHeight = pprev.length := (hchain.of_suffix hsuffix).1
  have hh' : b'.nHeight = pprev'.length := hchain.1
  have hl := hsuffix.length_le
  simp only [List.length_cons] at hl
  have hs₁ : (b :: pprev).drop (b.nHeight - height).toNat <:+ b' :: pprev' :=
    (List.drop_suffix _ _).trans hsuffix
  have hs₂ : (b' :: pprev').drop (b'.nHeight - height).toNat <:+ b' :: pprev' :=
    List.drop_suffix _ _
  have hlen : ((b' :: pprev').drop (b'.nHeight - height).toNat).length =
      ((b :: pprev).drop (b.nHeight - height).toNat).length := by
    simp only [List.length_drop, List.length_cons]
    omega
  exact (List.suffix_of_suffix_length_le hs₂ hs₁ hlen.le).eq_of_length hlen

/-- A lock that has expired at a block has expired at every later block of the chain whose
median time past has not gone back. -/
theorem RelativeLock.expired_mono (hmtp : GetMedianTimePast pprev ≤ GetMedianTimePast pprev')
    {nCoinHeight : Int} (hcoin : nCoinHeight ≤ b.nHeight) (lock : RelativeLock)
    (h : lock.expired b pprev nCoinHeight = true) : lock.expired b' pprev' nCoinHeight = true := by
  have hheight := BlockPtr.nHeight_le_of_suffix hchain hsuffix
  cases lock with
  | none => rfl
  | blocks value =>
    simp only [RelativeLock.expired, decide_eq_true_eq] at h ⊢
    omega
  | time value =>
    have h0 : 0 ≤ b.nHeight := by rw [(hchain.of_suffix hsuffix).1]; omega
    simp only [RelativeLock.expired, decide_eq_true_eq] at h ⊢
    rw [BlockPtr.drop_eq_of_suffix hchain hsuffix (le_max_right _ _) (by omega)]
    omega

end Later

/-! ## `SequenceLocks` -/

section Spec

variable {tx : CTransaction} {flags : Bool} {prevHeights : List Int} {b : CBlockIndex}
  {pprev : BlockPtr}

/-- **What `CalculateSequenceLocks` leaves in `prevHeights`.** When BIP68 is enforced, the
entries of the inputs without a lock become 0 and the others stay; otherwise none changes. -/
theorem CalculateSequenceLocks_prevHeights (hchain : BlockPtr.IsChain (b :: pprev))
    (hlen : prevHeights.length = tx.vin.length) (hcoin : ∀ h ∈ prevHeights, h ≤ b.nHeight) :
    ∃ lockPair, CalculateSequenceLocks tx flags prevHeights (b :: pprev) =
      .ok (lockPair, if decide (2 ≤ tx.nVersion.toUInt32) && flags then
        List.zipWith SequenceLocks.heightAfter tx.vin prevHeights else prevHeights) := by
  unfold CalculateSequenceLocks
  rw [if_neg (by simpa using hlen)]
  by_cases hen : (decide (2 ≤ tx.nVersion.toUInt32) && flags) = true
  · obtain ⟨acc', hloop, -⟩ :=
      CalculateSequenceLocks.loop_eq_ok hchain.1 tx.vin prevHeights (-1, -1) hlen hcoin
    exact ⟨acc', by rw [if_neg (by simp [hen]), hloop, if_pos hen]⟩
  · have hoff := Bool.eq_false_iff.2 hen
    exact ⟨(-1, -1), by rw [if_pos (by rw [hoff]; rfl), if_neg hen]⟩

/-- A chain of three blocks ten minutes apart, at heights 0, 1 and 2. -/
def lockGenesis : CBlockIndex := ⟨0, 0, 0, 0, 0⟩

def lockMid : CBlockIndex := ⟨1, 1, 600, 0, 0⟩

def lockTip : CBlockIndex := ⟨2, 2, 1200, 0, 0⟩

/-- A version 2 transaction with one input of sequence number `nSequence`. -/
def lockTx (nSequence : UInt32) : CTransaction := ⟨[⟨⟨0, 0⟩, [], nSequence, []⟩], [], 2, 0, 0⟩

/-- **BIP68, as `SequenceLocks` decides it.** In a block of a chain, other than genesis, for
coins no higher than the block, `SequenceLocks` returns; it returns `true` exactly when BIP68 is
not enforced for the transaction or every input's relative lock has expired. -/
theorem SequenceLocks_eq_ok (hchain : BlockPtr.IsChain (b :: pprev)) (hpprev : pprev ≠ [])
    (hlen : prevHeights.length = tx.vin.length) (hcoin : ∀ h ∈ prevHeights, h ≤ b.nHeight) :
    SequenceLocks tx flags prevHeights (b :: pprev) =
      .ok (SequenceLocks.spec tx flags prevHeights b pprev) := by
  have hh : b.nHeight = pprev.length := hchain.1
  have hinit : SequenceLocks.Met b pprev (-1, -1) := by
    have := List.length_pos_iff.2 hpprev
    have := GetMedianTimePast_nonneg pprev
    constructor <;> simp only <;> omega
  have heval : ∀ lockPair, EvaluateSequenceLocks (b :: pprev) lockPair =
      .ok (decide (SequenceLocks.Met b pprev lockPair)) := by
    intro lockPair
    rw [EvaluateSequenceLocks, if_neg hpprev, Except.ok.injEq, Bool.eq_iff_iff,
      decide_eq_true_iff]
    simp [SequenceLocks.Met]
  unfold SequenceLocks CalculateSequenceLocks SequenceLocks.spec
  rw [if_neg (by simpa using hlen)]
  by_cases hen : (decide (2 ≤ tx.nVersion.toUInt32) && flags) = true
  · obtain ⟨acc', hloop, hiff⟩ :=
      CalculateSequenceLocks.loop_eq_ok hh tx.vin prevHeights (-1, -1) hlen hcoin
    rw [if_neg (by simp [hen]), hloop, Except.bind_ok_left]
    simp only [heval, hen, Bool.not_true, Bool.false_or, Except.ok.injEq]
    rw [Bool.eq_iff_iff, decide_eq_true_iff, hiff, List.all_eq_true]
    exact ⟨fun h => h.2, fun h => ⟨hinit, h⟩⟩
  · have hoff := Bool.eq_false_iff.2 hen
    rw [if_pos (by rw [hoff]; rfl), Except.bind_ok_left]
    simp only [heval, hoff]
    simp [hinit]

/-- A coin of genesis under a lock of two blocks, spent at height 2. -/
theorem SequenceLocks_eq_ok_lockTip :
    SequenceLocks (lockTx 2) true [0] [lockTip, lockMid, lockGenesis] =
      .ok (SequenceLocks.spec (lockTx 2) true [0] lockTip [lockMid, lockGenesis]) :=
  SequenceLocks_eq_ok (by decide) (by simp) rfl (by decide)

/-- **Once final, final on the chain.** A transaction that passes `SequenceLocks` in a block of
a chain, other than genesis, for coins no higher than the block, passes in every later block of
the chain whose median time past is not below the block's. -/
theorem SequenceLocks_mono {b' : CBlockIndex} {pprev' : BlockPtr}
    (hchain : BlockPtr.IsChain (b' :: pprev')) (hsuffix : b :: pprev <:+ b' :: pprev')
    (hpprev : pprev ≠ []) (hmtp : GetMedianTimePast pprev ≤ GetMedianTimePast pprev')
    (hlen : prevHeights.length = tx.vin.length) (hcoin : ∀ h ∈ prevHeights, h ≤ b.nHeight)
    (h : SequenceLocks tx flags prevHeights (b :: pprev) = .ok true) :
    SequenceLocks tx flags prevHeights (b' :: pprev') = .ok true := by
  have hc := hchain.of_suffix hsuffix
  have hheight := BlockPtr.nHeight_le_of_suffix hchain hsuffix
  have hpprev' : pprev' ≠ [] := by
    have hl := hsuffix.length_le
    simp only [List.length_cons] at hl
    rw [← List.length_pos_iff] at hpprev ⊢
    omega
  rw [SequenceLocks_eq_ok hc hpprev hlen hcoin, Except.ok.injEq] at h
  rw [SequenceLocks_eq_ok hchain hpprev' hlen (fun x hx => (hcoin x hx).trans hheight),
    Except.ok.injEq]
  unfold SequenceLocks.spec at h ⊢
  rw [Bool.or_eq_true, List.all_eq_true] at h ⊢
  rcases h with h | h
  · exact .inl h
  · exact .inr fun p hp => RelativeLock.expired_mono hchain hsuffix hmtp
      (hcoin p.2 (List.of_mem_zip hp).2) _ (h p hp)

/-- A coin of genesis under a lock of one block, spent at height 1 and then at height 2. -/
theorem SequenceLocks_mono_lockTip :
    SequenceLocks (lockTx 1) true [0] [lockTip, lockMid, lockGenesis] = .ok true :=
  SequenceLocks_mono (b := lockMid) (by decide) (List.suffix_cons _ _) (by simp) (by decide) rfl
    (by decide) (by decide)

end Spec

end NowpConsensus
