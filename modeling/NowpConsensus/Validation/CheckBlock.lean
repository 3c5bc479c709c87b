import NowpConsensus.Validation.HeaderTree

/-!
# Context-free checks of transactions and blocks

`CheckTransaction` (`consensus/tx_check.cpp`) and `CheckBlock` (`validation.cpp`), with the
reject reason each failing test reports.

What these functions compute from a block's bytes or by cryptography is given to the model as
functions (`BlockCodec`): the transaction hash, the merkle root and whether the tree is mutated,
serialised sizes, legacy signature-operation counts, the block signature check and, on a network
with `signet_blocks`, the signet block solution check. `fChecked`, the cache that lets
`CheckBlock` skip a block that already passed, is not modelled: it only ever repeats an earlier
`true`.

The type of the block `CheckBlock` works with is the body's, `CBlock::IsProofOfStake`: the
proof-of-work check of the header is made exactly when the body has no coinstake at position 1,
whatever the header's flags say.

* `CheckBlock.shape_of_valid`: a block that passes has its coinbase first and nowhere else, a
  coinstake nowhere past position 1, and transactions that pass `CheckTransaction`;
* `CheckBlock_ne_bad_tx_time`: the fork's rule against transactions dated after their block sits
  where it never runs, so `CheckBlock` never rejects with `bad-tx-time`, and
  `CheckBlock_accepts_future_tx` accepts a block with such a transaction.
-/

namespace NowpConsensus

/-- What validation reads of a block that is computed from its serialisation or by
cryptography. -/
structure BlockCodec extends BlockHashes where
  /-- `CTransaction::GetHash`. -/
  txHash : CTransaction → uint256
  /-- `BlockMerkleRoot(block, &mutated)`: the root and whether the tree is mutated. -/
  BlockMerkleRoot : CBlock → uint256 × Bool
  /-- `GetSerializeSize(tx, PROTOCOL_VERSION | SERIALIZE_TRANSACTION_NO_WITNESS)`. -/
  txSizeNoWitness : CTransaction → Nat
  /-- `GetSerializeSize(block, PROTOCOL_VERSION | SERIALIZE_TRANSACTION_NO_WITNESS)`. -/
  blockSizeNoWitness : CBlock → Nat
  /-- `GetLegacySigOpCount(tx)`. -/
  GetLegacySigOpCount : CTransaction → Nat
  /-- `CheckBlockSignature(block)`. -/
  CheckBlockSignature : CBlock → Bool
  /-- `CheckSignetBlockSolution(block, consensusParams)`: the solution in the block against the
  network's signet challenge. -/
  CheckSignetBlockSolution : CBlock → Bool

/-- `MAX_BLOCK_WEIGHT`. -/
def MAX_BLOCK_WEIGHT : Nat := 4000000

/-- `WITNESS_SCALE_FACTOR`. -/
def WITNESS_SCALE_FACTOR : Nat := 4

/-- `MAX_BLOCK_SIGOPS_COST`. -/
def MAX_BLOCK_SIGOPS_COST : Nat := 80000

/-- `CENT`. -/
def CENT : CAmount := 10000

/-- `MIN_TXOUT_AMOUNT`. -/
def MIN_TXOUT_AMOUNT : CAmount := CENT

/-- `IsZeroAllowed(nTimeTx)`. -/
def IsZeroAllowed (nTimeTx : UInt32) : Bool := nTimeTx ≥ 1447700000

/-- `nBTC16BIPsSwitchTime` and `nBTC16BIPsTestSwitchTime` (`kernel.cpp`). -/
def nBTC16BIPsSwitchTime : UInt32 := 1677525510

def nBTC16BIPsTestSwitchTime : UInt32 := 1677525510

/-- `CBaseChainParams::MAIN`. -/
def MAIN : String := "main"

/-- `IsBTC16BIPsEnabled(nTimeTx)`, on the network of `cp`. -/
def IsBTC16BIPsEnabled (cp : CChainParams) (nTimeTx : UInt32) : Bool :=
  let fTestNet := cp.strNetworkID != MAIN
  nTimeTx ≥ (if fTestNet then nBTC16BIPsTestSwitchTime else nBTC16BIPsSwitchTime)

/-- `CheckCoinStakeTimestamp(nTimeBlock, nTimeTx)`. -/
def CheckCoinStakeTimestamp (nTimeBlock nTimeTx : Int) : Bool := nTimeBlock == nTimeTx

/-! ## `CheckTransaction` -/

/-- The loop of `CheckTransaction` over the outputs, with the running total: the first reject
reason, if any. -/
def CheckTransaction.outputs (tx : CTransaction) (nValueOut : CAmount) :
    List CTxOut → Option String
  | [] => none
  | txout :: rest =>
    if txout.nValue < 0 then some "bad-txns-vout-negative"
    else if txout.nValue > MAX_MONEY then some "bad-txns-vout-toolarge"
    else if !MoneyRange (nValueOut + txout.nValue) then some "bad-txns-txouttotal-toolarge"
    else if !txout.isEmpty && txout.nValue < MIN_TXOUT_AMOUNT &&
        (tx.nVersion < 3 && !(IsZeroAllowed tx.nTime && txout.nValue == 0)) then
      some "bad-txns-txoutvalue-belowminimum"
    else CheckTransaction.outputs tx (nValueOut + txout.nValue) rest

/-- `CheckTransaction(tx, state)`. -/
def CheckTransaction (codec : BlockCodec) (tx : CTransaction) : Validity :=
  if tx.vin.isEmpty then .invalid "bad-txns-vin-empty"
  else if tx.vout.isEmpty then .invalid "bad-txns-vout-empty"
  else if codec.txSizeNoWitness tx * WITNESS_SCALE_FACTOR > MAX_BLOCK_WEIGHT then
    .invalid "bad-txns-oversize"
  else match CheckTransaction.outputs tx 0 tx.vout with
    | some reason => .invalid reason
    | none =>
      if !(tx.vin.map CTxIn.prevout).Nodup then .invalid "bad-txns-inputs-duplicate"
      else if tx.isCoinBase then
        match tx.vin with
        | txin :: _ =>
          if txin.scriptSig.length < 2 || txin.scriptSig.length > 100 then .invalid "bad-cb-length"
          else .valid
        | [] => .valid
      else if tx.vin.any (·.prevout.isNull) then .invalid "bad-txns-prevout-null"
      else .valid

/-! ## `CheckBlock` -/

/-- The loop of `CheckBlock` over the transactions: the first `CheckTransaction` failure. (The
source's transaction timestamp test in this loop stands after a `return` and never runs.) -/
def CheckBlock.transactions (codec : BlockCodec) : List CTransaction → Validity
  | [] => .valid
  | tx :: rest =>
    match CheckTransaction codec tx with
    | .invalid reason => .invalid reason
    | .valid => CheckBlock.transactions codec rest

/-- `CheckBlock(block, state, consensusParams, fCheckPOW, fCheckMerkleRoot, fCheckSignature)`. -/
def CheckBlock (cp : CChainParams) (codec : BlockCodec) (block : CBlock)
    (fCheckPOW fCheckMerkleRoot fCheckSignature : Bool) : Validity :=
  let (hashMerkleRoot2, mutated) := codec.BlockMerkleRoot block
  let txTime (tx : CTransaction) : Int :=
    if tx.nTime != 0 then (tx.nTime.toNat : Int) else block.getBlockTime
  match CheckBlockHeader codec.toBlockHashes block cp.consensus
      (fCheckPOW && !block.isProofOfStake) with
  | .invalid reason => .invalid reason
  | .valid =>
    if cp.consensus.signet_blocks && fCheckPOW && !codec.CheckSignetBlockSolution block then
      .invalid "bad-signet-blksig"
    else if fCheckMerkleRoot && block.header.hashMerkleRoot != hashMerkleRoot2 then
      .invalid "bad-txnmrklroot"
    else if fCheckMerkleRoot && mutated then .invalid "bad-txns-duplicate"
    else if block.vtx.isEmpty || block.vtx.length * WITNESS_SCALE_FACTOR > MAX_BLOCK_WEIGHT ||
        codec.blockSizeNoWitness block * WITNESS_SCALE_FACTOR > MAX_BLOCK_WEIGHT then
      .invalid "bad-blk-length"
    else match block.vtx with
    | [] => .invalid "bad-cb-missing"
    | coinbase :: rest =>
      if !coinbase.isCoinBase then .invalid "bad-cb-missing"
      else if rest.any CTransaction.isCoinBase then .invalid "bad-cb-multiple"
      -- only the second transaction can be the coinstake
      else if (rest.drop 1).any CTransaction.isCoinStake then .invalid "bad-cs-missing"
      else if block.isProofOfStake && !(coinbase.vout.head?.map CTxOut.isEmpty).getD false then
        .invalid "bad-cb-notempty"
      else if block.getBlockTime > txTime coinbase + MAX_FUTURE_BLOCK_TIME then
        .invalid "bad-cb-time"
      else if block.isProofOfStake &&
          !CheckCoinStakeTimestamp block.getBlockTime ((rest.head?.map txTime).getD 0) then
        .invalid "bad-cs-time"
      else match CheckBlock.transactions codec block.vtx with
      | .invalid reason => .invalid reason
      | .valid =>
        if (block.vtx.map codec.GetLegacySigOpCount).sum * WITNESS_SCALE_FACTOR >
            MAX_BLOCK_SIGOPS_COST then .invalid "bad-blk-sigops"
        else if fCheckMerkleRoot && fCheckSignature &&
            (block.isProofOfStake || !IsBTC16BIPsEnabled cp block.header.nTime) &&
            !codec.CheckBlockSignature block then .invalid "bad-blk-sign"
        else .valid

/-! ## What a checked block satisfies -/

theorem CheckBlock.transactions_eq_valid {codec : BlockCodec} {l : List CTransaction} :
    CheckBlock.transactions codec l = .valid ↔ ∀ tx ∈ l, CheckTransaction codec tx = .valid := by
  induction l with
  | nil => simp [CheckBlock.transactions]
  | cons tx rest ih =>
    simp only [CheckBlock.transactions, List.mem_cons, forall_eq_or_imp]
    cases CheckTransaction codec tx with
    | invalid reason => simp
    | valid => simp [ih]

/-- The structure a block that passes `CheckBlock` has: a coinbase first and nowhere else, a
coinstake nowhere past position 1, an empty first coinbase output when the body is
proof-of-stake, and transactions that pass `CheckTransaction`. -/
structure CheckBlock.Shape (codec : BlockCodec) (block : CBlock) : Prop where
  coinbase_first : ∃ coinbase rest, block.vtx = coinbase :: rest ∧ coinbase.isCoinBase = true ∧
    (∀ tx ∈ rest, tx.isCoinBase = false) ∧ (∀ tx ∈ rest.drop 1, tx.isCoinStake = false)
  coinbase_empty : block.isProofOfStake = true →
    ∃ coinbase rest out outs, block.vtx = coinbase :: rest ∧ coinbase.vout = out :: outs ∧
      out.isEmpty = true
  checked : ∀ tx ∈ block.vtx, CheckTransaction codec tx = .valid

/-- **A block that passes `CheckBlock` has its shape.** -/
theorem CheckBlock.shape_of_valid {cp : CChainParams} {codec : BlockCodec} {block : CBlock}
    {fCheckPOW fCheckMerkleRoot fCheckSignature : Bool}
    (h : CheckBlock cp codec block fCheckPOW fCheckMerkleRoot fCheckSignature = .valid) :
    CheckBlock.Shape codec block := by
  unfold CheckBlock at h
  dsimp only at h
  split at h
  · cases h
  simp only [Validity.ite_invalid_eq_valid] at h
  obtain ⟨-, -, -, -, h⟩ := h
  split at h
  · cases h
  rename_i coinbase rest hvtx
  simp only [Validity.ite_invalid_eq_valid] at h
  obtain ⟨hcb, hmul, hcs, hempty, -, -, h⟩ := h
  split at h
  · cases h
  rename_i htxs
  refine ⟨⟨coinbase, rest, hvtx, by simpa using hcb, ?_, ?_⟩, fun hpos => ?_,
    CheckBlock.transactions_eq_valid.1 htxs⟩
  · simpa using hmul
  · simpa using hcs
  · rw [hpos, Bool.true_and, Bool.not_eq_true', Bool.not_eq_false] at hempty
    cases hout : coinbase.vout with
    | nil => simp [hout] at hempty
    | cons out outs => exact ⟨coinbase, rest, out, outs, hvtx, hout, by simpa [hout] using hempty⟩

/-- A block that passes `CheckBlock` has at most a quarter of `MAX_BLOCK_WEIGHT` transactions. -/
theorem CheckBlock.vtx_length_le {cp : CChainParams} {codec : BlockCodec} {block : CBlock}
    {fCheckPOW fCheckMerkleRoot fCheckSignature : Bool}
    (h : CheckBlock cp codec block fCheckPOW fCheckMerkleRoot fCheckSignature = .valid) :
    block.vtx.length * WITNESS_SCALE_FACTOR ≤ MAX_BLOCK_WEIGHT := by
  unfold CheckBlock at h
  dsimp only at h
  split at h
  · cases h
  simp only [Validity.ite_invalid_eq_valid] at h
  obtain ⟨-, -, -, hlen, -⟩ := h
  simp only [Bool.or_eq_true, decide_eq_true_eq, not_or, not_lt] at hlen
  exact hlen.1.2

/-- The outputs a transaction that passes `CheckTransaction`'s output loop pays are each in the
money range. -/
theorem CheckTransaction.outputs_eq_none {tx : CTransaction} {nValueOut : CAmount}
    {l : List CTxOut} (h : CheckTransaction.outputs tx nValueOut l = none) :
    ∀ txout ∈ l, 0 ≤ txout.nValue ∧ txout.nValue ≤ MAX_MONEY := by
  induction l generalizing nValueOut with
  | nil => simp
  | cons txout rest ih =>
    unfold CheckTransaction.outputs at h
    split_ifs at h with hneg hmax
    intro o ho
    rcases List.mem_cons.1 ho with rfl | ho
    · exact ⟨not_lt.1 hneg, not_lt.1 hmax⟩
    · exact ih h o ho

/-- **A transaction that passes `CheckTransaction` pays outputs in the money range.** -/
theorem CheckTransaction_nValue {codec : BlockCodec} {tx : CTransaction}
    (h : CheckTransaction codec tx = .valid) :
    ∀ txout ∈ tx.vout, 0 ≤ txout.nValue ∧ txout.nValue ≤ MAX_MONEY := by
  unfold CheckTransaction at h
  simp only [Validity.ite_invalid_eq_valid] at h
  obtain ⟨-, -, -, h⟩ := h
  split at h
  · cases h
  · exact CheckTransaction.outputs_eq_none ‹_›

/-! ## The transaction timestamp rule

The fork's rule that no transaction is dated after its block (`bad-tx-time`) is written inside
the branch of the transaction loop that has just returned the failure of `CheckTransaction`, so
it never runs. -/

/-- No output check rejects with `bad-tx-time`. -/
theorem CheckTransaction.outputs_ne_bad_tx_time (tx : CTransaction) (nValueOut : CAmount)
    (l : List CTxOut) : CheckTransaction.outputs tx nValueOut l ≠ some "bad-tx-time" := by
  induction l generalizing nValueOut with
  | nil => simp [CheckTransaction.outputs]
  | cons txout rest ih =>
    unfold CheckTransaction.outputs
    split_ifs <;> simp [ih]

theorem CheckTransaction_ne_bad_tx_time (codec : BlockCodec) (tx : CTransaction) :
    CheckTransaction codec tx ≠ .invalid "bad-tx-time" := by
  intro h
  unfold CheckTransaction at h
  cases hout : CheckTransaction.outputs tx 0 tx.vout with
  | some reason =>
    simp only [hout] at h
    split_ifs at h
    any_goals simp at h
    cases h
    exact CheckTransaction.outputs_ne_bad_tx_time _ _ _ hout
  | none =>
    simp only [hout] at h
    split_ifs at h
    any_goals simp at h
    split at h
    · split_ifs at h
      simp at h
    · simp at h

theorem CheckBlock.transactions_ne_bad_tx_time (codec : BlockCodec) (l : List CTransaction) :
    CheckBlock.transactions codec l ≠ .invalid "bad-tx-time" := by
  induction l with
  | nil => simp [CheckBlock.transactions]
  | cons tx rest ih =>
    unfold CheckBlock.transactions
    split
    · rename_i reason htx
      intro h
      cases h
      exact CheckTransaction_ne_bad_tx_time codec tx htx
    · exact ih

/-- **`CheckBlock` never rejects a block with `bad-tx-time`**, whatever its transactions'
timestamps. -/
theorem CheckBlock_ne_bad_tx_time (cp : CChainParams) (codec : BlockCodec) (block : CBlock)
    (fCheckPOW fCheckMerkleRoot fCheckSignature : Bool) :
    CheckBlock cp codec block fCheckPOW fCheckMerkleRoot fCheckSignature ≠
      .invalid "bad-tx-time" := by
  intro h
  unfold CheckBlock at h
  dsimp only at h
  split at h
  · rename_i reason hheader
    cases h
    unfold CheckBlockHeader at hheader
    split at hheader <;> simp at hheader
  iterate 4
    rcases ite_eq_iff.1 h with ⟨-, h⟩ | ⟨-, h⟩
    · simp at h
  rcases hvtx : block.vtx with _ | ⟨coinbase, rest⟩
  · rw [hvtx] at h
    simp at h
  rw [hvtx] at h
  dsimp only at h
  iterate 6
    rcases ite_eq_iff.1 h with ⟨-, h⟩ | ⟨-, h⟩
    · simp at h
  cases htxs : CheckBlock.transactions codec (coinbase :: rest) with
  | invalid reason =>
    rw [htxs] at h
    cases h
    exact CheckBlock.transactions_ne_bad_tx_time codec _ htxs
  | valid =>
    rw [htxs] at h
    dsimp only at h
    iterate 2
      rcases ite_eq_iff.1 h with ⟨-, h⟩ | ⟨-, h⟩
      · simp at h
    simp at h

/-- Stand-in hashes and sizes: a header hashes to its time, every proof-of-work hash is zero (so
meets any target), and the merkle root of a block is its number of transactions. -/
def stubCodec : BlockCodec where
  GetHash h := BitVec.ofNat 256 h.nTime.toNat
  GetPOWHash _ _ := 0
  txHash _ := 0
  BlockMerkleRoot b := (BitVec.ofNat 256 b.vtx.length, false)
  txSizeNoWitness _ := 100
  blockSizeNoWitness _ := 200
  GetLegacySigOpCount _ := 0
  CheckBlockSignature _ := true
  CheckSignetBlockSolution _ := true

/-- A proof-of-work block on the main network's genesis, two minutes after it, with a version 1
transaction (whose timestamp is serialised) dated an hour after the block. -/
def futureTxBlock : CBlock where
  header :=
    { nVersion := 4, hashPrevBlock := mainConsensus.hashGenesisBlock, hashMerkleRoot := 2,
      nTime := 1680357312,
      nBits := arith_uint256.GetCompact (UintToArith256 mainConsensus.bnInitialHashTarget),
      nNonce := 0, nFlags := 0 }
  vtx :=
    [{ vin := [⟨⟨0, COutPoint.NULL_INDEX⟩, [0x51, 0x00], 0xffffffff, []⟩],
       vout := [⟨10 * COIN, [0x51]⟩], nVersion := 3, nTime := 0, nLockTime := 0 },
     { vin := [⟨⟨0x7777, 0⟩, [0x51], 0xffffffff, []⟩],
       vout := [⟨1 * COIN, [0x51]⟩], nVersion := 1, nTime := 1680360912, nLockTime := 0 }]
  vchBlockSig := []

/-- **`CheckBlock` accepts a block with a transaction dated after it**, with every check on. -/
theorem CheckBlock_accepts_future_tx :
    CheckBlock mainParams stubCodec futureTxBlock true true true = .valid ∧
      ∃ tx ∈ futureTxBlock.vtx, futureTxBlock.getBlockTime < tx.nTime.toNat := by
  refine ⟨by decide +kernel, ?_⟩
  refine ⟨futureTxBlock.vtx[1], List.getElem_mem (by decide), ?_⟩
  decide

end NowpConsensus
