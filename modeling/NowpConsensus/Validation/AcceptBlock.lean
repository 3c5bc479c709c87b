import NowpConsensus.Validation.ContextualCheckBlock

/-!
# Accepting blocks

`ChainstateManager::ProcessNewBlock` checks a block on its own (`CheckBlock`) and hands it to
`CChainState::AcceptBlock`, which accepts its header (`AcceptBlockHeader`, which files the header
in the block index), checks the block again with its context, and stores it.

The header and the body each say what type the block is. The header's `nFlags` (sent beside the
header, outside the hashed bytes) decides whether `AcceptBlockHeader` checks proof of work and
which target `ContextualCheckBlockHeader` asks for, and `AddToBlockIndex` copies it into the
index entry, where every later reader of `CBlockIndex::IsProofOfStake` finds it. The body decides
`CBlock::IsProofOfStake`, which `CheckBlock`, `ContextualCheckBlock` and
`NowpContextualBlockChecks` read. No step compares the two.

The state is the header tree of `Validation/HeaderTree.lean` with the two bits of `nStatus` that
`AcceptBlock` reads and sets: whether the block's data is stored (`BLOCK_HAVE_DATA`; without
pruning this is also `nTx != 0`) and whether the entry is valid up to
`BLOCK_VALID_TRANSACTIONS`. Failure marks (`BLOCK_FAILED_VALID`) are not modelled: no modelled
step reads them.

The two checks with context are read through `BlockRules`, predicates of the block and the index
entries they read: `ContextualCheckBlock` (finality, the height in the coinbase, witness
commitments, weight), which `BlockRules.ofContextualCheckBlock` takes from its model in
`Validation/ContextualCheckBlock.lean`, and `NowpContextualBlockChecks` (the stake kernel and the
stake modifier). The facts about chain work that decide whether an unrequested block is processed
(`ChainWork`) come from `nChainTrust`, not modelled here.
-/

namespace NowpConsensus

/-- The checks of `AcceptBlock` the model takes as given. -/
structure BlockRules where
  /-- `ContextualCheckBlock(block, state, pindexPrev)`. -/
  ContextualCheckBlock : CBlock → BlockPtr → Bool
  /-- `NowpContextualBlockChecks(block, state, pindex, false, chainstate)`. -/
  NowpContextualBlockChecks : CBlock → BlockPtr → Bool

/-- The rules with `ContextualCheckBlock` as modelled, over the double SHA-256 `Hash`. -/
def BlockRules.ofContextualCheckBlock (cp : CChainParams) (Hash : List UInt8 → uint256)
    (NowpContextualBlockChecks : CBlock → BlockPtr → Bool) : BlockRules where
  ContextualCheckBlock block pindexPrev :=
    NowpConsensus.ContextualCheckBlock cp Hash block pindexPrev == .ok .valid
  NowpContextualBlockChecks := NowpContextualBlockChecks

/-- What `AcceptBlock` reads of chain work for an unrequested block. -/
structure ChainWork where
  /-- `pindex->nChainTrust >= m_chain.Tip()->nChainTrust`. -/
  fHasMoreOrSameWork : Bool
  /-- `pindex->nHeight > m_chain.Height() + MIN_BLOCKS_TO_KEEP`. -/
  fTooFarAhead : Bool
  /-- `pindex->nChainTrust < nMinimumChainWork`. -/
  belowMinimumChainWork : Bool

/-- The block index with the status bits block acceptance reads and sets. -/
structure BlockTree where
  headers : HeaderTree
  /-- `nStatus & BLOCK_HAVE_DATA`. -/
  haveData : uint256 → Bool
  /-- `IsValid(BLOCK_VALID_TRANSACTIONS)`. -/
  validTransactions : uint256 → Bool

namespace BlockTree

/-- The tree after `LoadGenesisBlock`: the genesis block is stored and valid. -/
def init (cp : CChainParams) : BlockTree where
  headers := HeaderTree.init cp
  haveData h := h == cp.consensus.hashGenesisBlock
  validTransactions h := h == cp.consensus.hashGenesisBlock

end BlockTree

/-- `CChainState::AcceptBlock(pblock, state, ppindex, fRequested, dbp, fNewBlock)`, at adjusted
time `nAdjustedTime`: whether it returns `true`, and the new state. -/
def AcceptBlock (cp : CChainParams) (codec : BlockCodec) (rules : BlockRules)
    (nAdjustedTime : Int) (block : CBlock) (fRequested : Bool) (work : ChainWork)
    (t : BlockTree) : Except Abort (Bool × BlockTree) := do
  let (verdict, headers) ←
    AcceptBlockHeader cp codec.toBlockHashes nAdjustedTime block.header t.headers
  let t := { t with headers }
  match verdict with
  | .invalid _ => pure (false, t)
  | .valid =>
    match headers.m_block_index (codec.GetHash block.header) with
    | none | some [] => .error .nullDeref
    | some (pindex :: pprev) =>
      let hash := pindex.hashBlock
      -- nowp: only blocks on a predecessor with validated transactions
      let prevInvalid := match pprev with
        | p :: _ => !t.validTransactions p.hashBlock
        | [] => false
      if prevInvalid then pure (false, t)
      else if t.haveData hash then pure (true, t)
      else if !fRequested && (!work.fHasMoreOrSameWork || work.fTooFarAhead ||
          work.belowMinimumChainWork) then pure (true, t)
      else if CheckBlock cp codec block true true true != .valid ||
          !rules.ContextualCheckBlock block pprev then pure (false, t)
      else if !rules.NowpContextualBlockChecks block (pindex :: pprev) then pure (false, t)
      else pure (true, { t with
        haveData := Function.update t.haveData hash true
        validTransactions := Function.update t.validTransactions hash true })

/-- `ChainstateManager::ProcessNewBlock(chainparams, block, force_processing, ...)` up to
`AcceptBlock`: whether it is accepted, and the new state. -/
def ProcessNewBlock (cp : CChainParams) (codec : BlockCodec) (rules : BlockRules)
    (nAdjustedTime : Int) (block : CBlock) (force_processing : Bool) (work : ChainWork)
    (t : BlockTree) : Except Abort (Bool × BlockTree) :=
  if CheckBlock cp codec block true true true == .valid then
    AcceptBlock cp codec rules nAdjustedTime block force_processing work t
  else .ok (false, t)

/-! ## The index stores the header's flag -/

/-- Setting the proof-of-stake bit makes the flags read proof of stake. -/
theorem or_BLOCK_PROOF_OF_STAKE_and (x : UInt32) :
    (x ||| BLOCK_PROOF_OF_STAKE) &&& BLOCK_PROOF_OF_STAKE = BLOCK_PROOF_OF_STAKE := by
  rw [← UInt32.toBitVec_inj]
  simp only [BLOCK_PROOF_OF_STAKE, UInt32.toBitVec_and, UInt32.toBitVec_or]
  ext i
  simp
  omega

/-- **A new entry has the header's type**: a header new to the index gets an entry, on its
predecessor's, that is proof-of-stake exactly when the header's flags say so. -/
theorem AddToBlockIndex_isProofOfStake {hashes : BlockHashes} {block : CBlockHeader}
    {s : HeaderTree} (h : s.m_block_index (hashes.GetHash block) = none) :
    ∃ pindex, (AddToBlockIndex hashes block s).m_block_index (hashes.GetHash block) =
        some (pindex :: (s.m_block_index block.hashPrevBlock).getD []) ∧
      pindex.isProofOfStake = block.flagsProofOfStake := by
  unfold AddToBlockIndex
  simp only [h]
  refine ⟨_, Function.update_self .., ?_⟩
  unfold CBlockIndex.isProofOfStake
  dsimp only
  by_cases hf : block.flagsProofOfStake = true
  · rw [if_pos hf, or_BLOCK_PROOF_OF_STAKE_and, hf]
    rfl
  · rw [if_neg hf]
    rfl

/-! ## A block that `AcceptBlock` accepts -/

section Accept

variable {cp : CChainParams} {codec : BlockCodec} {rules : BlockRules} {nAdjustedTime : Int}
  {block : CBlock} {work : ChainWork} {t : BlockTree}

/-- **What `AcceptBlock` does with a requested block that passes its checks**: it stores the
block and marks it valid, on the index `AcceptBlockHeader` left. -/
theorem AcceptBlock_eq_of_checks {headers : HeaderTree} {pindex : CBlockIndex} {pprev : BlockPtr}
    (hheader : AcceptBlockHeader cp codec.toBlockHashes nAdjustedTime block.header t.headers =
      .ok (.valid, headers))
    (hentry : headers.m_block_index (codec.GetHash block.header) = some (pindex :: pprev))
    (hprev : ∀ p rest, pprev = p :: rest → t.validTransactions p.hashBlock = true)
    (hnew : t.haveData pindex.hashBlock = false)
    (hcheck : CheckBlock cp codec block true true true = .valid)
    (hctx : rules.ContextualCheckBlock block pprev = true)
    (hnowp : rules.NowpContextualBlockChecks block (pindex :: pprev) = true) :
    AcceptBlock cp codec rules nAdjustedTime block true work t = .ok (true, { t with
      headers
      haveData := Function.update t.haveData pindex.hashBlock true
      validTransactions := Function.update t.validTransactions pindex.hashBlock true }) := by
  unfold AcceptBlock
  rw [hheader, Except.bind_ok_left]
  dsimp only
  rw [hentry]
  dsimp only
  simp only [hnew, hcheck, hctx, hnowp]
  cases pprev with
  | nil => rfl
  | cons p rest => simp [hprev p rest rfl]; rfl

/-- `ProcessNewBlock` hands a block that passes `CheckBlock` to `AcceptBlock`. -/
theorem ProcessNewBlock_of_checkBlock {fForce : Bool}
    (h : CheckBlock cp codec block true true true = .valid) :
    ProcessNewBlock cp codec rules nAdjustedTime block fForce work t =
      AcceptBlock cp codec rules nAdjustedTime block fForce work t := by
  rw [ProcessNewBlock, h]
  rfl

end Accept

/-- A block on the main network's genesis, two minutes after it, whose body is proof of work (a
coinbase alone) and whose header's flags say proof of stake; it carries the target
`GetNextTargetRequired` asks of a first proof-of-stake block. -/
def stakeFlaggedWorkBlock : CBlock where
  header :=
    { nVersion := 4, hashPrevBlock := mainConsensus.hashGenesisBlock, hashMerkleRoot := 1,
      nTime := 1680357312,
      nBits := arith_uint256.GetCompact (UintToArith256 mainConsensus.bnInitialHashTarget),
      nNonce := 0, nFlags := BLOCK_PROOF_OF_STAKE }
  vtx :=
    [{ vin := [⟨⟨0, COutPoint.NULL_INDEX⟩, [0x51, 0x00], 0xffffffff, []⟩],
       vout := [⟨10 * COIN, [0x51]⟩], nVersion := 3, nTime := 0, nLockTime := 0 }]
  vchBlockSig := []

/-- **`ProcessNewBlock` accepts a proof-of-work block filed as proof of stake**: for any
`ContextualCheckBlock` and `NowpContextualBlockChecks` that pass `stakeFlaggedWorkBlock`, the node
accepts it, and its index entry says proof of stake while its body is proof of work. -/
theorem ProcessNewBlock_files_work_block_as_stake (rules : BlockRules) (work : ChainWork)
    (hctx : rules.ContextualCheckBlock stakeFlaggedWorkBlock
      [HeaderTree.genesisEntry mainParams] = true)
    (hnowp : rules.NowpContextualBlockChecks stakeFlaggedWorkBlock
      (⟨stubCodec.GetHash stakeFlaggedWorkBlock.header, 1, 1680357312,
        stakeFlaggedWorkBlock.header.nBits, BLOCK_PROOF_OF_STAKE⟩ ::
        [HeaderTree.genesisEntry mainParams]) = true) :
    ∃ t pindex pprev, ProcessNewBlock mainParams stubCodec rules 1680357312 stakeFlaggedWorkBlock
        true work (BlockTree.init mainParams) = .ok (true, t) ∧
      t.headers.m_block_index (stubCodec.GetHash stakeFlaggedWorkBlock.header) =
        some (pindex :: pprev) ∧
      pindex.isProofOfStake = true ∧ stakeFlaggedWorkBlock.isProofOfStake = false := by
  have hcheck : CheckBlock mainParams stubCodec stakeFlaggedWorkBlock true true true = .valid := by
    decide +kernel
  have hheader : AcceptBlockHeader mainParams stubCodec.toBlockHashes 1680357312
      stakeFlaggedWorkBlock.header (BlockTree.init mainParams).headers =
      .ok (.valid, AddToBlockIndex stubCodec.toBlockHashes stakeFlaggedWorkBlock.header
        { HeaderTree.init mainParams with DGWenabled := false }) := by
    rfl
  have hentry : (AddToBlockIndex stubCodec.toBlockHashes stakeFlaggedWorkBlock.header
      { HeaderTree.init mainParams with DGWenabled := false }).m_block_index
        (stubCodec.GetHash stakeFlaggedWorkBlock.header) =
      some (⟨stubCodec.GetHash stakeFlaggedWorkBlock.header, 1, 1680357312,
        stakeFlaggedWorkBlock.header.nBits, BLOCK_PROOF_OF_STAKE⟩ ::
        [HeaderTree.genesisEntry mainParams]) := rfl
  have hprev : ∀ p rest, [HeaderTree.genesisEntry mainParams] = p :: rest →
      (BlockTree.init mainParams).validTransactions p.hashBlock = true := by
    rintro p rest ⟨⟩
    decide
  obtain ⟨pindex, hentry', hflag⟩ := @AddToBlockIndex_isProofOfStake stubCodec.toBlockHashes
    stakeFlaggedWorkBlock.header { HeaderTree.init mainParams with DGWenabled := false } rfl
  rw [hentry] at hentry'
  obtain ⟨rfl, -⟩ := List.cons.inj (Option.some.inj hentry')
  exact ⟨_, _, _, (ProcessNewBlock_of_checkBlock hcheck).trans
    (AcceptBlock_eq_of_checks hheader hentry hprev (by decide) hcheck hctx hnowp), hentry,
    hflag.trans (by decide), by decide⟩

/-- The run above with `ContextualCheckBlock` as modelled, which the block passes: its coinbase
pushes height 1 first. -/
theorem ProcessNewBlock_files_work_block_as_stake_contextual :
    ∃ t pindex pprev, ProcessNewBlock mainParams stubCodec
        (BlockRules.ofContextualCheckBlock mainParams toyHash fun _ _ => true)
        1680357312 stakeFlaggedWorkBlock true ⟨true, false, false⟩ (BlockTree.init mainParams) =
        .ok (true, t) ∧
      t.headers.m_block_index (stubCodec.GetHash stakeFlaggedWorkBlock.header) =
        some (pindex :: pprev) ∧
      pindex.isProofOfStake = true ∧ stakeFlaggedWorkBlock.isProofOfStake = false :=
  ProcessNewBlock_files_work_block_as_stake _ _ (by decide +kernel) rfl

end NowpConsensus
