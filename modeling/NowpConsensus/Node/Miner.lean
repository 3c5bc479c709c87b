import NowpConsensus.Wallet.CoinStake
import NowpConsensus.Validation.Subsidy
import NowpConsensus.Script.SigHash

/-!
# Assembling a proof-of-stake block

`BlockAssembler::CreateNewBlock(scriptPubKeyIn, pwallet, pfPoSCancel, node)` (`node/miner.cpp`)
with a wallet: on the active tip, for the block at `nHeight = tip + 1`, it asks the wallet for a
coinstake and, when one comes back stamped in time, assembles the block: a coinbase with an empty
output and the coinstake's timestamp, the coinstake, then the transactions taken from the
mempool, under a header flagged proof-of-stake. It then hands the block to `TestBlockValidity`,
whose last check is `ConnectBlock` on a dummy index entry at `nHeight`; the model stops before
that call, which the theorems below make themselves.

The wallet claims the reward of the tip's height, and `ConnectBlock` allows the reward of the
block's:

* `CreateNewBlock_claims_reward`: the coinstake of a block `CreateNewBlock` assembles on a tip
  of height `H` claims, over the coins it spends, the fees and `GetBlockReward(H)`;
* `CreateNewBlock_claim_exceeds_iff`: that claim exceeds the bound `ConnectBlock` sets at `H + 1`
  exactly when `H + 1` is one of the first 28 halving heights;
* `CreateNewBlock_exceeds_bound`: on the main network, on a tip at height 525599, the staker
  assembles a block whose coinstake claims 188 coins, and `TestBlockValidity`'s `ConnectBlock`
  rejects it with `bad-cs-amount`.
-/

namespace NowpConsensus

/-! ## The coinbase's script -/

/-- `OP_0`. -/
def OP_0 : UInt8 := 0x00

/-- The loop of `CScriptNum::serialize` that writes `absvalue` a byte at a time, least
significant first, for at most `n` bytes (the eight of an `int64_t`). -/
def CScriptNum.bytes : Nat → Nat → List UInt8
  | 0, _ => []
  | n + 1, absvalue =>
    if absvalue = 0 then [] else UInt8.ofNat (absvalue % 256) :: bytes n (absvalue / 256)

/-- `CScriptNum::serialize(value)`: the magnitude's bytes, with the sign in the top bit of the
last byte, or in one more byte where that bit is taken. -/
def CScriptNum.serialize (value : Int) : List UInt8 :=
  if value = 0 then []
  else
    let neg := decide (value < 0)
    let result := CScriptNum.bytes 8 value.natAbs
    match result.getLast? with
    | none => result
    | some last =>
      if last &&& 0x80 != 0 then result ++ [if neg then 0x80 else 0]
      else if neg then result.dropLast ++ [last ||| 0x80]
      else result

/-- `CScript::operator<<(const std::vector<unsigned char>& b)`: the push of `b`, its length
first. -/
def CScript.pushData (b : List UInt8) : CScript :=
  (if b.length < OP_PUSHDATA1.toNat then [UInt8.ofNat b.length]
  else if b.length ≤ 0xff then [OP_PUSHDATA1, UInt8.ofNat b.length]
  else if b.length ≤ 0xffff then OP_PUSHDATA2 :: Bytes.leBytes 2 b.length
  else OP_PUSHDATA4 :: Bytes.leBytes 4 b.length) ++ b

/-- `CScript::push_int64(n)`: `-1` and `1` to `16` as their opcodes, `0` as `OP_0`, and any
other number as the push of its serialisation. -/
def CScript.pushInt64 (n : Int) : CScript :=
  if n = -1 ∨ (1 ≤ n ∧ n ≤ 16) then [UInt8.ofInt (n + (OP_1.toNat - 1))]
  else if n = 0 then [OP_0]
  else CScript.pushData (CScriptNum.serialize n)

/-! ## `CreateNewBlock` -/

/-- `CBlock::GetMaxTransactionTime`. -/
def CBlock.GetMaxTransactionTime (b : CBlock) : Int :=
  b.vtx.foldl (fun maxTransactionTime tx => max maxTransactionTime tx.nTime.toNat) 0

/-- `CBlockIndex indexDummy(block)` of `TestBlockValidity`, at height `nHeight` and with the
block's hash. -/
def CBlockIndex.dummy (codec : BlockCodec) (block : CBlock) (nHeight : Int) : CBlockIndex :=
  ⟨codec.GetHash block.header, nHeight, block.header.nTime, block.header.nBits,
    block.header.nFlags⟩

namespace CreateNewBlock

/-- The coinbase of a proof-of-stake block at height `nHeight`: a null input whose script is
`CScript() << nHeight << OP_0`, one empty output, and the coinstake's timestamp. -/
def coinbase (nHeight : Int) (nTime : UInt32) : CTransaction where
  vin := [⟨⟨0, COutPoint.NULL_INDEX⟩, CScript.pushInt64 nHeight ++ [OP_0], 0xffffffff, []⟩]
  vout := [⟨0, []⟩]
  nVersion := 3
  nTime := nTime
  nLockTime := 0

/-- The block assembled on the tip `tip` (with ancestors `pprev`) around the coinstake, with the
mempool's transactions after it. The merkle root and the signature are left to the staker. -/
def assemble (tip : CBlockIndex) (pprev : BlockPtr) (nBits : UInt32) (txCoinStake : CTransaction)
    (vtxPackages : List CTransaction) : CBlock :=
  let block : CBlock :=
    { header :=
        { nVersion := 4, hashPrevBlock := tip.hashBlock, hashMerkleRoot := 0, nTime := 0,
          nBits, nNonce := 0, nFlags := BLOCK_PROOF_OF_STAKE }
      vtx := coinbase (tip.nHeight + 1) txCoinStake.nTime :: txCoinStake :: vtxPackages
      vchBlockSig := [] }
  let nTime := max (GetMedianTimePast (tip :: pprev) + 1) block.GetMaxTransactionTime
  let nTime := max nTime (tip.getBlockTime - MAX_FUTURE_BLOCK_TIME)
  { block with header := { block.header with nTime := UInt32.ofInt nTime } }

end CreateNewBlock

/-- `BlockAssembler::CreateNewBlock(scriptPubKeyIn, pwallet, pfPoSCancel, node)` with a wallet, up
to its call of `TestBlockValidity`: the block it assembles on the active chain `pindexPrev`, or
`none` where it returns `nullptr`, with the value it leaves in the static
`nLastCoinStakeSearchTime` and the index. `nAdjustedTime` is what `GetAdjustedTime()` returns,
`nBits` what `GetNextTargetRequired(pindexPrev, true, ...)` returns, and `vtxPackages` and
`nFees` what `addPackageTxs` takes from the mempool; the rest is what `CreateCoinStake` reads. -/
def CreateNewBlock (params : Params) (rules : KernelRules) (wallet : StakeWallet)
    (files : BlockFiles) (index : TxIndex) (view : CCoinsViewCache) (pindexPrev : BlockPtr)
    (nAdjustedTime nLastCoinStakeSearchTime : Int) (nBits : UInt32)
    (vtxPackages : List CTransaction) (nFees nBalance : CAmount)
    (nReserveBalance : Option CAmount) (selected : Option (List COutput)) :
    Except Abort (Option CBlock × Int × TxIndex) :=
  match pindexPrev with
  | [] => .error .assertion
  | tip :: pprev =>
    let nHeight := tip.nHeight + 1
    let txCoinStake : CTransaction := ⟨[], [], 3, UInt32.ofInt nAdjustedTime, 0⟩
    let nSearchTime : Int := txCoinStake.nTime.toNat
    if nSearchTime > nLastCoinStakeSearchTime ∧ nHeight ≥ params.nPoSActivationHeight then
      CreateCoinStake params rules wallet files index view tip.nHeight nBits
          (nSearchTime - nLastCoinStakeSearchTime) txCoinStake nFees nBalance nReserveBalance
          selected >>= fun (coinstake?, index) =>
      let block? := coinstake?.bind fun txCoinStake =>
        if txCoinStake.nTime.toNat ≥
            max (GetMedianTimePast pindexPrev + 1) (tip.getBlockTime - MAX_FUTURE_BLOCK_TIME) then
          some (CreateNewBlock.assemble tip pprev nBits txCoinStake vtxPackages)
        else none
      .ok (block?, nSearchTime, index)
    else .ok (none, nLastCoinStakeSearchTime, index)

/-! ## The reward the block claims -/

section Claims

variable {params : Params} {rules : KernelRules} {wallet : StakeWallet} {files : BlockFiles}
  {index index' : TxIndex} {view : CCoinsViewCache} {pindexPrev : BlockPtr}
  {nAdjustedTime nLastCoinStakeSearchTime nLast' : Int} {nBits : UInt32}
  {vtxPackages : List CTransaction} {nFees nBalance : CAmount} {nReserveBalance : Option CAmount}
  {selected : Option (List COutput)} {block : CBlock}

/-- **What a block `CreateNewBlock` returns is made of**: a tip of height at least one below
proof-of-stake activation, and a coinstake that `CreateCoinStake` returned at the tip's
height, assembled with the mempool's transactions. -/
theorem CreateNewBlock_eq_some
    (h : CreateNewBlock params rules wallet files index view pindexPrev nAdjustedTime
      nLastCoinStakeSearchTime nBits vtxPackages nFees nBalance nReserveBalance selected =
      .ok (some block, nLast', index')) :
    ∃ tip pprev txCoinStake, pindexPrev = tip :: pprev ∧
      params.nPoSActivationHeight ≤ tip.nHeight + 1 ∧
      CreateCoinStake params rules wallet files index view tip.nHeight nBits
        ((UInt32.ofInt nAdjustedTime).toNat - nLastCoinStakeSearchTime)
        ⟨[], [], 3, UInt32.ofInt nAdjustedTime, 0⟩ nFees nBalance nReserveBalance selected =
        .ok (some txCoinStake, index') ∧
      block = CreateNewBlock.assemble tip pprev nBits txCoinStake vtxPackages := by
  unfold CreateNewBlock at h
  split at h
  · cases h
  rename_i tip pprev
  dsimp only at h
  split at h
  · rename_i hsearch
    obtain ⟨⟨coinstake?, index₁⟩, hstake, h⟩ := Except.bind_eq_ok.1 h
    simp only [Except.ok.injEq, Prod.mk.injEq] at h
    obtain ⟨hblock, -, rfl⟩ := h
    obtain ⟨txCoinStake, rfl, hassemble⟩ := Option.bind_eq_some_iff.1 hblock
    split at hassemble
    · cases hassemble
      exact ⟨tip, pprev, txCoinStake, rfl, by omega, hstake, rfl⟩
    · cases hassemble
  · cases h

/-- **The block's coinstake claims the reward of the tip's height**: it spends coins of the
wallet's selection, and its outputs exceed their value by the fees and `GetBlockReward` at the
tip's height, one below the block's. -/
theorem CreateNewBlock_claims_reward
    (h : CreateNewBlock params rules wallet files index view pindexPrev nAdjustedTime
      nLastCoinStakeSearchTime nBits vtxPackages nFees nBalance nReserveBalance selected =
      .ok (some block, nLast', index')) :
    ∃ tip pprev txCoinStake, pindexPrev = tip :: pprev ∧
      block.vtx = CreateNewBlock.coinbase (tip.nHeight + 1) txCoinStake.nTime :: txCoinStake ::
        vtxPackages ∧
      ∃ coins used : List COutput, selected = some coins ∧ (∀ c ∈ used, c ∈ coins) ∧
        txCoinStake.vin.map CTxIn.prevout = used.map COutput.outpoint ∧
        txCoinStake.valueOut - (used.map fun c => c.txout.nValue).sum =
          nFees + GetBlockReward tip.nHeight params := by
  obtain ⟨tip, pprev, txCoinStake, rfl, -, hstake, rfl⟩ := CreateNewBlock_eq_some h
  exact ⟨tip, pprev, txCoinStake, rfl, rfl, CreateCoinStake_claims_reward hstake⟩

/-- **The claim exceeds the block's bound exactly at a halving.** Where proof of stake starts
past the first 1440 blocks, the coinstake of a block `CreateNewBlock` assembles on a tip of
height `H` claims more than the fees and `GetBlockReward(H + 1)`, the bound `ConnectBlock` puts
on the block at `H + 1`, exactly when `H + 1` is one of the first 28 halving heights. -/
theorem CreateNewBlock_claim_exceeds_iff (hact : 1441 < params.nPoSActivationHeight)
    (hI : 0 < params.nSubsidyHalvingInterval)
    (h : CreateNewBlock params rules wallet files index view pindexPrev nAdjustedTime
      nLastCoinStakeSearchTime nBits vtxPackages nFees nBalance nReserveBalance selected =
      .ok (some block, nLast', index')) :
    ∃ (tip : CBlockIndex) (pprev : BlockPtr) (txCoinStake : CTransaction) (used : List COutput),
      pindexPrev = tip :: pprev ∧
      block.vtx[1]? = some txCoinStake ∧
      txCoinStake.vin.map CTxIn.prevout = used.map COutput.outpoint ∧
      (txCoinStake.valueOut - (used.map fun c => c.txout.nValue).sum >
          nFees + GetBlockReward (tip.nHeight + 1) params ↔
        (tip.nHeight + 1) % params.nSubsidyHalvingInterval = 0 ∧
          (tip.nHeight + 1) / params.nSubsidyHalvingInterval ≤ 28) := by
  obtain ⟨tip, pprev, txCoinStake, rfl, hact', hstake, rfl⟩ := CreateNewBlock_eq_some h
  obtain ⟨-, used, -, -, hprevout, hclaim⟩ := CreateCoinStake_claims_reward hstake
  refine ⟨tip, pprev, txCoinStake, used, rfl, rfl, hprevout, ?_⟩
  rw [hclaim, gt_iff_lt, add_lt_add_iff_left]
  exact GetBlockReward_succ_lt_iff (by omega) hI

end Claims

/-! ## The block at the first halving

On the main network, a wallet holds one coin of 1000 coins, confirmed at height 500000 and
fourteen days and an hour old when it stakes on a tip at height 525599. The kernel's rules pass,
and the target is the easiest. -/

/-- The transaction that pays the staked coin. -/
def halvingStakedTx : CTransaction where
  vin := [⟨⟨0x2222, 0⟩, [], 0xffffffff, []⟩]
  vout := [⟨1000 * COIN, [0x51]⟩]
  nVersion := 3
  nTime := 0
  nLockTime := 0

/-- The block that confirms it, at time 1700000000. -/
def halvingFundingBlock : CBlock where
  header :=
    { nVersion := 4
      hashPrevBlock := 0x4444
      hashMerkleRoot := 0
      nTime := 1700000000
      nBits := 0x1d00ffff
      nNonce := 0
      nFlags := BLOCK_PROOF_OF_STAKE }
  vtx := [CreateNewBlock.coinbase 500000 1700000000, halvingStakedTx]
  vchBlockSig := []

/-- The block files: the funding block at the start of file 0. -/
def halvingFiles : BlockFiles := Function.update (fun _ => none) ⟨0, 0⟩ (some halvingFundingBlock)

/-- The transaction index after the funding block, with an empty cache. -/
def halvingIndex : TxIndex :=
  TxIndex.WriteBlock (CTransaction.GetHash toyHash) ⟨fun _ => none, fun _ => none⟩
    halvingFundingBlock 500000 ⟨0, 0⟩

/-- The staked coin. -/
def halvingCoin : COutput := ⟨⟨halvingStakedTx.GetHash toyHash, 0⟩, ⟨1000 * COIN, [0x51]⟩⟩

/-- The tip, two minutes before the coinstake's time. -/
def halvingTip : CBlockIndex := ⟨0x525599, 525599, 1701213080, 0x1d00ffff, BLOCK_PROOF_OF_STAKE⟩

/-- The coins of the active chain: the staked coin. -/
def halvingView : CCoinsViewCache where
  coins o := if o = halvingCoin.outpoint then
      some ⟨halvingCoin.txout, false, 500000, false, 1700000000⟩
    else none
  hashBlock := halvingTip.hashBlock
  unspent o c h := by
    split at h
    · cases h
      rfl
    · cases h

/-- A wallet that stakes to the coin's own script, does not split, and signs every input. -/
def halvingWallet : StakeWallet where
  scriptPubKeyOut s := some s
  m_split_coins := false
  SignSignature _ _ := some ([0x01], [])

/-- The kernel's rules: a stake modifier is available and the scripts verify. -/
def halvingRules : KernelRules where
  Hash := toyHash
  GetKernelStakeModifier _ := some 0
  VerifyScript _ _ := true

/-- **At the first halving the staker's block is rejected.** On the tip at height 525599 the
staker assembles a block whose coinstake pays 1188 coins for the 1000 staked, claiming
`GetBlockReward(525599)`, 188 coins; `TestBlockValidity` connects it at height 525600, where
`GetBlockReward` is 94 coins, and `ConnectBlock` rejects it with `bad-cs-amount`, whatever value
its uninitialised `skipZeroValue` is read as. -/
theorem CreateNewBlock_exceeds_bound (skipZeroValue : Bool) :
    ∃ block nLast index',
      CreateNewBlock mainConsensus halvingRules halvingWallet halvingFiles halvingIndex
          halvingView [halvingTip] 1701213200 1701213140 0x2100ffff [] 0 (2000 * COIN) none
          (some [halvingCoin]) = .ok (some block, nLast, index') ∧
        block.vtx.map CTransaction.valueOut = [0, 1188 * COIN] ∧
        ConnectBlock mainParams stakeCodec passAllRules block
            [CBlockIndex.dummy stakeCodec block (halvingTip.nHeight + 1), halvingTip] halvingView
            true skipZeroValue 0 =
          .error (.invalid "bad-cs-amount") := by
  have hrun : (CreateNewBlock mainConsensus halvingRules halvingWallet halvingFiles halvingIndex
      halvingView [halvingTip] 1701213200 1701213140 0x2100ffff [] 0 (2000 * COIN) none
      (some [halvingCoin])).map (fun r => r.1.map fun block =>
        (block.vtx.map CTransaction.valueOut,
          (ConnectBlock mainParams stakeCodec passAllRules block
            [CBlockIndex.dummy stakeCodec block (halvingTip.nHeight + 1), halvingTip] halvingView
            true skipZeroValue 0).map fun _ => ())) =
      .ok (some ([0, 1188 * COIN], .error (.invalid "bad-cs-amount"))) := by
    cases skipZeroValue <;> decide +kernel
  obtain ⟨⟨block?, nLast, index'⟩, hr, hblock⟩ := Except.map_eq_ok.1 hrun
  obtain ⟨block, rfl, hpair⟩ := Option.map_eq_some_iff.1 hblock
  simp only [Prod.mk.injEq] at hpair
  exact ⟨block, nLast, index', hr, hpair.1, Except.map_eq_error.1 hpair.2⟩

end NowpConsensus
