import NowpConsensus.Kernel.ProofOfStake
import NowpConsensus.Validation.ConnectBlock

/-!
# The transaction index over runs of the node

The node as the index sees it (`TxIndexNode`): the block files, the active chain, and the index
with its cache. A run is a sequence of the steps that change them (`TxIndexNode.Step`): a block
written to the files, the tip connected or disconnected (a reorganisation is disconnections
followed by connections), and a call of `GetCoinAge`, which fills the cache. Which blocks are
valid is `ConnectBlock`'s business: any stored block on the tip can be connected, so the runs
here include every run of the node.

* `TxIndexNode.Reachable.sound`: along every run, each position the index gives reads back a
  transaction of that hash, and each cached pair was read from the files and holds a transaction
  of the hash it is cached under;
* `TxIndexNode.Reachable.lookup_hash`: so a read through the cache never returns the wrong
  transaction; only the header it returns can be stale;
* `CheckProofOfStake_reads_stale_cache`: a run in which a reorganisation moves a cached
  transaction into a competing block leaves the cache incoherent, and `CheckProofOfStake` then
  accepts a coinstake that it rejects with an empty cache.
-/

namespace NowpConsensus

namespace TxIndex

/-- What the index and its cache hold is read from the files: each position the index gives reads
back a transaction of that hash, and each cached pair is read from some position and holds a
transaction of the hash it is cached under. -/
def Sound (Hash : List UInt8 → uint256) (files : BlockFiles) (index : TxIndex) : Prop :=
  (∀ txid postx, index.db txid = some postx →
    ∃ e, ReadTxFromDisk files postx = some e ∧ e.2.GetHash Hash = txid) ∧
  (∀ txid e, index.cachedTxs txid = some e →
    e.2.GetHash Hash = txid ∧ ∃ postx, ReadTxFromDisk files postx = some e)

variable {Hash : List UInt8 → uint256} {files : BlockFiles} {index : TxIndex}

theorem sound_empty : Sound Hash files ⟨fun _ => none, fun _ => none⟩ := by
  constructor
  · intro txid postx h
    cases h
  · intro txid e h
    cases h

theorem Sound.of_files {files' : BlockFiles} (hs : Sound Hash files index)
    (hfiles : ∀ pos b, files pos = some b → files' pos = some b) : Sound Hash files' index := by
  refine ⟨fun txid postx hpos => ?_, fun txid e he => ?_⟩
  · obtain ⟨e, hread, hhash⟩ := hs.1 txid postx hpos
    exact ⟨e, ReadTxFromDisk_mono hfiles hread, hhash⟩
  · obtain ⟨hhash, postx, hread⟩ := hs.2 txid e he
    exact ⟨hhash, postx, ReadTxFromDisk_mono hfiles hread⟩

theorem Sound.of_fills {index' : TxIndex} (hs : Sound Hash files index)
    (h : Fills files index index') : Sound Hash files index' := by
  refine ⟨fun txid postx hpos => hs.1 txid postx (h.1 ▸ hpos), fun txid e he => ?_⟩
  rcases h.2 txid e he with he' | ⟨postx, hpos, hread⟩
  · exact hs.2 txid e he'
  · obtain ⟨e', hread', hhash⟩ := hs.1 txid postx hpos
    rw [hread, Option.some.injEq] at hread'
    exact ⟨hread' ▸ hhash, postx, hread⟩

theorem Sound.WriteBlock {block : CBlock} {nHeight : Int} {blockPos : FlatFilePos}
    (hs : Sound Hash files index) (hfile : files blockPos = some block) :
    Sound Hash files (index.WriteBlock (CTransaction.GetHash Hash) block nHeight blockPos) := by
  refine ⟨fun txid postx hpos => ?_, fun txid e he => hs.2 txid e (by simpa using he)⟩
  rcases @WriteBlock_db index _ block nHeight blockPos txid with hold | ⟨tx, postx', hmem, hkey, hnew⟩
  · exact hs.1 txid postx (hold ▸ hpos)
  · rw [hnew, Option.some.injEq] at hpos
    subst hpos
    exact ⟨_, ReadTxFromDisk_of_mem_positions hfile hmem, by simpa using hkey⟩

end TxIndex

/-- The node as the transaction index sees it. -/
structure TxIndexNode where
  /-- The block files. -/
  files : BlockFiles
  /-- The active chain, tip first: each block's index entry and the position of the block. -/
  chain : List (CBlockIndex × FlatFilePos)
  /-- `g_txindex`. -/
  index : TxIndex

namespace TxIndexNode

/-- The entry `AddToBlockIndex` makes for a block at height `nHeight`. -/
def entryOf (Hash : List UInt8 → uint256) (block : CBlock) (nHeight : Int) : CBlockIndex :=
  ⟨block.header.GetHash Hash, nHeight, block.header.nTime, block.header.nBits,
    if block.isProofOfStake then BLOCK_PROOF_OF_STAKE else 0⟩

/-- A node that has stored and connected the genesis block, at `pos`, with an empty index. -/
def init (Hash : List UInt8 → uint256) (genesis : CBlock) (pos : FlatFilePos) : TxIndexNode where
  files := Function.update (fun _ => none) pos (some genesis)
  chain := [(entryOf Hash genesis 0, pos)]
  index := ⟨fun _ => none, fun _ => none⟩

/-- `WriteBlockToDisk` of a block at `pos`. -/
def writeBlockToDisk (n : TxIndexNode) (pos : FlatFilePos) (block : CBlock) : TxIndexNode :=
  { n with files := Function.update n.files pos (some block) }

/-- `ConnectTip` of the block stored at `pos` on the tip `tip`, and the index's `BlockConnected`,
which writes the positions of the block's transactions. -/
def connectTip (Hash : List UInt8 → uint256) (n : TxIndexNode) (tip : CBlockIndex)
    (pos : FlatFilePos) (block : CBlock) : TxIndexNode :=
  { n with
    chain := (entryOf Hash block (tip.nHeight + 1), pos) :: n.chain
    index := n.index.WriteBlock (CTransaction.GetHash Hash) block (tip.nHeight + 1) pos }

/-- `DisconnectTip`: the chain loses its tip. The index's `Rewind` moves its best block back and
keeps every position it wrote. -/
def disconnectTip (n : TxIndexNode) : TxIndexNode := { n with chain := n.chain.tail }

/-- The steps of a run, on a network of consensus parameters `params` with the hash `Hash`. -/
inductive Step (params : Params) (Hash : List UInt8 → uint256) : TxIndexNode → TxIndexNode → Prop
  /-- A block written at a free position. -/
  | writeBlockToDisk {n : TxIndexNode} {pos : FlatFilePos} {block : CBlock}
      (hfree : n.files pos = none) : Step params Hash n (n.writeBlockToDisk pos block)
  /-- A stored block whose parent is the tip, connected. -/
  | connectTip {n : TxIndexNode} {tip : CBlockIndex} {tipPos : FlatFilePos}
      {rest : List (CBlockIndex × FlatFilePos)} {pos : FlatFilePos} {block : CBlock}
      (hchain : n.chain = (tip, tipPos) :: rest) (hfile : n.files pos = some block)
      (hprev : block.header.hashPrevBlock = tip.hashBlock) :
      Step params Hash n (n.connectTip Hash tip pos block)
  /-- The tip disconnected, genesis apart. -/
  | disconnectTip {n : TxIndexNode} {tip : CBlockIndex × FlatFilePos}
      {rest : List (CBlockIndex × FlatFilePos)} (hchain : n.chain = tip :: rest)
      (hrest : rest ≠ []) : Step params Hash n n.disconnectTip
  /-- A call of `GetCoinAge` that returns, and the cache it leaves. -/
  | getCoinAge {n : TxIndexNode} {tx : CTransaction} {view : CCoinsViewCache}
      {nTimeTx : UInt32} {isTrueCoinAge b : Bool} {nCoinAge : UInt64} {index' : TxIndex}
      (h : GetCoinAge params Hash n.files n.index tx view nTimeTx isTrueCoinAge =
        .ok (b, nCoinAge, index')) :
      Step params Hash n { n with index := index' }

/-- The states the runs from `init Hash genesis pos` reach. -/
inductive Reachable (params : Params) (Hash : List UInt8 → uint256) (genesis : CBlock)
    (pos : FlatFilePos) : TxIndexNode → Prop
  | init : Reachable params Hash genesis pos (init Hash genesis pos)
  | step {n n' : TxIndexNode} :
      Reachable params Hash genesis pos n → Step params Hash n n' →
        Reachable params Hash genesis pos n'

variable {params : Params} {Hash : List UInt8 → uint256} {genesis : CBlock} {pos : FlatFilePos}
  {n n' : TxIndexNode}

/-- Every step keeps the index and its cache sound. -/
theorem Step.sound (hs : n.index.Sound Hash n.files) (h : Step params Hash n n') :
    n'.index.Sound Hash n'.files := by
  cases h with
  | @writeBlockToDisk p₀ block hfree =>
    refine hs.of_files fun p b hb => ?_
    have hp : p ≠ p₀ := by
      rintro rfl
      rw [hfree] at hb
      cases hb
    show Function.update n.files p₀ (some block) p = some b
    rw [Function.update_of_ne hp, hb]
  | connectTip hchain hfile hprev => exact hs.WriteBlock hfile
  | disconnectTip hchain hrest => exact hs
  | getCoinAge h => exact hs.of_fills (GetCoinAge_fills h)

/-- **Along every run the index and its cache are sound.** -/
theorem Reachable.sound (hr : Reachable params Hash genesis pos n) :
    n.index.Sound Hash n.files := by
  induction hr with
  | init => exact TxIndex.sound_empty
  | step _ hstep ih => exact Step.sound ih hstep

/-- **Along every run a read through the cache returns a transaction of the hash asked for**, so
`CheckProofOfStake`'s txid check never fails on what it reads; only the header it reads can be
stale. -/
theorem Reachable.lookup_hash {txid : uint256} {postx : CDiskTxPos}
    {e : CBlockHeader × CTransaction} (hr : Reachable params Hash genesis pos n)
    (hpos : n.index.FindTxPosition txid = some postx)
    (hl : n.index.lookup n.files txid postx = some e) : e.2.GetHash Hash = txid := by
  have hs := hr.sound
  unfold TxIndex.lookup at hl
  split at hl
  · rename_i e' he'
    rw [Option.some.injEq] at hl
    subst hl
    exact (hs.2 txid e' he').1
  · obtain ⟨e', hread, hhash⟩ := hs.1 txid postx hpos
    rw [hread, Option.some.injEq] at hl
    exact hl ▸ hhash

/-- The index `GetCoinAge` leaves, or the index as it was where it stops. -/
def indexAfter (r : Except Abort (Bool × UInt64 × TxIndex)) (index : TxIndex) : TxIndex :=
  match r with
  | .ok (_, _, index') => index'
  | .error _ => index

/-- The node after a call of `GetCoinAge`. -/
def getCoinAge (params : Params) (Hash : List UInt8 → uint256) (n : TxIndexNode)
    (tx : CTransaction) (view : CCoinsViewCache) (nTimeTx : UInt32) (isTrueCoinAge : Bool) :
    TxIndexNode :=
  { n with
    index := indexAfter (GetCoinAge params Hash n.files n.index tx view nTimeTx isTrueCoinAge)
      n.index }

/-- A call of `GetCoinAge` that returns is a step to the node it leaves. -/
theorem Step.getCoinAge_of_ok {tx : CTransaction} {view : CCoinsViewCache} {nTimeTx : UInt32}
    {isTrueCoinAge : Bool}
    (h : (GetCoinAge params Hash n.files n.index tx view nTimeTx isTrueCoinAge).isOk = true) :
    Step params Hash n (n.getCoinAge params Hash tx view nTimeTx isTrueCoinAge) := by
  unfold TxIndexNode.getCoinAge
  cases hr : GetCoinAge params Hash n.files n.index tx view nTimeTx isTrueCoinAge with
  | error e => simp [hr, Except.isOk, Except.toBool] at h
  | ok r => exact Step.getCoinAge hr

end TxIndexNode

/-! ## A reorganisation that leaves the cache stale

On the main network, two competing blocks on genesis include the same transaction
`reorgStakedTx`, one day apart. The node connects the first, computes the coin age of a coinstake
that spends the transaction (caching the transaction with the first block's header), and then
reorganises to the second. -/

/-- The transaction both competing blocks include: it pays 1000 coins. -/
def reorgStakedTx : CTransaction where
  vin := [⟨⟨0x1111, 0⟩, [], 0xffffffff, []⟩]
  vout := [⟨1000 * COIN, [0x51]⟩]
  nVersion := 3
  nTime := 0
  nLockTime := 0

/-- A coinbase, told apart by `tag`. -/
def reorgCoinbase (tag : UInt8) : CTransaction where
  vin := [⟨⟨0, COutPoint.NULL_INDEX⟩, [0x51, tag], 0xffffffff, []⟩]
  vout := [⟨50 * COIN, [0x51]⟩]
  nVersion := 3
  nTime := 0
  nLockTime := 0

/-- The genesis block: the main network's genesis header and a coinbase. -/
def reorgGenesis : CBlock := ⟨mainParams.genesis, [reorgCoinbase 0], []⟩

/-- A block on genesis at time `nTime`, with the coinbase `tag` and `reorgStakedTx`. -/
def reorgBlock (nTime : UInt32) (tag : UInt8) : CBlock where
  header :=
    { nVersion := 4
      hashPrevBlock := mainParams.genesis.GetHash toyHash
      hashMerkleRoot := 0
      nTime := nTime
      nBits := 0x1d00ffff
      nNonce := 0
      nFlags := 0 }
  vtx := [reorgCoinbase tag, reorgStakedTx]
  vchBlockSig := []

/-- A coinstake spending the output of `reorgStakedTx`, fourteen days and an hour after the first
block. -/
def reorgCoinstake : CTransaction where
  vin := [⟨⟨reorgStakedTx.GetHash toyHash, 0⟩, [], 0xffffffff, []⟩]
  vout := [⟨0, []⟩, ⟨1001 * COIN, [0x51]⟩]
  nVersion := 3
  nTime := 1701213200
  nLockTime := 0

/-- The coins view in which the coinstake's coin age is computed: the output of `reorgStakedTx`. -/
def reorgView : CCoinsViewCache where
  coins o := if o = ⟨reorgStakedTx.GetHash toyHash, 0⟩ then
      some ⟨⟨1000 * COIN, [0x51]⟩, false, 1, false, 0⟩
    else none
  hashBlock := (reorgBlock 1700000000 1).header.GetHash toyHash
  unspent o c h := by
    split at h
    · cases h
      rfl
    · cases h

/-- The kernel's rules in the run: a stake modifier is available, and the script checks pass. -/
def reorgRules : KernelRules where
  Hash := toyHash
  GetKernelStakeModifier _ := some 0
  VerifyScript _ _ := true

/-- The run up to the reorganisation's last step: store and connect the first block, compute the
coinstake's coin age, store the second block and disconnect the first. -/
def reorgBefore : TxIndexNode :=
  let n₀ := TxIndexNode.init toyHash reorgGenesis ⟨0, 0⟩
  let n₁ := n₀.writeBlockToDisk ⟨0, 1000⟩ (reorgBlock 1700000000 1)
  let n₂ := n₁.connectTip toyHash (TxIndexNode.entryOf toyHash reorgGenesis 0) ⟨0, 1000⟩
    (reorgBlock 1700000000 1)
  let n₃ := n₂.getCoinAge mainConsensus toyHash reorgCoinstake reorgView 1701213200 true
  let n₄ := n₃.writeBlockToDisk ⟨0, 2000⟩ (reorgBlock 1700086400 2)
  n₄.disconnectTip

/-- The run: the second block connected. -/
def reorgNode : TxIndexNode :=
  reorgBefore.connectTip toyHash (TxIndexNode.entryOf toyHash reorgGenesis 0) ⟨0, 2000⟩
    (reorgBlock 1700086400 2)

theorem reorgNode_reachable :
    TxIndexNode.Reachable mainConsensus toyHash reorgGenesis ⟨0, 0⟩ reorgNode := by
  have r₀ := @TxIndexNode.Reachable.init mainConsensus toyHash reorgGenesis ⟨0, 0⟩
  have r₁ := r₀.step (@TxIndexNode.Step.writeBlockToDisk _ _ _ ⟨0, 1000⟩
    (reorgBlock 1700000000 1) (by decide +kernel))
  have r₂ := r₁.step (@TxIndexNode.Step.connectTip _ _ _
    (TxIndexNode.entryOf toyHash reorgGenesis 0) ⟨0, 0⟩ [] ⟨0, 1000⟩ (reorgBlock 1700000000 1)
    rfl (by decide +kernel) (by decide +kernel))
  have r₃ := r₂.step (@TxIndexNode.Step.getCoinAge_of_ok _ _ _ reorgCoinstake reorgView
    1701213200 true (by decide +kernel))
  have r₄ := r₃.step (@TxIndexNode.Step.writeBlockToDisk _ _ _ ⟨0, 2000⟩
    (reorgBlock 1700086400 2) (by decide +kernel))
  have r₅ := r₄.step (@TxIndexNode.Step.disconnectTip _ _ _
    (TxIndexNode.entryOf toyHash (reorgBlock 1700000000 1) (0 + 1), ⟨0, 1000⟩)
    [(TxIndexNode.entryOf toyHash reorgGenesis 0, ⟨0, 0⟩)] rfl (List.cons_ne_nil _ _))
  exact r₅.step (@TxIndexNode.Step.connectTip _ _ _
    (TxIndexNode.entryOf toyHash reorgGenesis 0) ⟨0, 0⟩ [] ⟨0, 2000⟩ (reorgBlock 1700086400 2)
    rfl (by decide +kernel) (by decide +kernel))

/-- **A reorganisation leaves the cache stale, and `CheckProofOfStake` reads it.** After the run,
the cache holds the reorganised transaction with the first block's header while the index points
into the second block; `CheckProofOfStake` of a coinstake spending it, fourteen days and an hour
after the first block, accepts it from the cache, and rejects it with an empty cache, where it
reads the second block's header and fails the minimum age. -/
theorem CheckProofOfStake_reads_stale_cache :
    ∃ n, TxIndexNode.Reachable mainConsensus toyHash reorgGenesis ⟨0, 0⟩ n ∧
      ¬ n.index.Coherent n.files ∧
      (∃ hashProofOfStake, CheckProofOfStake mainConsensus reorgRules n.files n.index
        reorgCoinstake 0x2100ffff 1701213200 = .ok (.ok hashProofOfStake)) ∧
      CheckProofOfStake mainConsensus reorgRules n.files n.index.cold reorgCoinstake 0x2100ffff
        1701213200 = .ok (.error "check-kernel-failed") := by
  -- the second block moves the cached transaction, whose cached header is the first block's
  have hfile : reorgBefore.files ⟨0, 2000⟩ = some (reorgBlock 1700086400 2) := by decide +kernel
  have hnd : ((reorgBlock 1700086400 2).vtx.map (CTransaction.GetHash toyHash)).Nodup := by
    decide +kernel
  have hp : (reorgStakedTx, (⟨⟨0, 2000⟩, 64⟩ : CDiskTxPos)) ∈ TxIndex.positions
      (TxIndex.firstTxPos ⟨0, 2000⟩ (reorgBlock 1700086400 2)) (reorgBlock 1700086400 2).vtx := by
    decide +kernel
  have hcache : reorgBefore.index.cachedTxs (reorgStakedTx.GetHash toyHash) =
      some ({ (reorgBlock 1700000000 1).header with nFlags := 0 }, reorgStakedTx) := by
    decide +kernel
  have hheader : ({ (reorgBlock 1700000000 1).header with nFlags := 0 } : CBlockHeader) ≠
      { (reorgBlock 1700086400 2).header with nFlags := 0 } := by
    decide +kernel
  have hmoved := @TxIndex.not_coherent_of_moved reorgBefore.files reorgBefore.index
    (CTransaction.GetHash toyHash) (reorgBlock 1700086400 2)
    ((TxIndexNode.entryOf toyHash reorgGenesis 0).nHeight + 1) ⟨0, 2000⟩ ⟨⟨0, 2000⟩, 64⟩
    ({ (reorgBlock 1700000000 1).header with nFlags := 0 }, reorgStakedTx) reorgStakedTx
    hfile (by decide +kernel) hnd hp hcache hheader
  have hstale : ¬ reorgNode.index.Coherent reorgNode.files := hmoved
  have hcached : (CheckProofOfStake mainConsensus reorgRules reorgNode.files reorgNode.index
      reorgCoinstake 0x2100ffff 1701213200).map Except.isOk = .ok true := by
    decide +kernel
  obtain ⟨r, hr, hok⟩ := Except.map_eq_ok.1 hcached
  obtain ⟨hashProofOfStake, rfl⟩ : ∃ h, r = .ok h := by
    cases r with
    | error e => simp [Except.isOk, Except.toBool] at hok
    | ok h => exact ⟨h, rfl⟩
  exact ⟨reorgNode, reorgNode_reachable, hstale, ⟨hashProofOfStake, hr⟩, by decide +kernel⟩

/-! ## A coinstake that names an output past the end

After the same run, a peer sends a proof-of-stake block whose coinstake spends output 1 of
`reorgStakedTx`, which has one output. The block passes `CheckBlock`, which `AcceptBlock` and
`TestBlockValidity` run before `NowpContextualBlockChecks`; the stake check then reads past the
end of the spent transaction's outputs. -/

/-- A coinstake spending output 1 of `reorgStakedTx`. -/
def outOfRangeCoinstake : CTransaction where
  vin := [⟨⟨reorgStakedTx.GetHash toyHash, 1⟩, [], 0xffffffff, []⟩]
  vout := [⟨0, []⟩, ⟨1001 * COIN, [0x51]⟩]
  nVersion := 3
  nTime := 1701213200
  nLockTime := 0

/-- The coinbase of a proof-of-stake block: one empty output, at the coinstake's time. -/
def outOfRangeCoinbase : CTransaction where
  vin := [⟨⟨0, COutPoint.NULL_INDEX⟩, [0x52, 0x00], 0xffffffff, []⟩]
  vout := [⟨0, []⟩]
  nVersion := 3
  nTime := 1701213200
  nLockTime := 0

/-- The block, on the second competing block, at the coinstake's time. -/
def outOfRangeBlock : CBlock where
  header :=
    { nVersion := 4
      hashPrevBlock := (reorgBlock 1700086400 2).header.GetHash toyHash
      hashMerkleRoot := stakeMerkleRoot [outOfRangeCoinbase, outOfRangeCoinstake]
      nTime := 1701213200
      nBits := 0x2100ffff
      nNonce := 0
      nFlags := BLOCK_PROOF_OF_STAKE }
  vtx := [outOfRangeCoinbase, outOfRangeCoinstake]
  vchBlockSig := []

/-- **The stake check reads past the end of the spent transaction's outputs.** On a node state
the run reaches, the block passes `CheckBlock` with every check on, and the proof-of-stake
check of `NowpContextualBlockChecks` reads output 1 of a transaction with one output. -/
theorem NowpContextualBlockChecks_reads_out_of_range :
    ∃ n, TxIndexNode.Reachable mainConsensus toyHash reorgGenesis ⟨0, 0⟩ n ∧
      CheckBlock mainParams stakeCodec outOfRangeBlock true true true = .valid ∧
      NowpContextualBlockChecks.checkProofOfStake mainConsensus reorgRules n.files n.index
        outOfRangeBlock = .error .outOfRange := by
  refine ⟨reorgNode, reorgNode_reachable, by decide +kernel, ?_⟩
  have hpos : reorgNode.index.FindTxPosition (reorgStakedTx.GetHash toyHash) =
      some ⟨⟨0, 2000⟩, 64⟩ := by
    decide +kernel
  have hlookup : reorgNode.index.lookup reorgNode.files (reorgStakedTx.GetHash toyHash)
      ⟨⟨0, 2000⟩, 64⟩ = some ({ (reorgBlock 1700000000 1).header with nFlags := 0 },
        reorgStakedTx) := by
    decide +kernel
  have hcs : outOfRangeCoinstake.isCoinStake = true := by decide +kernel
  have hread := @CheckProofOfStake_outOfRange mainConsensus reorgRules reorgNode.files
    reorgNode.index outOfRangeCoinstake 0x2100ffff 1701213200 _ [] _ _ reorgStakedTx
    hcs rfl hpos hlookup rfl (by decide)
  unfold NowpContextualBlockChecks.checkProofOfStake
  dsimp only [outOfRangeBlock]
  rw [if_pos hcs, show (if (outOfRangeCoinstake.nTime != 0) = true then outOfRangeCoinstake.nTime
    else (1701213200 : UInt32)) = 1701213200 from rfl, hread]
  rfl

end NowpConsensus
