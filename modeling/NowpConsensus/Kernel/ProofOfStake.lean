import NowpConsensus.Index.TxIndex
import NowpConsensus.Coins.CoinsView
import NowpConsensus.Consensus.Params
import NowpConsensus.Arith.BigNum
import NowpConsensus.Arith.Uint256
import NowpConsensus.Validation.CheckBlock

/-!
# The stake kernel and the coin age

The proof-of-stake checks of `kernel.cpp` and the coin age of `validation.cpp`, the three places
that read the transaction a stake or an input spends through the index and its cache:

* `CheckStakeKernelHash`: the kernel of a coinstake, the hash of the stake modifier, the time and
  position of the spent transaction and its block, and the coinstake's time, must fall below the
  target scaled by the coin-day weight of the stake;
* `CheckProofOfStake`: finds the spent transaction and its block's header (from the cache, else
  from the files), checks the first input's script and the kernel;
* `GetCoinAge`: the coin age a transaction spends, in coin-days, reading each spent transaction
  and its header the same way and filling the cache on a miss.

What these call and the model leaves open is `KernelRules`: the stake modifier, the script check
and the hash function. The transaction index is taken to be present (`g_txindex`), which a
staking node needs.

The main results are that a coherent cache is transparent:

* `CheckProofOfStake_of_coherent`: on a coherent cache, `CheckProofOfStake` answers as it does
  with an empty cache;
* `GetCoinAge_of_coherent`: on a coherent cache, `GetCoinAge` computes the coin age it computes
  with an empty cache, and it only fills the cache from the files (`GetCoinAge_fills`).
-/

namespace NowpConsensus

/-- `CBlockHeader::NORMAL_SERIALIZE_SIZE`. -/
def CBlockHeader.NORMAL_SERIALIZE_SIZE : Nat := 80

/-- What the kernel reads that the model leaves open. -/
structure KernelRules where
  /-- `Hash`: the double SHA-256 of a stream's bytes. -/
  Hash : List UInt8 → uint256
  /-- `GetKernelStakeModifier(pindexPrev, hashBlockFrom, nTimeTx, ...)` on the chain the block
  extends: the modifier, or `none` where it returns `false`. It calls
  `GetKernelStakeModifierV05(pindexPrev, nTimeTx, ...)`, which does not read `hashBlockFrom`. -/
  GetKernelStakeModifier : UInt32 → Option UInt64
  /-- `VerifyScript(scriptSig, scriptPubKey, &scriptWitness, SCRIPT_VERIFY_P2SH, checker)` of the
  coinstake's first input against the output it spends. -/
  VerifyScript : CTransaction → CTxOut → Bool

/-- `CheckStakeKernelHash(nBits, pindexPrev, blockFrom, nTxPrevOffset, txPrev, prevout, nTimeTx,
hashProofOfStake, ...)`: the proof hash when it returns `true`, `none` where it returns `false`. -/
def CheckStakeKernelHash (params : Params) (rules : KernelRules) (nBits : UInt32)
    (blockFrom : CBlockHeader) (nTxPrevOffset : UInt32) (txPrev : CTransaction)
    (prevout : COutPoint) (nTimeTx : UInt32) : Except Abort (Option uint256) :=
  let nTimeBlockFrom := blockFrom.nTime
  let nTimeTxPrev := if txPrev.nTime != 0 then txPrev.nTime else nTimeBlockFrom
  if nTimeTx < nTimeTxPrev then .ok none
  else if (nTimeBlockFrom.toNat : Int) + params.nStakeMinAge > nTimeTx.toNat then .ok none
  else
    let bnTargetPerCoinDay := CBigNum.SetCompact nBits
    match txPrev.vout[prevout.n.toNat]? with
    | none => .error .outOfRange
    | some out =>
      let nTimeWeight :=
        min ((nTimeTx.toNat : Int) - nTimeTxPrev.toNat) params.nStakeMaxAge - params.nStakeMinAge
      CBigNum.div (out.nValue * nTimeWeight) COIN >>= fun w =>
      CBigNum.div w (24 * 60 * 60) >>= fun bnCoinDayWeight =>
      match rules.GetKernelStakeModifier nTimeTx with
      | none => .ok none
      | some nStakeModifier =>
        let hashProofOfStake := rules.Hash (ser_uint64 nStakeModifier ++
          ser_uint32 nTimeBlockFrom ++ ser_uint32 nTxPrevOffset ++ ser_uint32 nTimeTxPrev ++
          ser_uint32 prevout.n ++ ser_uint32 nTimeTx)
        if CBigNum.ofUint256 hashProofOfStake > bnCoinDayWeight * bnTargetPerCoinDay then .ok none
        else .ok (some hashProofOfStake)

/-- `CheckProofOfStake(state, pindexPrev, tx, nBits, hashProofOfStake, nTimeTx, chainstate)`
with the index `index` over the block files `files`: the proof hash when it returns `true`, else
the reject reason, or the error text where it returns `false` through `error()`. -/
def CheckProofOfStake (params : Params) (rules : KernelRules) (files : BlockFiles)
    (index : TxIndex) (tx : CTransaction) (nBits nTimeTx : UInt32) :
    Except Abort (Except String uint256) :=
  if !tx.isCoinStake then .ok (.error "CheckProofOfStake() : called on non-coinstake")
  else
    match tx.vin with
    | [] => .error .outOfRange
    | txin :: _ =>
      match index.FindTxPosition txin.prevout.hash with
      | none => .ok (.error "CheckProofOfStake() : tx index not found")
      | some postx =>
        -- nowp: the cached header and transaction, else the ones at the position found
        match index.lookup files txin.prevout.hash postx with
        | none => .ok (.error "deserialize or I/O error in CheckProofOfStake()")
        | some (header, txPrev) =>
          if txPrev.GetHash rules.Hash != txin.prevout.hash then
            .ok (.error "txid mismatch in CheckProofOfStake()")
          else
            match txPrev.vout[txin.prevout.n.toNat]? with
            | none => .error .outOfRange
            | some prevOut =>
              if !rules.VerifyScript tx prevOut then .ok (.error "invalid-pos-script")
              else
                (CheckStakeKernelHash params rules nBits header
                  (UInt32.ofNat (postx.nTxOffset + CBlockHeader.NORMAL_SERIALIZE_SIZE)) txPrev
                  txin.prevout nTimeTx).map fun
                    | none => .error "check-kernel-failed"
                    | some hashProofOfStake => .ok hashProofOfStake

/-- The proof-of-stake check `NowpContextualBlockChecks(block, state, pindex, fJustCheck,
chainstate)` opens with: for a block whose second transaction is a coinstake, `CheckProofOfStake`
of it at its timestamp or, where it carries none, the block's; whether it passes. -/
def NowpContextualBlockChecks.checkProofOfStake (params : Params) (rules : KernelRules)
    (files : BlockFiles) (index : TxIndex) (block : CBlock) : Except Abort Bool :=
  match block.vtx with
  | _ :: tx :: _ =>
    if tx.isCoinStake then
      (CheckProofOfStake params rules files index tx block.header.nBits
        (if tx.nTime != 0 then tx.nTime else block.header.nTime)).map Except.isOk
    else .ok true
  | _ => .ok true

/-- `GetCoinAge`'s read of the transaction of hash `txid`: the cached pair, else the pair read at
the position the index gives, which is then cached; `none` where the index has no position
("tx missing in tx index") or the read throws. -/
def GetCoinAge.read (files : BlockFiles) (index : TxIndex) (txid : uint256) :
    Option ((CBlockHeader × CTransaction) × TxIndex) :=
  match index.cachedTxs txid with
  | some e => some (e, index)
  | none =>
    match index.FindTxPosition txid with
    | none => none
    | some postx => index.fill files txid postx

/-- The loop of `GetCoinAge` over the inputs, with the coin age so far in cent-seconds: whether it
returns `true`, the coin age in coin-days, and the index with the cache it leaves. -/
def GetCoinAge.go (params : Params) (Hash : List UInt8 → uint256) (files : BlockFiles)
    (view : CCoinsViewCache) (nTimeTx : UInt32) (isTrueCoinAge : Bool) :
    List CTxIn → arith_uint256 → TxIndex → Except Abort (Bool × UInt64 × TxIndex)
  | [], bnCentSecond, index =>
    base_uint.div (bnCentSecond * base_uint.ofUInt64 CENT.toNat) (base_uint.ofUInt64 COIN.toNat)
      >>= fun b => base_uint.div b (base_uint.ofUInt64 (24 * 60 * 60)) >>= fun bnCoinDay =>
      .ok (true, UInt64.ofNat (base_uint.GetLow64 bnCoinDay), index)
  | txin :: rest, bnCentSecond, index =>
    let prevout := txin.prevout
    match (if isTrueCoinAge then view.coins prevout else some coinEmpty) with
    | none => go params Hash files view nTimeTx isTrueCoinAge rest bnCentSecond index
    | some coin =>
      if nTimeTx < coin.nTime then .ok (false, 0, index)
      else
        match GetCoinAge.read files index prevout.hash with
        | none => .ok (false, 0, index)
        | some ((header, txPrev), index) =>
          if txPrev.GetHash Hash != prevout.hash then .ok (false, 0, index)
          else if header.getBlockTime + params.nStakeMinAge > nTimeTx.toNat then
            go params Hash files view nTimeTx isTrueCoinAge rest bnCentSecond index
          else
            match txPrev.vout[prevout.n.toNat]? with
            | none => .error .outOfRange
            | some out =>
              let nTimePrev : Int :=
                if txPrev.nTime != 0 then txPrev.nTime.toNat else header.getBlockTime
              let nEffectiveAge := Int32.ofInt ((nTimeTx.toNat : Int) - nTimePrev)
              let nEffectiveAge := if isTrueCoinAge then nEffectiveAge
                else if (365 * 24 * 60 * 60 : Int32) < nEffectiveAge then 365 * 24 * 60 * 60
                else nEffectiveAge
              base_uint.div (base_uint.ofUInt64 (out.nValue % 2 ^ 64).toNat *
                  BitVec.ofNat 256 nEffectiveAge.toUInt32.toNat) (base_uint.ofUInt64 CENT.toNat)
                >>= fun bnAge =>
              go params Hash files view nTimeTx isTrueCoinAge rest (bnCentSecond + bnAge) index

/-- `GetCoinAge(tx, view, nCoinAge, nTimeTx, isTrueCoinAge)`: whether it returns `true`, the coin
age `nCoinAge` in coin-days, and the index with the cache it leaves. -/
def GetCoinAge (params : Params) (Hash : List UInt8 → uint256) (files : BlockFiles)
    (index : TxIndex) (tx : CTransaction) (view : CCoinsViewCache) (nTimeTx : UInt32)
    (isTrueCoinAge : Bool) : Except Abort (Bool × UInt64 × TxIndex) :=
  if tx.isCoinBase then .ok (true, 0, index)
  else GetCoinAge.go params Hash files view nTimeTx isTrueCoinAge tx.vin 0 index

/-! ## A coherent cache is transparent -/

namespace TxIndex

/-- The index with an empty cache. -/
def cold (index : TxIndex) : TxIndex := { index with cachedTxs := fun _ => none }

@[simp]
theorem cold_db (index : TxIndex) : index.cold.db = index.db := rfl

theorem lookup_cold (files : BlockFiles) (index : TxIndex) (txid : uint256) (postx : CDiskTxPos) :
    index.cold.lookup files txid postx = ReadTxFromDisk files postx := rfl

end TxIndex

variable {params : Params} {rules : KernelRules} {files : BlockFiles} {index : TxIndex}
  {tx : CTransaction} {nBits nTimeTx : UInt32}

/-- **A coherent cache does not change what `CheckProofOfStake` answers**: it answers as it does
with an empty cache. -/
theorem CheckProofOfStake_of_coherent (hc : index.Coherent files) :
    CheckProofOfStake params rules files index tx nBits nTimeTx =
      CheckProofOfStake params rules files index.cold tx nBits nTimeTx := by
  unfold CheckProofOfStake
  split
  · rfl
  · rcases tx.vin with _ | ⟨txin, _⟩
    · rfl
    · dsimp only
      have hfind : index.cold.FindTxPosition txin.prevout.hash =
          index.FindTxPosition txin.prevout.hash := rfl
      rw [hfind]
      cases hpos : index.FindTxPosition txin.prevout.hash with
      | none => rfl
      | some postx =>
        dsimp only
        rw [hc.lookup_eq hpos, TxIndex.lookup_cold]


namespace GetCoinAge

variable {Hash : List UInt8 → uint256} {view : CCoinsViewCache} {isTrueCoinAge : Bool}
  {txid : uint256} {e : CBlockHeader × CTransaction} {index' : TxIndex}

/-- The read only fills the cache. -/
theorem read_fills (h : read files index txid = some (e, index')) : index.Fills files index' := by
  unfold read at h
  split at h
  · cases h
    exact TxIndex.Fills.refl files index
  · split at h
    · cases h
    · rename_i postx hpos
      exact TxIndex.fill_fills hpos h

/-- On a coherent cache, the read is the read of the files at the index's position, which is
then cached. -/
theorem read_of_coherent (hc : index.Coherent files) :
    read files index txid =
      ((index.FindTxPosition txid).bind (TxIndex.ReadTxFromDisk files)).map
        fun e => (e, { index with cachedTxs := Function.update index.cachedTxs txid (some e) }) := by
  unfold read
  cases hcache : index.cachedTxs txid with
  | some e =>
    obtain ⟨postx, hpos, hread⟩ := hc txid e hcache
    have hsame : Function.update index.cachedTxs txid (some e) = index.cachedTxs := by
      rw [← hcache, Function.update_eq_self]
    simp only [TxIndex.FindTxPosition, hpos, Option.bind_some, hread, Option.map_some, hsame]
  | none =>
    dsimp only
    cases index.FindTxPosition txid <;> rfl

/-- The loop only fills the cache. -/
theorem go_fills {l : List CTxIn} {bn : arith_uint256} {b : Bool} {a : UInt64}
    (h : go params Hash files view nTimeTx isTrueCoinAge l bn index = .ok (b, a, index')) :
    index.Fills files index' := by
  induction l generalizing bn index with
  | nil =>
    obtain ⟨_, -, h⟩ := Except.bind_eq_ok.1 h
    obtain ⟨_, -, h⟩ := Except.bind_eq_ok.1 h
    cases h
    exact TxIndex.Fills.refl _ _
  | cons txin rest ih =>
    simp only [go] at h
    split at h
    · exact ih h
    · split at h
      · cases h
        exact TxIndex.Fills.refl _ _
      · split at h
        · cases h
          exact TxIndex.Fills.refl _ _
        · rename_i index₁ hread
          have h₁ := read_fills hread
          split at h
          · cases h
            exact h₁
          · split at h
            · exact h₁.trans (ih h)
            · split at h
              · cases h
              · obtain ⟨_, -, h⟩ := Except.bind_eq_ok.1 h
                exact h₁.trans (ih h)

/-- **On coherent caches over the same positions, the loop computes the same coin age**: it reads
the same pairs, and goes on with caches that are again coherent over the same positions. -/
theorem go_congr {l : List CTxIn} {bn : arith_uint256} {index₁ index₂ : TxIndex}
    (h₁ : index₁.Coherent files) (h₂ : index₂.Coherent files) (hdb : index₁.db = index₂.db) :
    (go params Hash files view nTimeTx isTrueCoinAge l bn index₁).map (fun r => (r.1, r.2.1)) =
      (go params Hash files view nTimeTx isTrueCoinAge l bn index₂).map
        (fun r => (r.1, r.2.1)) := by
  induction l generalizing bn index₁ index₂ with
  | nil =>
    exact Except.map_bind_congr fun _ => Except.map_bind_congr fun _ => rfl
  | cons txin rest ih =>
    have hfind : index₁.FindTxPosition txin.prevout.hash =
        index₂.FindTxPosition txin.prevout.hash := by
      simp only [TxIndex.FindTxPosition, hdb]
    simp only [go]
    rw [read_of_coherent h₁, read_of_coherent h₂, hfind]
    split
    · exact ih h₁ h₂ hdb
    · rename_i coin _
      by_cases ht : nTimeTx < coin.nTime
      · rw [if_pos ht, if_pos ht]
        rfl
      rw [if_neg ht, if_neg ht]
      cases hR : (index₂.FindTxPosition txin.prevout.hash).bind (TxIndex.ReadTxFromDisk files) with
      | none => rfl
      | some e =>
        obtain ⟨postx, hpos, hread⟩ := Option.bind_eq_some_iff.1 hR
        have h₁' := h₁.cache (hfind.trans hpos) hread
        have h₂' := h₂.cache hpos hread
        obtain ⟨header, txPrev⟩ := e
        simp only [Option.map_some]
        by_cases hh : (txPrev.GetHash Hash != txin.prevout.hash) = true
        · rw [if_pos hh, if_pos hh]
          rfl
        rw [if_neg hh, if_neg hh]
        by_cases ha : header.getBlockTime + params.nStakeMinAge > nTimeTx.toNat
        · rw [if_pos ha, if_pos ha]
          exact ih h₁' h₂' hdb
        rw [if_neg ha, if_neg ha]
        cases txPrev.vout[txin.prevout.n.toNat]? with
        | none => rfl
        | some out => exact Except.map_bind_congr fun _ => ih h₁' h₂' hdb

end GetCoinAge

/-- `GetCoinAge` only fills the cache, each entry from the files at the index's position. -/
theorem GetCoinAge_fills {view : CCoinsViewCache} {isTrueCoinAge b : Bool} {a : UInt64}
    {Hash : List UInt8 → uint256} {index' : TxIndex}
    (h : GetCoinAge params Hash files index tx view nTimeTx isTrueCoinAge = .ok (b, a, index')) :
    index.Fills files index' := by
  unfold GetCoinAge at h
  split at h
  · cases h
    exact TxIndex.Fills.refl files index
  · exact GetCoinAge.go_fills h

/-- **A coherent cache does not change the coin age `GetCoinAge` computes**: it computes what it
computes with an empty cache. -/
theorem GetCoinAge_of_coherent {view : CCoinsViewCache} {isTrueCoinAge : Bool}
    {Hash : List UInt8 → uint256} (hc : index.Coherent files) :
    (GetCoinAge params Hash files index tx view nTimeTx isTrueCoinAge).map (fun r => (r.1, r.2.1)) =
      (GetCoinAge params Hash files index.cold tx view nTimeTx isTrueCoinAge).map
        (fun r => (r.1, r.2.1)) := by
  unfold GetCoinAge
  split
  · rfl
  · exact GetCoinAge.go_congr hc (TxIndex.coherent_of_cachedTxs_eq fun _ => rfl) rfl

/-! ## The spent output's index -/

/-- **Nothing bounds the index of the output a coinstake spends**: once the spent transaction is
found and has the right hash, `CheckProofOfStake` reads its output at the index the coinstake
names, past the end where it has fewer outputs. -/
theorem CheckProofOfStake_outOfRange {txin : CTxIn} {rest : List CTxIn} {postx : CDiskTxPos}
    {header : CBlockHeader} {txPrev : CTransaction} (hcs : tx.isCoinStake = true)
    (hvin : tx.vin = txin :: rest) (hpos : index.FindTxPosition txin.prevout.hash = some postx)
    (hlookup : index.lookup files txin.prevout.hash postx = some (header, txPrev))
    (hhash : txPrev.GetHash rules.Hash = txin.prevout.hash)
    (hn : txPrev.vout.length ≤ txin.prevout.n.toNat) :
    CheckProofOfStake params rules files index tx nBits nTimeTx = .error .outOfRange := by
  unfold CheckProofOfStake
  simp only [hcs, hvin, Bool.not_true, Bool.false_eq_true, if_false, hpos, hlookup, hhash,
    bne_self_eq_false, List.getElem?_eq_none hn]

end NowpConsensus
