import NowpConsensus.Validation.ConnectBlock

/-!
# Disconnecting and replaying blocks

`CChainState::DisconnectBlock` (`validation.cpp`) undoes a connected block on a coins view with
the undo data `ConnectBlock` wrote: transaction by transaction, last first, it spends the
transaction's outputs, checking each against the block, and puts back the coins its inputs spent
(`ApplyTxInUndo`). `CChainState::RollforwardBlock`, which `ReplayBlocks` runs after an
interrupted flush, applies a block read back from disk, spending its inputs and adding its
outputs with `AddCoins(..., check = true)`, as if any addition might already have been made.

The three add the outputs of a transaction under different filters. `AddCoin` drops unspendable
outputs, and zero-valued outputs when `skipZeroValue` is set; `DisconnectBlock` skips both kinds
of output; `RollforwardBlock` passes `skipZeroValue = false`; and `ConnectBlock` passes the value
of a variable it never sets. The undo data keeps a coin's height, both flags, its timestamp and
its output (`undo.h`), and is modelled as read back as written.

A block read from disk is its serialisation read back (`ReadBlockFromDisk`): every field but the
ones no serialisation carries, the timestamp of a transaction of version 3 or more
(`CTransaction.dropHiddenTime`) and the header's `nFlags`, which `ReadBlockFromDisk` rebuilds from
the body.

* `DisconnectBlock.outputs_zero`: `DisconnectBlock` never spends a zero-valued output;
* `DisconnectBlock_keeps_zero_outputs`: a proof-of-stake block connected with `skipZeroValue`
  read as false leaves its coinstake's empty output in the view after `DisconnectBlock` reports
  a clean undo, and connecting the block again throws;
* `ConnectBlock_reads_hidden_time`: two blocks with the same serialisation connect to different
  views;
* `RollforwardBlock_differs_from_ConnectBlock`: for either value of `skipZeroValue`, replaying a
  block connects it to another view than `ConnectBlock` does.
-/

namespace NowpConsensus

/-- `DisconnectResult`. -/
inductive DisconnectResult
  | DISCONNECT_OK
  | DISCONNECT_UNCLEAN
  | DISCONNECT_FAILED
  deriving DecidableEq, Repr

/-- `ApplyTxInUndo(undo, view, out)`: restore the coin `undo` at `out`. An undo coin of height
zero (the older format) takes its metadata from another unspent output of the same
transaction. -/
def ApplyTxInUndo (undo : Coin) (view : CCoinsViewCache) (out : COutPoint) :
    Except Abort (DisconnectResult × CCoinsViewCache) :=
  let fClean := !view.HaveCoin out
  let undo? : Option Coin :=
    if undo.nHeight = 0 then
      let alternate := view.AccessByTxid out.hash
      if !alternate.isSpent then
        some { undo with
          nHeight := alternate.nHeight
          fCoinBase := alternate.fCoinBase
          fCoinStake := alternate.fCoinStake
          nTime := alternate.nTime }
      else none
    else some undo
  match undo? with
  | none => .ok (.DISCONNECT_FAILED, view)
  | some undo =>
    (view.AddCoin out undo (!fClean) false).map fun view =>
      (if fClean then .DISCONNECT_OK else .DISCONNECT_UNCLEAN, view)

namespace DisconnectBlock

/-- The check of a transaction's outputs in `DisconnectBlock`, from output index `o`: each
spendable output of nonzero value is spent from the view, and must match the coin there; the
result is whether all did. -/
def outputs (GetHash : CTransaction → uint256) (tx : CTransaction) (nHeight : Int) :
    Nat → List CTxOut → Bool → CCoinsViewCache → Bool × CCoinsViewCache
  | _, [], fClean, view => (fClean, view)
  | o, out :: rest, fClean, view =>
    if out.scriptPubKey.isUnspendable then outputs GetHash tx nHeight (o + 1) rest fClean view
    -- nowp: outputs of value zero are skipped
    else if out.nValue == 0 then outputs GetHash tx nHeight (o + 1) rest fClean view
    else
      let (coin?, view) := view.SpendCoin ⟨GetHash tx, UInt32.ofNat o⟩
      let mismatch := match coin? with
        | none => true
        | some coin => out != coin.out || nHeight != coin.nHeight ||
            tx.isCoinBase != coin.fCoinBase || tx.isCoinStake != coin.fCoinStake
      outputs GetHash tx nHeight (o + 1) rest (fClean && !mismatch) view

/-- The restoring of a transaction's inputs, last first: `none` when an `ApplyTxInUndo` fails,
else whether all were clean, and the view. -/
def inputs : List (CTxIn × Coin) → Bool → CCoinsViewCache →
    Except Abort (Option (Bool × CCoinsViewCache))
  | [], fClean, view => .ok (some (fClean, view))
  | (txin, undo) :: rest, fClean, view =>
    ApplyTxInUndo undo view txin.prevout >>= fun (res, view) =>
      if res = .DISCONNECT_FAILED then .ok none
      else inputs rest (fClean && res != .DISCONNECT_UNCLEAN) view

/-- One transaction of the loop of `DisconnectBlock`, with its undo data if it is not the
coinbase: `none` when the undo fails. -/
def tx (GetHash : CTransaction → uint256) (nHeight : Int) (tx : CTransaction)
    (txundo? : Option CTxUndo) (fClean : Bool) (view : CCoinsViewCache) :
    Except Abort (Option (Bool × CCoinsViewCache)) :=
  let (fClean, view) := outputs GetHash tx nHeight 0 tx.vout fClean view
  match txundo? with
  | none => .ok (some (fClean, view))
  | some txundo =>
    if txundo.vprevout.length != tx.vin.length then .ok none
    else inputs (tx.vin.zip txundo.vprevout).reverse fClean view

/-- The loop of `DisconnectBlock` over the transactions, last first, each with its position. -/
def loop (GetHash : CTransaction → uint256) (nHeight : Int) (blockUndo : CBlockUndo) :
    List (CTransaction × Nat) → Bool → CCoinsViewCache →
    Except Abort (Option (Bool × CCoinsViewCache))
  | [], fClean, view => .ok (some (fClean, view))
  | (t, i) :: rest, fClean, view =>
    let txundo? := if i = 0 then none else blockUndo.vtxundo[i - 1]?
    DisconnectBlock.tx GetHash nHeight t txundo? fClean view >>= fun r =>
      match r with
      | none => .ok none
      | some (fClean, view) => loop GetHash nHeight blockUndo rest fClean view

end DisconnectBlock

/-- `CChainState::DisconnectBlock(block, pindex, view)` with the undo data `blockUndo` read for
it. -/
def DisconnectBlock (codec : BlockCodec) (block : CBlock) (blockUndo : CBlockUndo)
    (pindex : BlockPtr) (view : CCoinsViewCache) :
    Except Abort (DisconnectResult × CCoinsViewCache) :=
  match pindex with
  | [] => .error .nullDeref
  | entry :: pprev =>
    if blockUndo.vtxundo.length + 1 != block.vtx.length then .ok (.DISCONNECT_FAILED, view)
    else
      DisconnectBlock.loop codec.txHash entry.nHeight blockUndo block.vtx.zipIdx.reverse true view
        >>= fun r =>
      match r with
      | none => .ok (.DISCONNECT_FAILED, view)
      | some (fClean, view) =>
        match pprev with
        | [] => .error .nullDeref
        | prev :: _ =>
          .ok (if fClean then .DISCONNECT_OK else .DISCONNECT_UNCLEAN,
            view.SetBestBlock prev.hashBlock)

/-! ## Replaying a block -/

/-- `ReadBlockFromDisk(block, pindex, params)` of the block stored for an entry of hash
`hashBlock`: the stored block as its serialisation reads back, or `none` where it returns
`false` (a proof-of-work block whose work fails `CheckPOW`, on signet a block whose solution
fails, or a hash that does not match). -/
def ReadBlockFromDisk (codec : BlockCodec) (stored : CBlock) (hashBlock : uint256)
    (params : Params) : Option CBlock :=
  -- `SER_DISK` streams carry neither the hidden timestamps nor `nFlags`
  let read := { stored.dropHiddenTime with header := { stored.header with nFlags := 0 } }
  if read.isProofOfWork && !CheckPOW codec.toBlockHashes read params then none
  else if params.signet_blocks && !codec.CheckSignetBlockSolution read then none
  else
    let block := if read.isProofOfStake then
        { read with header := { read.header with nFlags := BLOCK_PROOF_OF_STAKE } }
      else read
    if codec.GetHash block.header != hashBlock then none else some block

/-- The loop of `RollforwardBlock` over the transactions. -/
def RollforwardBlock.loop (GetHash : CTransaction → uint256) (nHeight : Int) :
    List CTransaction → CCoinsViewCache → Except Abort CCoinsViewCache
  | [], inputs => .ok inputs
  | tx :: rest, inputs =>
    let inputs := if !tx.isCoinBase then
        tx.vin.foldl (fun inputs txin => (inputs.SpendCoin txin.prevout).2) inputs
      else inputs
    AddCoins GetHash inputs tx nHeight true false >>= RollforwardBlock.loop GetHash nHeight rest

/-- `CChainState::RollforwardBlock(pindex, inputs)`, for the block stored for `pindex`: whether it
returns `true`, and the view. -/
def RollforwardBlock (params : Params) (codec : BlockCodec) (stored : CBlock)
    (pindex : CBlockIndex) (inputs : CCoinsViewCache) : Except Abort (Bool × CCoinsViewCache) :=
  match ReadBlockFromDisk codec stored pindex.hashBlock params with
  | none => .ok (false, inputs)
  | some block =>
    (RollforwardBlock.loop codec.txHash pindex.nHeight block.vtx inputs).map fun v => (true, v)


/-! ## Zero-valued outputs -/

/-- **`DisconnectBlock` never spends a zero-valued output**: the output check touches no coin at
an outpoint all of whose outputs from index `o` on are unspendable or of value zero. -/
theorem DisconnectBlock.outputs_coins {GetHash : CTransaction → uint256} {tx : CTransaction}
    {nHeight : Int} {p : COutPoint} :
    ∀ {o : Nat} {l : List CTxOut} {fClean : Bool} {view : CCoinsViewCache},
      (∀ j (hj : j < l.length), p = ⟨GetHash tx, UInt32.ofNat (o + j)⟩ →
        (l.get ⟨j, hj⟩).scriptPubKey.isUnspendable = true ∨ (l.get ⟨j, hj⟩).nValue = 0) →
      (outputs GetHash tx nHeight o l fClean view).2.coins p = view.coins p
  | _, [], _, _, _ => rfl
  | o, out :: rest, fClean, view, hp => by
    have hrest : ∀ j (hj : j < rest.length), p = ⟨GetHash tx, UInt32.ofNat (o + 1 + j)⟩ →
        (rest.get ⟨j, hj⟩).scriptPubKey.isUnspendable = true ∨ (rest.get ⟨j, hj⟩).nValue = 0 :=
      fun j hj h => hp (j + 1) (by simp [hj]) (by rw [h, Nat.add_assoc, Nat.add_comm 1 j])
    unfold outputs
    split_ifs with hu hz
    · exact outputs_coins hrest
    · exact outputs_coins hrest
    · have hne : (⟨GetHash tx, UInt32.ofNat o⟩ : COutPoint) ≠ p := by
        rintro rfl
        rcases hp 0 (by simp) (by simp) with h | h
        · exact hu h
        · exact hz (by simpa using h)
      rw [outputs_coins hrest]
      simp [Function.update_of_ne hne.symm]


/-! ## A proof-of-stake block connected, undone and replayed

The block `stakeBlock` of `ConnectBlock.lean`, whose coinstake was built in memory at the block's
time, on the view `stakeView` of its predecessor. -/

/-- The outpoint of the empty first output of the coinstake. -/
def stakeZeroOutpoint : COutPoint := ⟨stakeCodec.txHash (stakeCoinstake 1680357192), 0⟩

/-- The outpoint of the coinstake's second output, the stake and its reward. -/
def stakeRewardOutpoint : COutPoint := ⟨stakeCodec.txHash (stakeCoinstake 1680357192), 1⟩

/-- **Disconnecting does not undo a zero-valued output.** Connected with `skipZeroValue` read as
false, the block adds the empty first output of its coinstake to the view. `DisconnectBlock`
reports a clean undo but leaves that coin, which the view before the block did not have, and
connecting the block again throws. -/
theorem DisconnectBlock_keeps_zero_outputs :
    ∃ r view', ConnectBlock mainParams stakeCodec passAllRules (stakeBlock 1680357192)
        [stakeEntry, stakePrev] stakeView false false 0 = .ok r ∧
      DisconnectBlock stakeCodec (stakeBlock 1680357192) r.blockundo [stakeEntry, stakePrev]
        r.view = .ok (.DISCONNECT_OK, view') ∧
      stakeView.coins stakeZeroOutpoint = none ∧
      view'.coins stakeZeroOutpoint = some (Coin.ofTx (stakeCoinstake 1680357192) ⟨0, []⟩ 2000) ∧
      ConnectBlock mainParams stakeCodec passAllRules (stakeBlock 1680357192)
          [stakeEntry, stakePrev] view' false false 0 =
        .error (.abort (.exception
          "Attempted to overwrite an unspent coin (when possible_overwrite is false)")) := by
  have hrun : (ConnectBlock mainParams stakeCodec passAllRules (stakeBlock 1680357192)
      [stakeEntry, stakePrev] stakeView false false 0).map (fun r =>
      (DisconnectBlock stakeCodec (stakeBlock 1680357192) r.blockundo [stakeEntry, stakePrev]
        r.view).map fun p => (p.1, p.2.coins stakeZeroOutpoint,
          (ConnectBlock mainParams stakeCodec passAllRules (stakeBlock 1680357192)
            [stakeEntry, stakePrev] p.2 false false 0).map fun _ => ())) =
      .ok (.ok (.DISCONNECT_OK, some (Coin.ofTx (stakeCoinstake 1680357192) ⟨0, []⟩ 2000),
        .error (.abort (.exception
          "Attempted to overwrite an unspent coin (when possible_overwrite is false)")))) := by
    decide +kernel
  obtain ⟨r, hr, hdis⟩ := Except.map_eq_ok.1 hrun
  obtain ⟨⟨res, view'⟩, hdis, hobs⟩ := Except.map_eq_ok.1 hdis
  simp only [Prod.mk.injEq] at hobs
  obtain ⟨rfl, hcoin, hagain⟩ := hobs
  have hbefore : stakeView.coins stakeZeroOutpoint = none := by decide +kernel
  exact ⟨r, view', hr, hdis, hbefore, hcoin, Except.map_eq_error.1 hagain⟩

/-- **Connecting a block reads a field its serialisation drops.** The block and its copy as the
network or the disk gives it back have the same bytes in every stream, and both connect, for
either value of `skipZeroValue`; but the coin the coinstake creates carries the in-memory
timestamp in one view and `0` in the other. -/
theorem ConnectBlock_reads_hidden_time (skipZeroValue : Bool) :
    (∀ fAllowWitness fPosMarker,
      SerializeBlock (stakeBlock 1680357192).dropHiddenTime fAllowWitness fPosMarker =
        SerializeBlock (stakeBlock 1680357192) fAllowWitness fPosMarker) ∧
    ∃ r r', ConnectBlock mainParams stakeCodec passAllRules (stakeBlock 1680357192)
        [stakeEntry, stakePrev] stakeView false skipZeroValue 0 = .ok r ∧
      ConnectBlock mainParams stakeCodec passAllRules (stakeBlock 1680357192).dropHiddenTime
        [stakeEntry, stakePrev] stakeView false skipZeroValue 0 = .ok r' ∧
      (r.view.coins stakeRewardOutpoint).map Coin.nTime = some 1680357192 ∧
      (r'.view.coins stakeRewardOutpoint).map Coin.nTime = some 0 := by
  have hmem : ∀ s, (ConnectBlock mainParams stakeCodec passAllRules (stakeBlock 1680357192)
      [stakeEntry, stakePrev] stakeView false s 0).map
        (fun r => (r.view.coins stakeRewardOutpoint).map Coin.nTime) = .ok (some 1680357192) := by
    intro s
    cases s <;> decide +kernel
  have hread : ∀ s, (ConnectBlock mainParams stakeCodec passAllRules
      (stakeBlock 1680357192).dropHiddenTime [stakeEntry, stakePrev] stakeView false s 0).map
        (fun r => (r.view.coins stakeRewardOutpoint).map Coin.nTime) = .ok (some 0) := by
    intro s
    cases s <;> decide +kernel
  obtain ⟨r, hr, hr1⟩ := Except.map_eq_ok.1 (hmem skipZeroValue)
  obtain ⟨r', hr', hr2⟩ := Except.map_eq_ok.1 (hread skipZeroValue)
  exact ⟨SerializeBlock_dropHiddenTime _, r, r', hr, hr', hr1, hr2⟩

/-- **Replaying a block reaches another view than connecting it.** For either value of
`skipZeroValue`, `RollforwardBlock` of the stored block and `ConnectBlock` of it on the same view
disagree on the coinstake's empty first output: `ConnectBlock` skips it, or stores it with the
in-memory timestamp, where `RollforwardBlock` stores it with the timestamp read from disk. -/
theorem RollforwardBlock_differs_from_ConnectBlock (skipZeroValue : Bool) :
    ∃ r view', ConnectBlock mainParams stakeCodec passAllRules (stakeBlock 1680357192)
        [stakeEntry, stakePrev] stakeView false skipZeroValue 0 = .ok r ∧
      RollforwardBlock mainParams.consensus stakeCodec (stakeBlock 1680357192) stakeEntry stakeView =
        .ok (true, view') ∧
      r.view.coins stakeZeroOutpoint ≠ view'.coins stakeZeroOutpoint := by
  have hrun : ∀ s, (ConnectBlock mainParams stakeCodec passAllRules (stakeBlock 1680357192)
      [stakeEntry, stakePrev] stakeView false s 0).map (fun r =>
      (RollforwardBlock mainParams.consensus stakeCodec (stakeBlock 1680357192) stakeEntry stakeView).map
        fun p => (p.1, decide (r.view.coins stakeZeroOutpoint = p.2.coins stakeZeroOutpoint))) =
      .ok (.ok (true, false)) := by
    intro s
    cases s <;> decide +kernel
  obtain ⟨r, hr, hroll⟩ := Except.map_eq_ok.1 (hrun skipZeroValue)
  obtain ⟨⟨fOk, view'⟩, hroll, hobs⟩ := Except.map_eq_ok.1 hroll
  simp only [Prod.mk.injEq, decide_eq_false_iff_not] at hobs
  obtain ⟨rfl, hne⟩ := hobs
  exact ⟨r, view', hr, hroll, hne⟩

end NowpConsensus
