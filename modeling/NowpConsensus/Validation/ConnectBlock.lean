import NowpConsensus.Validation.CheckBlock
import NowpConsensus.Coins.CoinsView
import NowpConsensus.Primitives.Serialize

/-!
# Connecting a block

`CChainState::ConnectBlock` (`validation.cpp`) applies a block to a coins view: it checks the
block again, then, transaction by transaction, checks the inputs against the view
(`Consensus::CheckTxInputs`, `consensus/tx_verify.cpp`), keeps the block's accounts (the value
created and destroyed, the fees, the coinstake's reward) and applies the transaction to the
view (`UpdateCoins`), recording the coins it spends as undo data. It then checks the rewards and
writes the block's mint and the money supply into its index entry.

The checks that read scripts, signatures, the stake kernel or the transaction index are given
to the model as predicates (`ConnectRules`): script and signature verification
(`CheckInputScripts`, with the assumed-valid shortcut), signature-operation counting
(`GetTransactionSigOpCost`), the relative lock-times (`SequenceLocks`), the coin age of a
coinstake (`GetCoinAge`) and the stake checks `ConnectBlock` makes on an entry whose stake
modifier is not yet set (`NowpContextualBlockChecks`).

`ConnectBlock` passes `UpdateCoins` a `skipZeroValue` it declares and never sets. Reading it is
undefined behaviour in C++; the model takes its value as a parameter, so every result here holds
whatever value the compiled code reads.

* `ConnectBlock_moneySupply_le`: the money supply a connected block writes exceeds its
  predecessor's by at most the block subsidy.
-/

namespace NowpConsensus

/-- How a block connection stops without connecting the block: a failed assertion, a throw or a
read through a null pointer, or a consensus failure with its reject reason. -/
inductive ConnectError
  | abort (e : Abort)
  | invalid (reason : String)
  deriving DecidableEq, Repr

/-- A run that can only abort, in a block connection. -/
def ConnectError.lift {α : Type} (x : Except Abort α) : Except ConnectError α :=
  x.mapError .abort

@[simp]
theorem ConnectError.lift_ok {α : Type} {x : Except Abort α} {a : α} :
    ConnectError.lift x = .ok a ↔ x = .ok a := by
  cases x <;> simp [ConnectError.lift, Except.mapError]

/-- The checks of `ConnectBlock` the model takes as given. -/
structure ConnectRules where
  /-- `!(pindex->nStakeModifier == 0 && pindex->nStakeModifierChecksum == 0) ||
  NowpContextualBlockChecks(block, state, pindex, fJustCheck, chainstate)`. -/
  NowpContextualBlockChecks : CBlock → BlockPtr → Bool
  /-- `GetCoinAge(tx, view, nCoinAge, nTimeTx)` succeeds. -/
  GetCoinAge : CTransaction → CCoinsViewCache → UInt32 → Bool
  /-- `SequenceLocks(tx, nLockTimeFlags, prevheights, *pindex)`, with the flags as whether
  `LOCKTIME_VERIFY_SEQUENCE` is set. -/
  SequenceLocks : CTransaction → Bool → List Int → BlockPtr → Bool
  /-- `GetTransactionSigOpCost(tx, view, flags)`. -/
  GetTransactionSigOpCost : CTransaction → CCoinsViewCache → Nat
  /-- `fScriptChecks && !CheckInputScripts(tx, tx_state, view, flags, ...)` negated, with the
  reject reason of a failure. -/
  CheckInputScripts : CTransaction → CCoinsViewCache → Validity

/-! ## Fees and rewards -/

/-- `MIN_TX_FEE`. -/
def MIN_TX_FEE : CAmount := CENT / 10

/-- `PERKB_TX_FEE`. -/
def PERKB_TX_FEE : CAmount := CENT

/-- `GetMinFee(nBytes, nTime)`. -/
def GetMinFee (nBytes : Nat) (_nTime : UInt32) : CAmount :=
  let nMinFee : CAmount := if nBytes < 100 then MIN_TX_FEE else nBytes * (PERKB_TX_FEE / 1000)
  if !MoneyRange nMinFee then MAX_MONEY else nMinFee

/-- `GetMinFee(tx, nTimeTx)`: by the size of the transaction's network serialisation. -/
def GetMinFee.ofTx (tx : CTransaction) (nTimeTx : UInt32) : CAmount :=
  GetMinFee (SerializeTransaction tx true).length nTimeTx

/-- `GetBlockReward(height, params)`. The source shifts an `int64_t` right by `halvings`, which
is undefined for `64 ≤ halvings < 128`; the model shifts the integer, which gives `0` there
(as every shift by 28 or more does). -/
def GetBlockReward (height : Int) (params : Params) : CAmount :=
  if height = 1 then 12600000 * COIN
  else if height ≤ 1440 then 10 * COIN
  else
    let halvings := height.tdiv params.nSubsidyHalvingInterval
    if halvings ≥ 128 then 0 else (188 * COIN) >>> halvings.toNat

/-! ## `Consensus::CheckTxInputs` -/

/-- The value of the coins a transaction's inputs spend, as `view` shows them. -/
def valueIn (view : CCoinsViewCache) (tx : CTransaction) : CAmount :=
  (tx.vin.map fun txin => (view.AccessCoin txin.prevout).out.nValue).sum

/-- The loop of `CheckTxInputs` over the inputs, with the running `nValueIn`. -/
def CheckTxInputs.inputs (params : Params) (inputs : CCoinsViewCache) (nSpendHeight : Int)
    (nTimeTx : UInt32) (nValueIn : CAmount) : List CTxIn → Except ConnectError CAmount
  | [] => .ok nValueIn
  | txin :: rest =>
    let coin := inputs.AccessCoin txin.prevout
    if coin.isSpent then .error (.abort .assertion)
    else if (coin.fCoinBase || coin.fCoinStake) &&
        nSpendHeight - coin.nHeight < params.nCoinbaseMaturity then
      .error (.invalid "bad-txns-premature-spend-of-coinbase/coinstake")
    -- nowp: no transaction spends an output older than itself
    else if coin.nTime > nTimeTx then .error (.invalid "bad-txns-spent-too-early")
    else if !MoneyRange coin.out.nValue || !MoneyRange (nValueIn + coin.out.nValue) then
      .error (.invalid "bad-txns-inputvalues-outofrange")
    else CheckTxInputs.inputs params inputs nSpendHeight nTimeTx (nValueIn + coin.out.nValue) rest

/-- `Consensus::CheckTxInputs(tx, state, inputs, nSpendHeight, txfee, params, nTimeTx,
nMoneySupply)`: the fee, which for a coinstake is the reward it claims. (`nMoneySupply` is not
read.) -/
def CheckTxInputs (rules : ConnectRules) (tx : CTransaction) (inputs : CCoinsViewCache)
    (nSpendHeight : Int) (params : Params) (nTimeTx : UInt32) : Except ConnectError CAmount :=
  if !inputs.HaveInputs tx then .error (.invalid "bad-txns-inputs-missingorspent")
  else CheckTxInputs.inputs params inputs nSpendHeight nTimeTx 0 tx.vin >>= fun nValueIn =>
    if tx.isCoinStake then
      -- nowp: the coinstake earns its reward instead of paying a fee
      if !rules.GetCoinAge tx inputs nTimeTx then
        .error (.invalid "unable to get coin age for coinstake")
      else ConnectError.lift tx.getValueOut >>= fun value_out => .ok (value_out - nValueIn)
    else ConnectError.lift tx.getValueOut >>= fun value_out =>
      if nValueIn < value_out then .error (.invalid "bad-txns-in-belowout")
      else if !MoneyRange (nValueIn - value_out) then .error (.invalid "bad-txns-fee-outofrange")
      -- nowp: every transaction pays a fee
      else if nValueIn - value_out < GetMinFee.ofTx tx nTimeTx then
        .error (.invalid "bad-txns-fee-not-enough")
      else .ok (nValueIn - value_out)

/-! ## `UpdateCoins` -/

/-- `CTxUndo`: the coins a transaction spent. -/
structure CTxUndo where
  vprevout : List Coin
  deriving DecidableEq, Repr

/-- `CBlockUndo`: the undo data of the transactions after the coinbase. -/
structure CBlockUndo where
  vtxundo : List CTxUndo
  deriving DecidableEq, Repr

/-- The loop of `UpdateCoins` over the inputs: spend each coin, moving it to the undo data. -/
def UpdateCoins.spend (inputs : CCoinsViewCache) (txundo : CTxUndo) :
    List CTxIn → Except Abort (CCoinsViewCache × CTxUndo)
  | [] => .ok (inputs, txundo)
  | txin :: rest =>
    match inputs.SpendCoin txin.prevout with
    | (none, _) => .error .assertion
    | (some coin, inputs) => UpdateCoins.spend inputs ⟨txundo.vprevout ++ [coin]⟩ rest

/-- `UpdateCoins(tx, inputs, txundo, nHeight, skipZeroValue)`. -/
def UpdateCoins (GetHash : CTransaction → uint256) (tx : CTransaction) (inputs : CCoinsViewCache)
    (txundo : CTxUndo) (nHeight : Int) (skipZeroValue : Bool) :
    Except Abort (CCoinsViewCache × CTxUndo) :=
  (if !tx.isCoinBase then UpdateCoins.spend inputs txundo tx.vin else .ok (inputs, txundo)) >>=
    fun (inputs, txundo) =>
      (AddCoins GetHash inputs tx nHeight false skipZeroValue).map fun inputs => (inputs, txundo)

/-! ## `ConnectBlock` -/

/-- The accounts `ConnectBlock` keeps over the transactions, and the view and undo data. -/
structure ConnectState where
  view : CCoinsViewCache
  vtxundo : List CTxUndo
  nFees : CAmount
  nValueIn : CAmount
  nValueOut : CAmount
  nSigOpsCost : Nat
  nStakeReward : CAmount

/-- The state before the first transaction. -/
def ConnectState.init (view : CCoinsViewCache) : ConnectState := ⟨view, [], 0, 0, 0, 0, 0⟩

/-- What `ConnectBlock` returns: the view, the undo data it writes, and the pair
`(pindex->nMint, pindex->nMoneySupply)` it writes, if it writes them. -/
structure ConnectResult where
  view : CCoinsViewCache
  blockundo : CBlockUndo
  supply : Option (CAmount × CAmount)

/-- `BIP34_IMPLIES_BIP30_LIMIT`. -/
def BIP34_IMPLIES_BIP30_LIMIT : Int := 1983702

section Connect

variable (cp : CChainParams) (codec : BlockCodec) (rules : ConnectRules) (block : CBlock)
  (pindex : BlockPtr) (nLockTimeFlags skipZeroValue : Bool)

/-- The accounts of one transaction in the loop of `ConnectBlock`: for a transaction that is not
a coinbase, its inputs are checked, and its fee (or, for the coinstake, its reward) recorded. -/
def ConnectBlock.txValues (tx : CTransaction) (s : ConnectState) :
    Except ConnectError ConnectState :=
  let nHeight := (pindex.head?.map CBlockIndex.nHeight).getD 0
  if tx.isCoinBase then
    ConnectError.lift tx.getValueOut >>= fun v => .ok { s with nValueOut := s.nValueOut + v }
  else
    let nTimeTx := if tx.nTime != 0 then tx.nTime else block.header.nTime
    CheckTxInputs rules tx s.view nHeight cp.consensus nTimeTx >>= fun txfee =>
    ConnectError.lift tx.getValueOut >>= fun v =>
    let nFees := if tx.isCoinStake then s.nFees else s.nFees + txfee
    let nStakeReward := if tx.isCoinStake then txfee else s.nStakeReward
    let prevheights := tx.vin.map fun txin => (s.view.AccessCoin txin.prevout).nHeight
    if !MoneyRange nFees then .error (.invalid "bad-txns-accumulated-fee-outofrange")
    else if !rules.SequenceLocks tx nLockTimeFlags prevheights pindex then
      .error (.invalid "bad-txns-nonfinal")
    else .ok { s with
      nValueIn := s.nValueIn + valueIn s.view tx
      nValueOut := s.nValueOut + v
      nFees := nFees
      nStakeReward := nStakeReward }

/-- The rest of one transaction in the loop of `ConnectBlock`: the signature operations and the
scripts are checked, and the transaction applied to the view, its undo data kept after the
coinbase (position `i`). -/
def ConnectBlock.txApply (i : Nat) (tx : CTransaction) (s : ConnectState) :
    Except ConnectError ConnectState :=
  let nHeight := (pindex.head?.map CBlockIndex.nHeight).getD 0
  let nSigOpsCost := s.nSigOpsCost + rules.GetTransactionSigOpCost tx s.view
  if nSigOpsCost > MAX_BLOCK_SIGOPS_COST then .error (.invalid "bad-blk-sigops")
  else
    let scripts : Validity := if tx.isCoinBase then .valid else rules.CheckInputScripts tx s.view
    match scripts with
    | .invalid reason => .error (.invalid reason)
    | .valid =>
      -- `skipZeroValue` is the declared, never-set variable
      ConnectError.lift (UpdateCoins codec.txHash tx s.view ⟨[]⟩ nHeight skipZeroValue) >>=
        fun (view, txundo) =>
          .ok { s with
            view := view
            nSigOpsCost := nSigOpsCost
            vtxundo := if i = 0 then s.vtxundo else s.vtxundo ++ [txundo] }

/-- The loop of `ConnectBlock` over the transactions from position `i`. -/
def ConnectBlock.loop : Nat → List CTransaction → ConnectState → Except ConnectError ConnectState
  | _, [], s => .ok s
  | i, tx :: rest, s =>
    ConnectBlock.txValues cp rules block pindex nLockTimeFlags tx s >>=
      ConnectBlock.txApply codec rules pindex skipZeroValue i tx >>=
      ConnectBlock.loop (i + 1) rest

end Connect

/-- The reject reasons of `CheckBlock` that mark a block as mutated, on which `ConnectBlock`
calls `AbortNode`. -/
def isMutated (reason : String) : Bool :=
  reason == "bad-txnmrklroot" || reason == "bad-txns-duplicate"

/-- `CChainState::ConnectBlock(block, state, pindex, view, fJustCheck)`, with `nMoneySupplyPrev`
the predecessor's money supply (`pindex->pprev ? pindex->pprev->nMoneySupply : 0`) and
`skipZeroValue` the value the uninitialised variable is read as. -/
def ConnectBlock (cp : CChainParams) (codec : BlockCodec) (rules : ConnectRules) (block : CBlock)
    (pindex : BlockPtr) (view : CCoinsViewCache) (fJustCheck skipZeroValue : Bool)
    (nMoneySupplyPrev : CAmount) : Except ConnectError ConnectResult :=
  match pindex with
  | [] => .error (.abort .assertion)
  | entry :: pprev =>
    let block_hash := codec.GetHash block.header
    if entry.hashBlock != block_hash then .error (.abort .assertion)
    else if !rules.NowpContextualBlockChecks block pindex then
      .error (.invalid "failed PoS check")
    else match CheckBlock cp codec block (!fJustCheck) (!fJustCheck) true with
    | .invalid reason =>
      .error (.invalid (if isMutated reason then
        "Corrupt block found indicating potential hardware failure; shutting down" else reason))
    | .valid =>
      let hashPrevBlock := (pprev.head?.map CBlockIndex.hashBlock).getD 0
      if hashPrevBlock != view.hashBlock then .error (.abort .assertion)
      else if block_hash == cp.consensus.hashGenesisBlock then
        .ok ⟨if fJustCheck then view else view.SetBestBlock entry.hashBlock, ⟨[]⟩, none⟩
      else match pprev with
      | [] => .error (.abort .assertion)
      | prev :: _ =>
        if BIP34_IMPLIES_BIP30_LIMIT ≤ entry.nHeight && block.vtx.any (fun tx =>
            (List.range tx.vout.length).any fun o =>
              view.HaveCoin ⟨codec.txHash tx, UInt32.ofNat o⟩) then
          .error (.invalid "bad-txns-BIP30")
        else
          let nLockTimeFlags := IsBTC16BIPsEnabled cp prev.nTime
          ConnectBlock.loop cp codec rules block pindex nLockTimeFlags skipZeroValue 0 block.vtx
              (ConnectState.init view) >>= fun s =>
          let blockReward := s.nFees + GetBlockReward entry.nHeight cp.consensus
          if block.isProofOfStake && s.nStakeReward > blockReward then
            .error (.invalid "bad-cs-amount")
          else match block.vtx with
          | [] => .error (.abort .nullDeref)
          | coinbase :: _ =>
            ConnectError.lift coinbase.getValueOut >>= fun coinbaseOut =>
            if coinbaseOut > (if block.isProofOfWork then blockReward else 0) then
              .error (.invalid "bad-cb-amount")
            else if fJustCheck then .ok ⟨s.view, ⟨s.vtxundo⟩, none⟩
            else
              -- nowp: fees are destroyed, not collected
              let nMint := s.nValueOut - s.nValueIn + s.nFees
              let nMoneySupply := nMoneySupplyPrev + s.nValueOut - s.nValueIn
              .ok ⟨s.view.SetBestBlock entry.hashBlock, ⟨s.vtxundo⟩, some (nMint, nMoneySupply)⟩

/-! ## The block's accounts -/

/-- What the transactions so far created beyond what they destroyed, plus the fees, less the
coinstake's reward: over a valid block, what its coinbase paid. -/
def ConnectState.balance (s : ConnectState) : CAmount :=
  s.nValueOut - s.nValueIn + s.nFees - s.nStakeReward

theorem CheckTxInputs.inputs_eq_ok {params : Params} {inputs : CCoinsViewCache}
    {nSpendHeight : Int} {nTimeTx : UInt32} {v0 v : CAmount} {l : List CTxIn}
    (h : CheckTxInputs.inputs params inputs nSpendHeight nTimeTx v0 l = .ok v) :
    v = v0 + (l.map fun txin => (inputs.AccessCoin txin.prevout).out.nValue).sum := by
  induction l generalizing v0 with
  | nil => simpa [CheckTxInputs.inputs] using h.symm
  | cons txin rest ih =>
    simp only [CheckTxInputs.inputs] at h
    split_ifs at h
    rw [ih h, List.map_cons, List.sum_cons]
    ring

/-- **What `CheckTxInputs` returns**: a coinstake's reward is what it pays out beyond what it
spends, any other transaction's fee what it spends beyond what it pays out. -/
theorem CheckTxInputs_eq_ok {rules : ConnectRules} {tx : CTransaction} {inputs : CCoinsViewCache}
    {nSpendHeight : Int} {params : Params} {nTimeTx : UInt32} {txfee : CAmount}
    (h : CheckTxInputs rules tx inputs nSpendHeight params nTimeTx = .ok txfee) :
    txfee = if tx.isCoinStake then tx.valueOut - valueIn inputs tx
      else valueIn inputs tx - tx.valueOut := by
  unfold CheckTxInputs at h
  split at h
  · cases h
  obtain ⟨nValueIn, hin, h⟩ := Except.bind_eq_ok.1 h
  have hv : nValueIn = valueIn inputs tx := by
    simpa [valueIn] using CheckTxInputs.inputs_eq_ok hin
  split at h
  · rename_i hcs
    split at h
    · cases h
    obtain ⟨value_out, hout, h⟩ := Except.bind_eq_ok.1 h
    rw [ConnectError.lift_ok] at hout
    cases h
    rw [if_pos hcs, CTransaction.getValueOut_eq_ok hout, hv]
  · rename_i hcs
    obtain ⟨value_out, hout, h⟩ := Except.bind_eq_ok.1 h
    rw [ConnectError.lift_ok] at hout
    split_ifs at h
    cases h
    rw [if_neg hcs, CTransaction.getValueOut_eq_ok hout, hv]

section Accounts

variable {cp : CChainParams} {codec : BlockCodec} {rules : ConnectRules} {block : CBlock}
  {pindex : BlockPtr} {nLockTimeFlags skipZeroValue : Bool} {tx : CTransaction}
  {s s' : ConnectState} {i : Nat}

/-- **The accounts of a coinbase**: its outputs count as created. -/
theorem ConnectBlock.txValues_coinbase (hcb : tx.isCoinBase = true)
    (h : ConnectBlock.txValues cp rules block pindex nLockTimeFlags tx s = .ok s') :
    s'.balance = s.balance + tx.valueOut ∧ s'.nStakeReward = s.nStakeReward := by
  unfold ConnectBlock.txValues at h
  rw [if_pos hcb] at h
  obtain ⟨v, hv, h⟩ := Except.bind_eq_ok.1 h
  rw [ConnectError.lift_ok] at hv
  cases h
  refine ⟨?_, rfl⟩
  simp only [ConnectState.balance, CTransaction.getValueOut_eq_ok hv]
  ring

/-- The accounts of a transaction that is not a coinbase, by its fee as `CheckTxInputs`
returns it. -/
theorem ConnectBlock.txValues_eq_ok (hcb : tx.isCoinBase = false)
    (h : ConnectBlock.txValues cp rules block pindex nLockTimeFlags tx s = .ok s') :
    ∃ txfee nSpendHeight nTimeTx,
      CheckTxInputs rules tx s.view nSpendHeight cp.consensus nTimeTx = .ok txfee ∧
      s'.nValueIn = s.nValueIn + valueIn s.view tx ∧ s'.nValueOut = s.nValueOut + tx.valueOut ∧
      s'.nFees = (if tx.isCoinStake then s.nFees else s.nFees + txfee) ∧
      s'.nStakeReward = (if tx.isCoinStake then txfee else s.nStakeReward) := by
  unfold ConnectBlock.txValues at h
  rw [if_neg (by simp [hcb])] at h
  obtain ⟨txfee, hfee, h⟩ := Except.bind_eq_ok.1 h
  obtain ⟨v, hv, h⟩ := Except.bind_eq_ok.1 h
  rw [ConnectError.lift_ok] at hv
  dsimp only at h
  simp only [Except.ite_error_eq_ok] at h
  obtain ⟨-, -, h⟩ := h
  cases h
  exact ⟨txfee, _, _, hfee, rfl, by rw [CTransaction.getValueOut_eq_ok hv], rfl, rfl⟩

/-- **The accounts of a transfer**: a transaction that is neither coinbase nor coinstake pays
as fee what it destroys, which keeps the balance. -/
theorem ConnectBlock.txValues_transfer (hcb : tx.isCoinBase = false)
    (hcs : tx.isCoinStake = false)
    (h : ConnectBlock.txValues cp rules block pindex nLockTimeFlags tx s = .ok s') :
    s'.balance = s.balance ∧ s'.nStakeReward = s.nStakeReward := by
  obtain ⟨txfee, _, _, hfee, hin, hout, hfees, hstake⟩ := ConnectBlock.txValues_eq_ok hcb h
  rw [hcs, if_neg (by simp)] at hfees hstake
  have hfee' := CheckTxInputs_eq_ok hfee
  rw [hcs, if_neg (by simp)] at hfee'
  refine ⟨?_, hstake⟩
  simp only [ConnectState.balance, hin, hout, hfees, hstake, hfee']
  ring

/-- **The accounts of the coinstake**: its reward is what it creates beyond what it spends. -/
theorem ConnectBlock.txValues_coinstake (hcs : tx.isCoinStake = true)
    (h : ConnectBlock.txValues cp rules block pindex nLockTimeFlags tx s = .ok s') :
    s'.balance = s.balance + s.nStakeReward ∧
      s'.nStakeReward = tx.valueOut - valueIn s.view tx := by
  have hcb : tx.isCoinBase = false := by
    cases hb : tx.isCoinBase
    · rfl
    · rw [CTransaction.not_isCoinStake_of_isCoinBase hb] at hcs
      cases hcs
  obtain ⟨txfee, _, _, hfee, hin, hout, hfees, hstake⟩ := ConnectBlock.txValues_eq_ok hcb h
  rw [if_pos hcs] at hfees hstake
  have hfee' := CheckTxInputs_eq_ok hfee
  rw [if_pos hcs] at hfee'
  rw [hstake, hfee']
  refine ⟨?_, rfl⟩
  simp only [ConnectState.balance, hin, hout, hfees, hstake, hfee']
  ring

/-- The rest of a transaction's step leaves the accounts as they are. -/
theorem ConnectBlock.txApply_accounts
    (h : ConnectBlock.txApply codec rules pindex skipZeroValue i tx s = .ok s') :
    s'.balance = s.balance ∧ s'.nStakeReward = s.nStakeReward := by
  unfold ConnectBlock.txApply at h
  dsimp only at h
  simp only [Except.ite_error_eq_ok] at h
  obtain ⟨-, h⟩ := h
  split at h
  · cases h
  obtain ⟨⟨view, txundo⟩, -, h⟩ := Except.bind_eq_ok.1 h
  cases h
  exact ⟨rfl, rfl⟩

theorem ConnectBlock.loop_cons_eq_ok {rest : List CTransaction}
    (h : ConnectBlock.loop cp codec rules block pindex nLockTimeFlags skipZeroValue i (tx :: rest) s
      = .ok s') :
    ∃ s₁ s₂, ConnectBlock.txValues cp rules block pindex nLockTimeFlags tx s = .ok s₁ ∧
      ConnectBlock.txApply codec rules pindex skipZeroValue i tx s₁ = .ok s₂ ∧
      ConnectBlock.loop cp codec rules block pindex nLockTimeFlags skipZeroValue (i + 1) rest s₂
        = .ok s' := by
  rw [ConnectBlock.loop] at h
  obtain ⟨s₂, h₁₂, h⟩ := Except.bind_eq_ok.1 h
  obtain ⟨s₁, h₁, h₂⟩ := Except.bind_eq_ok.1 h₁₂
  exact ⟨s₁, s₂, h₁, h₂, h⟩

/-- **Transfers keep the accounts**: over transactions that are neither coinbases nor
coinstakes, the loop keeps the balance and the coinstake's reward. -/
theorem ConnectBlock.loop_transfers {l : List CTransaction}
    (hl : ∀ tx ∈ l, tx.isCoinBase = false ∧ tx.isCoinStake = false)
    (h : ConnectBlock.loop cp codec rules block pindex nLockTimeFlags skipZeroValue i l s = .ok s') :
    s'.balance = s.balance ∧ s'.nStakeReward = s.nStakeReward := by
  -- induction on the transactions left, from any state
  induction l generalizing i s with
  | nil =>
    rw [ConnectBlock.loop] at h
    cases h
    exact ⟨rfl, rfl⟩
  | cons tx rest ih =>
    obtain ⟨s₁, s₂, h₁, h₂, h⟩ := ConnectBlock.loop_cons_eq_ok h
    obtain ⟨hcb, hcs⟩ := hl tx (List.mem_cons_self ..)
    have step₁ := ConnectBlock.txValues_transfer hcb hcs h₁
    have step₂ := ConnectBlock.txApply_accounts h₂
    have run := ih (fun tx htx => hl tx (List.mem_cons_of_mem _ htx)) h
    exact ⟨by rw [run.1, step₂.1, step₁.1], by rw [run.2, step₂.2, step₁.2]⟩

/-- **The accounts of a checked block**: over a block of the shape `CheckBlock` checks, the loop
ends with the coinbase's outputs as the balance, and with no coinstake reward when the block is
proof of work. -/
theorem ConnectBlock.loop_checked {codec' : BlockCodec} {view : CCoinsViewCache}
    {coinbase : CTransaction} {rest : List CTransaction} (hvtx : block.vtx = coinbase :: rest)
    (hshape : CheckBlock.Shape codec' block)
    (h : ConnectBlock.loop cp codec rules block pindex nLockTimeFlags skipZeroValue 0 block.vtx
      (ConnectState.init view) = .ok s') :
    s'.balance = coinbase.valueOut ∧ (block.isProofOfStake = false → s'.nStakeReward = 0) := by
  obtain ⟨cb, rest', hvtx', hcb, hnocb, hnocs⟩ := hshape.coinbase_first
  rw [hvtx] at hvtx'
  obtain ⟨rfl, rfl⟩ := List.cons_eq_cons.1 hvtx'
  rw [hvtx] at h
  obtain ⟨s₁, s₂, h₁, h₂, h⟩ := ConnectBlock.loop_cons_eq_ok h
  have hs₂ : s₂.balance = coinbase.valueOut ∧ s₂.nStakeReward = 0 := by
    have step₁ := ConnectBlock.txValues_coinbase hcb h₁
    have step₂ := ConnectBlock.txApply_accounts h₂
    rw [step₂.1, step₂.2, step₁.1, step₁.2]
    simp [ConnectState.balance, ConnectState.init]
  cases rest with
  | nil =>
    rw [ConnectBlock.loop] at h
    cases h
    exact ⟨hs₂.1, fun _ => hs₂.2⟩
  | cons tx rest =>
    obtain ⟨s₃, s₄, h₃, h₄, h⟩ := ConnectBlock.loop_cons_eq_ok h
    have htx : tx.isCoinBase = false := hnocb tx (List.mem_cons_self ..)
    have hl : ∀ t ∈ rest, t.isCoinBase = false ∧ t.isCoinStake = false :=
      fun t ht => ⟨hnocb t (List.mem_cons_of_mem _ ht), hnocs t (by simpa using ht)⟩
    have run := ConnectBlock.loop_transfers hl h
    have step₄ := ConnectBlock.txApply_accounts h₄
    have hpos : block.isProofOfStake = tx.isCoinStake := by
      simp [CBlock.isProofOfStake, hvtx]
    cases hcs : tx.isCoinStake with
    | true =>
      have step₃ := ConnectBlock.txValues_coinstake hcs h₃
      refine ⟨?_, fun hw => by rw [hpos, hcs] at hw; cases hw⟩
      rw [run.1, step₄.1, step₃.1, hs₂.1, hs₂.2, add_zero]
    | false =>
      have step₃ := ConnectBlock.txValues_transfer htx hcs h₃
      exact ⟨by rw [run.1, step₄.1, step₃.1, hs₂.1],
        fun _ => by rw [run.2, step₄.2, step₃.2, hs₂.2]⟩

end Accounts

/-- **A connected block mints at most the subsidy**: when `ConnectBlock` connects a block (not
only checking it) and writes the money supply, the supply exceeds the predecessor's by at most
`GetBlockReward` at the block's height, whatever `skipZeroValue` is read as. -/
theorem ConnectBlock_moneySupply_le {cp : CChainParams} {codec : BlockCodec}
    {rules : ConnectRules} {block : CBlock} {entry : CBlockIndex} {pprev : BlockPtr}
    {view : CCoinsViewCache} {skipZeroValue : Bool} {nMoneySupplyPrev nMint nMoneySupply : CAmount}
    {r : ConnectResult}
    (h : ConnectBlock cp codec rules block (entry :: pprev) view false skipZeroValue
      nMoneySupplyPrev = .ok r)
    (hs : r.supply = some (nMint, nMoneySupply)) :
    nMoneySupply - nMoneySupplyPrev ≤ GetBlockReward entry.nHeight cp.consensus := by
  unfold ConnectBlock at h
  dsimp only at h
  simp only [Except.ite_error_eq_ok] at h
  obtain ⟨-, -, h⟩ := h
  split at h
  · cases h
  rename_i hcheck
  have hshape := CheckBlock.shape_of_valid hcheck
  simp only [Except.ite_error_eq_ok] at h
  obtain ⟨-, h⟩ := h
  split at h
  · cases h
    cases hs
  split at h
  · cases h
  simp only [Except.ite_error_eq_ok] at h
  obtain ⟨-, h⟩ := h
  obtain ⟨s, hloop, h⟩ := Except.bind_eq_ok.1 h
  simp only [Except.ite_error_eq_ok] at h
  obtain ⟨hstake, h⟩ := h
  split at h
  · cases h
  rename_i coinbase rest hvtx
  obtain ⟨coinbaseOut, hout, h⟩ := Except.bind_eq_ok.1 h
  rw [ConnectError.lift_ok] at hout
  simp only [Except.ite_error_eq_ok, Bool.false_eq_true, if_false] at h
  obtain ⟨hcoinbase, h⟩ := h
  cases h
  simp only [Option.some.injEq, Prod.mk.injEq] at hs
  obtain ⟨-, rfl⟩ := hs
  obtain ⟨hbal, hpow⟩ := ConnectBlock.loop_checked hvtx hshape hloop
  rw [CTransaction.getValueOut_eq_ok hout] at hcoinbase
  simp only [ConnectState.balance] at hbal
  cases hpos : block.isProofOfStake with
  | true =>
    simp only [hpos, CBlock.isProofOfWork, Bool.not_true, Bool.false_eq_true, if_false,
      Bool.true_and, decide_eq_true_eq, not_lt] at hstake hcoinbase
    linarith
  | false =>
    have h0 := hpow hpos
    simp only [hpos, CBlock.isProofOfWork, Bool.not_false, if_true, not_lt] at hcoinbase
    linarith

/-! ## A proof-of-stake block on the main network

A block at height 2000 whose coinstake spends an ordinary coin of 1000 coins and claims a reward
of 10, with the transaction hash and the merkle root computed from the serialisation by a
stand-in hash function, and checks that pass. The coinstake is version 3 and carries its
timestamp `nTime` in memory only. -/

/-- A stand-in for the double SHA-256 of a serialisation. -/
def toyHash (bytes : List UInt8) : uint256 :=
  BitVec.ofNat 256 (bytes.foldl (fun acc b => acc * 257 + b.toNat + 1) 0)

/-- The merkle root the stand-in codec computes: the hash of the transactions' serialisations. -/
def stakeMerkleRoot (vtx : List CTransaction) : uint256 :=
  toyHash (vtx.flatMap fun tx => SerializeTransaction tx false)

/-- Hashes and sizes from the serialisation, with `toyHash` for the hash. -/
def stakeCodec : BlockCodec where
  GetHash h := toyHash (h.serialize false)
  GetPOWHash _ _ := 0
  txHash tx := toyHash (SerializeTransaction tx false)
  BlockMerkleRoot b := (stakeMerkleRoot b.vtx, false)
  txSizeNoWitness tx := (SerializeTransaction tx false).length
  blockSizeNoWitness b := (SerializeBlock b false false).length
  GetLegacySigOpCount _ := 0
  CheckBlockSignature _ := true
  CheckSignetBlockSolution _ := true

/-- Script, lock-time and stake checks that pass every transaction. -/
def passAllRules : ConnectRules where
  NowpContextualBlockChecks _ _ := true
  GetCoinAge _ _ _ := true
  SequenceLocks _ _ _ _ := true
  GetTransactionSigOpCost _ _ := 0
  CheckInputScripts _ _ := .valid

/-- The predecessor's index entry, at height 1999. -/
def stakePrev : CBlockIndex := ⟨0xabcdef, 1999, 1680357072, 0x1d00ffff, BLOCK_PROOF_OF_STAKE⟩

/-- The coin the coinstake spends. -/
def stakeOutpoint : COutPoint := ⟨0x5eed, 0⟩

def stakeCoin : Coin := ⟨⟨1000 * COIN, [0x51]⟩, false, 100, false, 1680000000⟩

/-- The view at the predecessor: the staked coin alone. -/
def stakeView : CCoinsViewCache where
  coins o := if o = stakeOutpoint then some stakeCoin else none
  hashBlock := stakePrev.hashBlock
  unspent o c h := by
    split at h
    · cases h
      rfl
    · cases h

/-- The coinbase of a proof-of-stake block: one empty output. -/
def stakeCoinbase : CTransaction where
  vin := [⟨⟨0, COutPoint.NULL_INDEX⟩, [0x02, 0xd0, 0x07], 0xffffffff, []⟩]
  vout := [⟨0, []⟩]
  nVersion := 3
  nTime := 0
  nLockTime := 0

/-- The coinstake, with its in-memory timestamp `nTime`: an empty first output, then the staked
1000 coins and the 10 of reward. -/
def stakeCoinstake (nTime : UInt32) : CTransaction where
  vin := [⟨stakeOutpoint, [], 0xffffffff, []⟩]
  vout := [⟨0, []⟩, ⟨1010 * COIN, [0x51]⟩]
  nVersion := 3
  nTime := nTime
  nLockTime := 0

/-- The block's transactions. -/
def stakeTxs (nTime : UInt32) : List CTransaction := [stakeCoinbase, stakeCoinstake nTime]

/-- The block, two minutes after its predecessor. -/
def stakeBlock (nTime : UInt32) : CBlock where
  header :=
    { nVersion := 4
      hashPrevBlock := stakePrev.hashBlock
      hashMerkleRoot := stakeMerkleRoot (stakeTxs nTime)
      nTime := 1680357192
      nBits := 0x1d00ffff
      nNonce := 0
      nFlags := BLOCK_PROOF_OF_STAKE }
  vtx := stakeTxs nTime
  vchBlockSig := []

/-- The block's index entry, as the node built it (with the coinstake's timestamp set). -/
def stakeEntry : CBlockIndex :=
  ⟨stakeCodec.GetHash (stakeBlock 1680357192).header, 2000, 1680357192, 0x1d00ffff,
    BLOCK_PROOF_OF_STAKE⟩

/-- The block connects, and adds its 10 coins of reward to the supply. -/
theorem ConnectBlock_moneySupply_le_stakeBlock :
    ∃ r nMint nMoneySupply, ConnectBlock mainParams stakeCodec passAllRules
        (stakeBlock 1680357192) [stakeEntry, stakePrev] stakeView false false 0 = .ok r ∧
      r.supply = some (nMint, nMoneySupply) ∧
      nMoneySupply - 0 ≤ GetBlockReward stakeEntry.nHeight mainParams.consensus := by
  have hrun : (ConnectBlock mainParams stakeCodec passAllRules (stakeBlock 1680357192)
      [stakeEntry, stakePrev] stakeView false false 0).map ConnectResult.supply =
      .ok (some (10 * COIN, 10 * COIN)) := by
    decide +kernel
  obtain ⟨r, hr, hs⟩ := Except.map_eq_ok.1 hrun
  exact ⟨r, _, _, hr, hs, ConnectBlock_moneySupply_le hr hs⟩

end NowpConsensus
