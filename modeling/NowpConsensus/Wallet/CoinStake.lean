import NowpConsensus.Kernel.ProofOfStake
import NowpConsensus.Validation.ConnectBlock

/-!
# The wallet's coinstake

`CWallet::CreateCoinStake` (`wallet/wallet.cpp`) on its path without presigned coinstakes: it
searches the selected coins for a kernel (a coin whose stake kernel meets the target at the
coinstake's time, or up to a minute before), takes it as the coinstake's first input, adds more
coins of the same key, checks the coin age, and pays the stake and a reward to one output, or to
two for a split stake. `BlockAssembler::CreateNewBlock` (`node/miner.cpp`) calls it for the block
on the active tip, and `ConnectBlock` bounds the reward the coinstake claims by the fees and
`GetBlockReward` at the block's height.

The wallet reads the reward at the active chain's height, one below the block's. What
`CreateCoinStake` reads of the wallet and leaves to other code is `StakeWallet`: the script the
stake is paid to, whether stakes are split, and the signatures.

* `CreateCoinStake_claims_reward`: a coinstake `CreateCoinStake` returns spends coins of the
  selection and claims exactly the fees and `GetBlockReward` at the active height.

`Node.Miner` puts the coinstake into the block `CreateNewBlock` builds on the tip, one height
above, and compares the claim with what `ConnectBlock` allows there.
-/

namespace NowpConsensus

/-- `COutput`: a coin of the wallet, its outpoint and the output it holds. -/
structure COutput where
  outpoint : COutPoint
  txout : CTxOut
  deriving DecidableEq, Repr

/-- What `CreateCoinStake` reads of the wallet that the model leaves open. -/
structure StakeWallet where
  /-- `Solver` on the kernel's script and, for a key hash, `GetKey`: the script the stake is paid
  to, or `none` where the type is not supported or the key is missing. -/
  scriptPubKeyOut : CScript → Option CScript
  /-- `m_split_coins`. -/
  m_split_coins : Bool
  /-- `SignSignature(keystore, txFrom, txNew, nIn, SIGHASH_ALL)`: the script and witness of input
  `nIn`, or `none` where it fails. -/
  SignSignature : CTransaction → Nat → Option (CScript × List (List UInt8))

/-- `nMaxStakeSearchInterval`. -/
def nMaxStakeSearchInterval : Nat := 60

/-- `nStakeSplitAge`. -/
def nStakeSplitAge : Int := 60 * 60 * 24 * 90

/-- `CTxIn(hash, n)`: an input with an empty script and the final sequence number. -/
def CTxIn.ofOutPoint (prevout : COutPoint) : CTxIn := ⟨prevout, [], 0xffffffff, []⟩

namespace CreateCoinStake

/-- The search back in time for a kernel of a coin: the first shift `n` of the list at which
`CheckStakeKernelHash` passes at `nTime - n`. -/
def search (params : Params) (rules : KernelRules) (nBits : UInt32) (header : CBlockHeader)
    (nTxPrevOffset : UInt32) (txPrev : CTransaction) (prevout : COutPoint) (nTime : UInt32) :
    List Nat → Except Abort (Option Nat)
  | [] => .ok none
  | n :: rest =>
    CheckStakeKernelHash params rules nBits header nTxPrevOffset txPrev prevout
        (nTime - UInt32.ofNat n) >>= fun
      | some _ => .ok (some n)
      | none => search params rules nBits header nTxPrevOffset txPrev prevout nTime rest

/-- What the kernel loop leaves when it finds a kernel: the coinstake with the kernel as its input
and the stake's outputs, the credit, and the kernel's script. -/
structure Kernel where
  txNew : CTransaction
  nCredit : CAmount
  scriptPubKeyKernel : CScript

/-- The loop over the selected coins that looks for a kernel; `none` where it finds none, or where
a read throws and `CreateCoinStake` returns `false`. -/
def kernel (params : Params) (rules : KernelRules) (wallet : StakeWallet) (files : BlockFiles)
    (nBits : UInt32) (nSearchInterval : Int) :
    List COutput → CTransaction → TxIndex → Except Abort (Option Kernel × TxIndex)
  | [], _, index => .ok (none, index)
  | pcoin :: rest, txNew, index =>
    match index.FindTxPosition pcoin.outpoint.hash with
    | none => kernel params rules wallet files nBits nSearchInterval rest txNew index
    | some postx =>
      -- nowp: the cached header and transaction, else the ones read, which are then cached
      match index.readCached files pcoin.outpoint.hash postx with
      | none => .ok (none, index)
      | some ((header, tx), index) =>
        if header.getBlockTime + params.nStakeMinAge >
            (txNew.nTime - UInt32.ofNat nMaxStakeSearchInterval).toNat then
          kernel params rules wallet files nBits nSearchInterval rest txNew index
        else
          search params rules nBits header
              (UInt32.ofNat (postx.nTxOffset + CBlockHeader.NORMAL_SERIALIZE_SIZE)) tx
              pcoin.outpoint txNew.nTime
              (List.range (min nSearchInterval nMaxStakeSearchInterval).toNat) >>= fun
            | none => kernel params rules wallet files nBits nSearchInterval rest txNew index
            | some n =>
              match wallet.scriptPubKeyOut pcoin.txout.scriptPubKey with
              | none => kernel params rules wallet files nBits nSearchInterval rest txNew index
              | some scriptPubKeyOut =>
                let nTime := txNew.nTime - UInt32.ofNat n
                let split := decide (header.getBlockTime + nStakeSplitAge > nTime.toNat) &&
                  wallet.m_split_coins
                .ok (some
                  { txNew :=
                      { txNew with
                        nTime := nTime
                        vin := txNew.vin ++ [CTxIn.ofOutPoint pcoin.outpoint]
                        vout := txNew.vout ++ ⟨0, scriptPubKeyOut⟩ ::
                          (if split then [⟨0, scriptPubKeyOut⟩] else []) }
                    nCredit := pcoin.txout.nValue
                    scriptPubKeyKernel := pcoin.txout.scriptPubKey }, index)

/-- The loop that adds more coins of the kernel's key, reading each coin's transaction from the
files; `none` where a read throws and `CreateCoinStake` returns `false`. -/
def combine (params : Params) (files : BlockFiles) (index : TxIndex)
    (nCombineThreshold nBalance : CAmount) (nReserveBalance : Option CAmount)
    (scriptPubKeyKernel : CScript) :
    List COutput → CTransaction × CAmount → Option (CTransaction × CAmount)
  | [], acc => some acc
  | pcoin :: rest, (txNew, nCredit) =>
    match index.FindTxPosition pcoin.outpoint.hash with
    | none => combine params files index nCombineThreshold nBalance nReserveBalance
        scriptPubKeyKernel rest (txNew, nCredit)
    | some postx =>
      match TxIndex.ReadTxFromDisk files postx with
      | none => none
      | some (_, tx) =>
        if txNew.vout.length == 2 &&
            (pcoin.txout.scriptPubKey == scriptPubKeyKernel ||
              some pcoin.txout.scriptPubKey == txNew.vout[1]?.map CTxOut.scriptPubKey) &&
            some pcoin.outpoint.hash != txNew.vin.head?.map (·.prevout.hash) then
          if txNew.vin.length ≥ 100 || nCredit > nCombineThreshold ||
              nCredit + pcoin.txout.nValue > nBalance - nReserveBalance.getD 0 then
            some (txNew, nCredit)
          else if pcoin.txout.nValue > nCombineThreshold ||
              (tx.nTime.toNat : Int) + params.nStakeMaxAge > txNew.nTime.toNat then
            combine params files index nCombineThreshold nBalance nReserveBalance
              scriptPubKeyKernel rest (txNew, nCredit)
          else
            combine params files index nCombineThreshold nBalance nReserveBalance
              scriptPubKeyKernel rest
              ({ txNew with vin := txNew.vin ++ [CTxIn.ofOutPoint pcoin.outpoint] },
                nCredit + pcoin.txout.nValue)
        else
          combine params files index nCombineThreshold nBalance nReserveBalance
            scriptPubKeyKernel rest (txNew, nCredit)

/-- The output amounts: over a split stake, half the credit (rounded towards zero) to the first
stake output and the rest to the second, else all of it to the stake output. -/
def setAmounts (nCredit : CAmount) : List CTxOut → List CTxOut
  | [o₀, o₁, o₂] =>
    [o₀, { o₁ with nValue := nCredit.tdiv 2 }, { o₂ with nValue := nCredit - nCredit.tdiv 2 }]
  | o₀ :: o₁ :: rest => o₀ :: { o₁ with nValue := nCredit } :: rest
  | vout => vout

/-- The signing loop, from input `nIn` on. The signature hashes of `SIGHASH_ALL` read no other
input's script or witness, so each input is signed on the unsigned coinstake `tx`. -/
def signInputs (wallet : StakeWallet) (tx : CTransaction) : Nat → List CTxIn → Option (List CTxIn)
  | _, [] => some []
  | nIn, txin :: rest =>
    match wallet.SignSignature tx nIn with
    | none => none
    | some (scriptSig, scriptWitness) =>
      (signInputs wallet tx (nIn + 1) rest).map ({ txin with scriptSig, scriptWitness } :: ·)

end CreateCoinStake

/-- `CWallet::CreateCoinStake(chainman, pwallet, nBits, nSearchInterval, txNew, nFees)` with no
presigned coinstake, on an active chain of height `nHeight`: the coinstake where it returns
`true`, `none` where it returns `false`, and the index with the cache it leaves. `selected` is
what `SelectCoins` returns, `nBalance` the wallet's trusted balance, `nReserveBalance` the
`-reservebalance` amount, and `view` the coins of the active chain. -/
def CreateCoinStake (params : Params) (rules : KernelRules) (wallet : StakeWallet)
    (files : BlockFiles) (index : TxIndex) (view : CCoinsViewCache) (nHeight : Int)
    (nBits : UInt32) (nSearchInterval : Int) (txNew : CTransaction) (nFees nBalance : CAmount)
    (nReserveBalance : Option CAmount) (selected : Option (List COutput)) :
    Except Abort (Option CTransaction × TxIndex) :=
  let nCombineThreshold := (GetBlockReward nHeight params).tdiv 3
  let txNew := { txNew with vin := [], vout := [⟨0, []⟩] }
  if nReserveBalance.any (nBalance ≤ ·) then .ok (none, index)
  else match selected with
  | none => .ok (none, index)
  | some coins =>
    let nAllowedBalance := nBalance - nReserveBalance.getD 0
    CreateCoinStake.kernel params rules wallet files nBits nSearchInterval coins txNew index
        >>= fun (kernel?, index) =>
    match kernel? with
    | none => .ok (none, index)
    | some k =>
      if k.nCredit == 0 || k.nCredit > nAllowedBalance then .ok (none, index)
      else
        match CreateCoinStake.combine params files index nCombineThreshold nBalance
            nReserveBalance k.scriptPubKeyKernel coins (k.txNew, k.nCredit) with
        | none => .ok (none, index)
        | some (txNew, nCredit) =>
          GetCoinAge params rules.Hash files index txNew view txNew.nTime true >>=
            fun (fCoinAge, _, index) =>
          if !fCoinAge then .ok (none, index)
          else
            let nReward := nFees + GetBlockReward nHeight params
            if nReward ≤ 0 then .ok (none, index)
            else
              let txNew := { txNew with
                vout := CreateCoinStake.setAmounts (nCredit + nReward) txNew.vout }
              match CreateCoinStake.signInputs wallet txNew 0 txNew.vin with
              | none => .ok (none, index)
              | some vin =>
                let txNew := { txNew with vin }
                if (SerializeTransaction txNew true).length ≥ 1000000 / 5 then .ok (none, index)
                else .ok (some txNew, index)

/-! ## The credit -/

namespace CreateCoinStake

variable {params : Params} {rules : KernelRules} {wallet : StakeWallet} {files : BlockFiles}
  {nBits : UInt32} {nSearchInterval : Int}

/-- **The kernel loop takes one coin of the selection**: its input is added, its value is the
credit, and one stake output of value zero is added, or two for a split stake. -/
theorem kernel_found {coins : List COutput} {txNew : CTransaction} {index index' : TxIndex}
    {k : Kernel}
    (h : kernel params rules wallet files nBits nSearchInterval coins txNew index =
      .ok (some k, index')) :
    ∃ c ∈ coins, ∃ (s : CScript) (split : Bool),
      k.txNew.vin = txNew.vin ++ [CTxIn.ofOutPoint c.outpoint] ∧
      k.txNew.vout = txNew.vout ++ ⟨0, s⟩ :: (if split then [⟨0, s⟩] else []) ∧
      k.nCredit = c.txout.nValue := by
  induction coins generalizing index with
  | nil => cases h
  | cons pcoin rest ih =>
    have hrest : ∀ {index₁ : TxIndex}, kernel params rules wallet files nBits nSearchInterval rest
        txNew index₁ = .ok (some k, index') → ∃ c ∈ pcoin :: rest, ∃ (s : CScript) (split : Bool),
          k.txNew.vin = txNew.vin ++ [CTxIn.ofOutPoint c.outpoint] ∧
          k.txNew.vout = txNew.vout ++ ⟨0, s⟩ :: (if split then [⟨0, s⟩] else []) ∧
          k.nCredit = c.txout.nValue := fun h => by
      obtain ⟨c, hc, hk⟩ := ih h
      exact ⟨c, List.mem_cons_of_mem _ hc, hk⟩
    unfold kernel at h
    split at h
    · exact hrest h
    · split at h
      · cases h
      · split at h
        · exact hrest h
        · obtain ⟨n?, -, h⟩ := Except.bind_eq_ok.1 h
          split at h
          · exact hrest h
          · split at h
            · exact hrest h
            · rename_i s _
              simp only [Except.ok.injEq, Prod.mk.injEq, Option.some.injEq] at h
              obtain ⟨rfl, -⟩ := h
              exact ⟨pcoin, List.mem_cons_self, s, _, rfl, rfl, rfl⟩

/-- **The loop that adds coins keeps the outputs and credits each coin it adds.** -/
theorem combine_spec {index : TxIndex} {nCombineThreshold nBalance : CAmount}
    {nReserveBalance : Option CAmount} {scriptPubKeyKernel : CScript} {coins : List COutput}
    {acc acc' : CTransaction × CAmount}
    (h : combine params files index nCombineThreshold nBalance nReserveBalance scriptPubKeyKernel
      coins acc = some acc') :
    acc'.1.vout = acc.1.vout ∧ ∃ added : List COutput, (∀ c ∈ added, c ∈ coins) ∧
      acc'.1.vin = acc.1.vin ++ added.map (fun c => CTxIn.ofOutPoint c.outpoint) ∧
      acc'.2 = acc.2 + (added.map fun c => c.txout.nValue).sum := by
  induction coins generalizing acc with
  | nil =>
    cases h
    exact ⟨rfl, [], by simp, by simp, by simp⟩
  | cons pcoin rest ih =>
    have hskip : ∀ {acc₁ : CTransaction × CAmount}, acc₁ = acc →
        combine params files index nCombineThreshold nBalance nReserveBalance scriptPubKeyKernel
          rest acc₁ = some acc' → acc'.1.vout = acc.1.vout ∧ ∃ added : List COutput,
            (∀ c ∈ added, c ∈ pcoin :: rest) ∧
            acc'.1.vin = acc.1.vin ++ added.map (fun c => CTxIn.ofOutPoint c.outpoint) ∧
            acc'.2 = acc.2 + (added.map fun c => c.txout.nValue).sum := by
      rintro acc₁ rfl h
      obtain ⟨hvout, added, hadded, hvin, hcredit⟩ := ih h
      exact ⟨hvout, added, fun c hc => List.mem_cons_of_mem _ (hadded c hc), hvin, hcredit⟩
    obtain ⟨txNew, nCredit⟩ := acc
    unfold combine at h
    split at h
    · exact hskip rfl h
    · split at h
      · cases h
      · split at h
        · split at h
          · cases h
            exact ⟨rfl, [], by simp, by simp, by simp⟩
          · split at h
            · exact hskip rfl h
            · obtain ⟨hvout, added, hadded, hvin, hcredit⟩ := ih h
              refine ⟨hvout, pcoin :: added, ?_, ?_, ?_⟩
              · intro c hc
                rcases List.mem_cons.1 hc with rfl | hc
                · exact List.mem_cons_self
                · exact List.mem_cons_of_mem _ (hadded c hc)
              · simp [hvin]
              · simp only [hcredit, List.map_cons, List.sum_cons]
                ring
        · exact hskip rfl h

/-- Over the stake outputs the kernel loop leaves, the amounts set add up to the credit. -/
theorem setAmounts_sum (nCredit : CAmount) (s : CScript) (split : Bool) :
    ((setAmounts nCredit (⟨0, []⟩ :: ⟨0, s⟩ :: (if split then [⟨0, s⟩] else []))).map
      CTxOut.nValue).sum = nCredit := by
  cases split with
  | false => simp [setAmounts]
  | true =>
    simp only [setAmounts, if_true, List.map_cons, List.map_nil, List.sum_cons, List.sum_nil]
    ring

/-- Signing changes no input's outpoint. -/
theorem signInputs_prevout {tx : CTransaction} {nIn : Nat} {l l' : List CTxIn}
    (h : signInputs wallet tx nIn l = some l') : l'.map CTxIn.prevout = l.map CTxIn.prevout := by
  induction l generalizing nIn l' with
  | nil =>
    cases h
    rfl
  | cons txin rest ih =>
    unfold signInputs at h
    split at h
    · cases h
    · obtain ⟨rest', hrest, rfl⟩ := Option.map_eq_some_iff.1 h
      simp [ih hrest]

end CreateCoinStake

/-- **The reward the wallet claims**: a coinstake `CreateCoinStake` returns spends coins of the
selection, and its outputs exceed the value of those coins by exactly the fees and
`GetBlockReward` at the active chain's height `nHeight`. -/
theorem CreateCoinStake_claims_reward {params : Params} {rules : KernelRules}
    {wallet : StakeWallet} {files : BlockFiles} {index index' : TxIndex} {view : CCoinsViewCache}
    {nHeight : Int} {nBits : UInt32} {nSearchInterval : Int} {txNew tx : CTransaction}
    {nFees nBalance : CAmount} {nReserveBalance : Option CAmount}
    {selected : Option (List COutput)}
    (h : CreateCoinStake params rules wallet files index view nHeight nBits nSearchInterval txNew
      nFees nBalance nReserveBalance selected = .ok (some tx, index')) :
    ∃ (coins used : List COutput), selected = some coins ∧ (∀ c ∈ used, c ∈ coins) ∧
      tx.vin.map CTxIn.prevout = used.map COutput.outpoint ∧
      tx.valueOut - (used.map fun c => c.txout.nValue).sum =
        nFees + GetBlockReward nHeight params := by
  unfold CreateCoinStake at h
  dsimp only at h
  split at h
  · cases h
  split at h
  · cases h
  rename_i coins
  obtain ⟨⟨kernel?, index₁⟩, hkernel, h⟩ := Except.bind_eq_ok.1 h
  rcases kernel? with _ | k
  · cases h
  obtain ⟨c, hc, s, fSplit, hvin₁, hvout₁, hcredit₁⟩ := CreateCoinStake.kernel_found hkernel
  dsimp only at h
  split at h
  · cases h
  split at h
  · cases h
  rename_i txNew₂ nCredit₂ hcombine
  obtain ⟨hvout₂, added, hadded, hvin₂, hcredit₂⟩ := CreateCoinStake.combine_spec hcombine
  obtain ⟨⟨fCoinAge, nCoinAge, index₂⟩, -, h⟩ := Except.bind_eq_ok.1 h
  split at h
  · cases h
  split at h
  · cases h
  split at h
  · cases h
  rename_i vin hsign
  split at h
  · cases h
  simp only [Except.ok.injEq, Prod.mk.injEq, Option.some.injEq] at h
  obtain ⟨rfl, -⟩ := h
  refine ⟨coins, c :: added, rfl, ?_, ?_, ?_⟩
  · intro c' hc'
    rcases List.mem_cons.1 hc' with rfl | hc'
    · exact hc
    · exact hadded c' hc'
  · rw [CreateCoinStake.signInputs_prevout hsign, hvin₂, hvin₁]
    simp [CTxIn.ofOutPoint]
  · have hvout : txNew₂.vout = ⟨0, []⟩ :: ⟨0, s⟩ :: (if fSplit then [⟨0, s⟩] else []) := by
      rw [show txNew₂.vout = k.txNew.vout from hvout₂, hvout₁]
      rfl
    have hcredit : nCredit₂ = c.txout.nValue + (added.map fun c => c.txout.nValue).sum := by
      rw [show nCredit₂ = k.nCredit + _ from hcredit₂, hcredit₁]
    simp only [CTransaction.valueOut, hvout, CreateCoinStake.setAmounts_sum, hcredit,
      List.map_cons, List.sum_cons]
    ring

end NowpConsensus
