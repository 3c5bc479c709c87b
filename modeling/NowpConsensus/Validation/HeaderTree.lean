import NowpConsensus.Pow.TargetSpec

/-!
# Accepting headers

`ChainstateManager::AcceptBlockHeader` (`validation.cpp`) is the entry point for every header the
node learns of, from a `headers` message or with a full block. It checks the header on its own
(`CheckBlockHeader`: proof of work, skipped when the sender's flags say proof of stake), finds
the predecessor, checks the header against it (`ContextualCheckBlockHeader`: the target
`GetNextTargetRequired` asks for, checkpoints, timestamps, version) and adds an entry to the
block index (`BlockManager::AddToBlockIndex`).

The state of the model is the block index, a map from hashes to entries (an entry being, as in
`Chain/BlockIndex.lean`, the list of it and its ancestors), together with the static
`DGWenabled` of `IsPosDGWenabled`, which `GetNextTargetRequired` reads and sets on the way.
A run is a sequence of `AcceptBlockHeader` calls from the index `LoadGenesisBlock` leaves;
`HeaderTree.Reachable` is the set of states such runs reach.

The header hashes (`GetHash`, a double SHA-256, and `GetPOWHash`, the GhostRider proof-of-work
hash) are cryptographic code that the model takes as given functions (`BlockHashes`); the
adjusted clock `GetAdjustedTime()` is an argument of each call. Statuses of failed blocks
(`nStatus`, `m_failed_blocks`) are set only by full-block validation, never by header acceptance,
and are not modelled here.

* `Reachable.ProcessNewBlockHeaders_wellFormed`: from a reachable index, `ProcessNewBlockHeaders`
  returns a reachable index, well formed (`Reachable.wellFormed`), or stops only where
  `GetNextTargetRequired` stops;
* `GetNextTargetRequired_asserts_on_reachable_index`: the headers of one branch, sent as a peer
  can, build such an index and stop the node in `DarkGravityWave`.
-/

namespace NowpConsensus

/-- The hashes of a header (`primitives/block.cpp`): `GetHash` and `GetPOWHash(readCache)`. -/
structure BlockHashes where
  GetHash : CBlockHeader → uint256
  GetPOWHash : CBlockHeader → Bool → uint256

/-- What a validation function reports: it returned `true`, or it returned `false` after
`state.Invalid(...)` with a reject reason. -/
inductive Validity
  | valid
  | invalid (reason : String)
  deriving DecidableEq, Repr

/-- A test that rejects passes exactly when its condition fails and the tests after it pass. -/
theorem Validity.ite_invalid_eq_valid {c : Prop} [Decidable c] {reason : String} {v : Validity} :
    (if c then Validity.invalid reason else v) = .valid ↔ ¬c ∧ v = .valid := by
  split <;> simp_all

/-- `MAX_FUTURE_BLOCK_TIME`: fifteen minutes. -/
def MAX_FUTURE_BLOCK_TIME : Int := 15 * 60

/-- `CheckProofOfWork(hash, nBits, params)`: the target is in range and the hash meets it. -/
def CheckProofOfWork (hash : uint256) (nBits : UInt32) (params : Params) : Bool :=
  let (bnTarget, fNegative, fOverflow) := arith_uint256.SetCompact nBits
  if fNegative || bnTarget = 0 || fOverflow || UintToArith256 params.powLimit < bnTarget then false
  else !(bnTarget < UintToArith256 hash)

/-- `CheckPOW(block, params)`: a block whose body is proof of stake passes; otherwise the
proof-of-work hash must meet the target, read through the hash cache and then, if that fails,
without it. -/
def CheckPOW (hashes : BlockHashes) (block : CBlock) (params : Params) : Bool :=
  if block.isProofOfStake then true
  else CheckProofOfWork (hashes.GetPOWHash block.header true) block.header.nBits params ||
    CheckProofOfWork (hashes.GetPOWHash block.header false) block.header.nBits params

/-- `CBlock(const CBlockHeader&)`: a block with the header and no transactions. -/
def CBlock.ofHeader (h : CBlockHeader) : CBlock := ⟨h, [], []⟩

/-- `CheckBlockHeader(block, state, params, fCheckPOW)`. -/
def CheckBlockHeader (hashes : BlockHashes) (block : CBlock) (params : Params) (fCheckPOW : Bool) :
    Validity :=
  if fCheckPOW && !CheckPOW hashes block params then .invalid "high-hash" else .valid

/-- The state header acceptance reads and writes. -/
structure HeaderTree where
  /-- `BlockManager::m_block_index`. -/
  m_block_index : uint256 → Option BlockPtr
  /-- The static `DGWenabled` of `IsPosDGWenabled`. -/
  DGWenabled : Bool

namespace HeaderTree

/-- The genesis entry of the block index. -/
def genesisEntry (cp : CChainParams) : CBlockIndex :=
  ⟨cp.consensus.hashGenesisBlock, 0, cp.genesis.nTime, cp.genesis.nBits, cp.genesis.nFlags⟩

/-- The index after `LoadGenesisBlock`: the genesis entry alone, under the genesis hash that
`chainparams.cpp` asserts the genesis header has. -/
def init (cp : CChainParams) : HeaderTree where
  m_block_index h := if h = cp.consensus.hashGenesisBlock then some [genesisEntry cp] else none
  DGWenabled := false

end HeaderTree

/-- `BlockManager::GetLastCheckpoint`: the highest checkpoint whose block is in the index. -/
def GetLastCheckpoint (cp : CChainParams) (s : HeaderTree) : Option BlockPtr :=
  cp.checkpoints.reverse.findSome? fun c => s.m_block_index c.2

/-- `ContextualCheckBlockHeader(block, state, blockman, params, pindexPrev, nAdjustedTime)`, with
the static of `IsPosDGWenabled` before and after. -/
def ContextualCheckBlockHeader (cp : CChainParams) (s : HeaderTree) (block : CBlockHeader)
    (pindexPrev : BlockPtr) (nAdjustedTime : Int) : Except Abort (Validity × Bool) :=
  match pindexPrev with
  | [] => .error .assertion
  | prev :: _ => do
    let nHeight := prev.nHeight + 1
    let (nBitsRequired, DGWenabled) ←
      GetNextTargetRequired cp s.DGWenabled pindexPrev block.flagsProofOfStake
    let priorToCheckpoint : Bool := match GetLastCheckpoint cp s with
      | some (c :: _) => nHeight < c.nHeight
      | _ => false
    let verdict : Validity :=
      if block.nBits != nBitsRequired then .invalid "bad-diffbits"
      else if priorToCheckpoint then .invalid "bad-fork-prior-to-checkpoint"
      else if block.getBlockTime ≤ GetMedianTimePast pindexPrev ||
          block.getBlockTime + MAX_FUTURE_BLOCK_TIME < prev.getBlockTime then .invalid "time-too-old"
      else if block.getBlockTime > nAdjustedTime + MAX_FUTURE_BLOCK_TIME then .invalid "time-too-new"
      else if block.nVersion < 2 || block.nVersion < 4 then .invalid "bad-version"
      else .valid
    pure (verdict, DGWenabled)

/-- `BlockManager::AddToBlockIndex(block)`: an existing entry is kept; a new one points to its
predecessor, one higher, with the header's fields and flags. -/
def AddToBlockIndex (hashes : BlockHashes) (block : CBlockHeader) (s : HeaderTree) : HeaderTree :=
  let hash := hashes.GetHash block
  match s.m_block_index hash with
  | some _ => s
  | none =>
    let pprev := (s.m_block_index block.hashPrevBlock).getD []
    let nHeight := match pprev with
      | p :: _ => p.nHeight + 1
      | [] => 0
    -- the constructor copies `nFlags`, and `SetProofOfStake` sets the bit it already has
    let nFlags := if block.flagsProofOfStake then block.nFlags ||| BLOCK_PROOF_OF_STAKE
      else block.nFlags
    let pindexNew : CBlockIndex := ⟨hash, nHeight, block.nTime, block.nBits, nFlags⟩
    { s with m_block_index := Function.update s.m_block_index hash (some (pindexNew :: pprev)) }

/-- `ChainstateManager::AcceptBlockHeader(block, state, chainparams, ppindex)`, at adjusted time
`nAdjustedTime`: the verdict and the new state. -/
def AcceptBlockHeader (cp : CChainParams) (hashes : BlockHashes) (nAdjustedTime : Int)
    (block : CBlockHeader) (s : HeaderTree) : Except Abort (Validity × HeaderTree) :=
  let hash := hashes.GetHash block
  if hash != cp.consensus.hashGenesisBlock then
    match s.m_block_index hash with
    | some _ => .ok (.valid, s)
    | none =>
      match CheckBlockHeader hashes (CBlock.ofHeader block) cp.consensus
          (!block.flagsProofOfStake) with
      | .invalid r => .ok (.invalid r, s)
      | .valid =>
        match s.m_block_index block.hashPrevBlock with
        | none => .ok (.invalid "prev-blk-not-found", s)
        | some pindexPrev => do
          let (verdict, DGWenabled) ←
            ContextualCheckBlockHeader cp s block pindexPrev nAdjustedTime
          let s := { s with DGWenabled := DGWenabled }
          match verdict with
          | .invalid r => pure (.invalid r, s)
          | .valid => pure (.valid, AddToBlockIndex hashes block s)
  else .ok (.valid, AddToBlockIndex hashes block s)

/-- `ProcessNewBlockHeaders` on a list of headers, each with the adjusted time of its call:
accept them in order and stop at the first that is not valid. -/
def ProcessNewBlockHeaders (cp : CChainParams) (hashes : BlockHashes) :
    List (CBlockHeader × Int) → HeaderTree → Except Abort (Validity × HeaderTree)
  | [], s => .ok (.valid, s)
  | (block, nAdjustedTime) :: rest, s => do
    let (verdict, s) ← AcceptBlockHeader cp hashes nAdjustedTime block s
    match verdict with
    | .invalid r => pure (.invalid r, s)
    | .valid => ProcessNewBlockHeaders cp hashes rest s

namespace HeaderTree

/-- The states a run of `AcceptBlockHeader` calls reaches from the genesis index. -/
inductive Reachable (cp : CChainParams) (hashes : BlockHashes) : HeaderTree → Prop
  | init : Reachable cp hashes (init cp)
  | accept {s s' : HeaderTree} {verdict : Validity} (nAdjustedTime : Int) (block : CBlockHeader) :
      Reachable cp hashes s → AcceptBlockHeader cp hashes nAdjustedTime block s = .ok (verdict, s') →
      Reachable cp hashes s'

/-- A run of `ProcessNewBlockHeaders` that returns stays among the reachable states. -/
theorem Reachable.processNewBlockHeaders {cp : CChainParams} {hashes : BlockHashes}
    {headers : List (CBlockHeader × Int)} {s s' : HeaderTree} {verdict : Validity}
    (hs : Reachable cp hashes s)
    (h : ProcessNewBlockHeaders cp hashes headers s = .ok (verdict, s')) :
    Reachable cp hashes s' := by
  induction headers generalizing s with
  | nil =>
    simp only [ProcessNewBlockHeaders, Except.ok.injEq, Prod.mk.injEq] at h
    exact h.2 ▸ hs
  | cons hd rest ih =>
    obtain ⟨block, nAdjustedTime⟩ := hd
    simp only [ProcessNewBlockHeaders] at h
    obtain ⟨⟨v, s₁⟩, h₁, h₂⟩ := Except.bind_eq_ok.1 h
    have hs₁ := Reachable.accept nAdjustedTime block hs h₁
    cases v with
    | invalid r =>
      simp only [pure, Except.pure, Except.ok.injEq, Prod.mk.injEq] at h₂
      exact h₂.2 ▸ hs₁
    | valid => exact ih hs₁ h₂

/-- The shape of the block index: every entry is stored under its own hash, is one higher than
its predecessor (so its height is its number of ancestors), and its predecessor is itself an
entry. -/
structure WellFormed (s : HeaderTree) : Prop where
  ne_nil : ∀ hash p, s.m_block_index hash = some p → p ≠ []
  hashBlock_eq : ∀ hash b pprev, s.m_block_index hash = some (b :: pprev) → b.hashBlock = hash
  nHeight_eq : ∀ hash b pprev, s.m_block_index hash = some (b :: pprev) → b.nHeight = pprev.length
  pprev_mem : ∀ hash b pprev, s.m_block_index hash = some (b :: pprev) →
    pprev = [] ∨ ∃ hash', s.m_block_index hash' = some pprev

theorem init_wellFormed (cp : CChainParams) : (init cp).WellFormed where
  ne_nil hash p h := by
    simp only [init] at h
    split at h
    · simp only [Option.some.injEq] at h
      exact h ▸ List.cons_ne_nil _ _
    · cases h
  hashBlock_eq hash b pprev h := by
    simp only [init] at h
    split at h
    · simp only [Option.some.injEq, List.cons.injEq] at h
      rw [← h.1]
      exact (by assumption : hash = _).symm
    · cases h
  nHeight_eq hash b pprev h := by
    simp only [init] at h
    split at h
    · simp only [Option.some.injEq, List.cons.injEq] at h
      rw [← h.1, ← h.2]
      rfl
    · cases h
  pprev_mem hash b pprev h := by
    simp only [init] at h
    split at h
    · simp only [Option.some.injEq, List.cons.injEq] at h
      exact .inl h.2.symm
    · cases h

/-- Setting the static leaves the index as it is. -/
theorem WellFormed.setDGWenabled {s : HeaderTree} (hs : s.WellFormed) (b : Bool) :
    ({ s with DGWenabled := b } : HeaderTree).WellFormed :=
  ⟨hs.ne_nil, hs.hashBlock_eq, hs.nHeight_eq, hs.pprev_mem⟩

end HeaderTree

@[simp]
theorem AddToBlockIndex_DGWenabled (hashes : BlockHashes) (block : CBlockHeader) (s : HeaderTree) :
    (AddToBlockIndex hashes block s).DGWenabled = s.DGWenabled := by
  unfold AddToBlockIndex
  dsimp only
  split <;> rfl

/-- An entry after `AddToBlockIndex` was an entry before, or is the new one: the header's entry,
on its predecessor's entry, under the header's hash where nothing was. -/
theorem AddToBlockIndex_index {hashes : BlockHashes} {block : CBlockHeader} {s : HeaderTree}
    {hash : uint256} {p : BlockPtr}
    (h : (AddToBlockIndex hashes block s).m_block_index hash = some p) :
    s.m_block_index hash = some p ∨
      (hash = hashes.GetHash block ∧ s.m_block_index hash = none ∧
        ∃ b, p = b :: (s.m_block_index block.hashPrevBlock).getD [] ∧ b.hashBlock = hash ∧
          b.nHeight =
            ((((s.m_block_index block.hashPrevBlock).getD []).head?.map (·.nHeight + 1))).getD 0) := by
  unfold AddToBlockIndex at h
  dsimp only at h
  split at h
  · exact .inl h
  · rename_i hnone
    dsimp only at h
    rw [Function.update_apply] at h
    by_cases hh : hash = hashes.GetHash block
    · rw [if_pos hh] at h
      subst hh
      simp only [Option.some.injEq] at h
      refine .inr ⟨rfl, hnone, _, h.symm, rfl, ?_⟩
      split <;> simp_all
    · rw [if_neg hh] at h
      exact .inl h

/-- `AddToBlockIndex` keeps every entry. -/
theorem AddToBlockIndex_mono {hashes : BlockHashes} {block : CBlockHeader} {s : HeaderTree}
    {hash : uint256} {p : BlockPtr} (h : s.m_block_index hash = some p) :
    (AddToBlockIndex hashes block s).m_block_index hash = some p := by
  unfold AddToBlockIndex
  dsimp only
  split
  · exact h
  · rename_i hnone
    dsimp only
    rw [Function.update_apply, if_neg]
    · exact h
    · rintro rfl
      rw [h] at hnone
      cases hnone

/-- **Adding a header keeps the index well formed.** -/
theorem HeaderTree.WellFormed.addToBlockIndex {s : HeaderTree} (hs : s.WellFormed)
    (hashes : BlockHashes) (block : CBlockHeader) : (AddToBlockIndex hashes block s).WellFormed := by
  obtain ⟨hne, hhash, hheight, hmem⟩ := hs
  refine ⟨fun hash p h => ?_, fun hash b pprev h => ?_, fun hash b pprev h => ?_,
    fun hash b pprev h => ?_⟩
  · rcases AddToBlockIndex_index h with h | ⟨-, -, b, rfl, -⟩
    · exact hne hash p h
    · exact List.cons_ne_nil _ _
  · rcases AddToBlockIndex_index h with h | ⟨-, -, b', hp, hb, -⟩
    · exact hhash hash b pprev h
    · obtain ⟨rfl, -⟩ := List.cons.inj hp
      exact hb
  · rcases AddToBlockIndex_index h with h | ⟨-, -, b', hp, -, hb⟩
    · exact hheight hash b pprev h
    · obtain ⟨rfl, rfl⟩ := List.cons.inj hp
      rw [hb]
      cases hprev : s.m_block_index block.hashPrevBlock with
      | none => rfl
      | some q =>
        obtain ⟨q0, qrest, rfl⟩ := List.exists_cons_of_ne_nil (hne _ _ hprev)
        simp [hheight _ _ _ hprev]
  · rcases AddToBlockIndex_index h with h | ⟨-, -, b', hp, -⟩
    · rcases hmem hash b pprev h with h' | ⟨hash', h'⟩
      · exact .inl h'
      · exact .inr ⟨hash', AddToBlockIndex_mono h'⟩
    · obtain ⟨rfl, rfl⟩ := List.cons.inj hp
      cases hprev : s.m_block_index block.hashPrevBlock with
      | none => exact .inl rfl
      | some q => exact .inr ⟨block.hashPrevBlock, AddToBlockIndex_mono hprev⟩

/-! ## What one call does -/

section Accept

variable {cp : CChainParams} {hashes : BlockHashes} {nAdjustedTime : Int} {block : CBlockHeader}
  {s s' : HeaderTree}

/-- **What `AcceptBlockHeader` can do to the state**: set the static of `IsPosDGWenabled`, and
add the header to the index. -/
theorem AcceptBlockHeader_eq_ok {verdict : Validity}
    (h : AcceptBlockHeader cp hashes nAdjustedTime block s = .ok (verdict, s')) :
    ∃ b, s' = { s with DGWenabled := b } ∨
      s' = AddToBlockIndex hashes block { s with DGWenabled := b } := by
  unfold AcceptBlockHeader at h
  dsimp only at h
  split at h
  · split at h
    · cases h
      exact ⟨s.DGWenabled, .inl rfl⟩
    · split at h
      · cases h
        exact ⟨s.DGWenabled, .inl rfl⟩
      · split at h
        · cases h
          exact ⟨s.DGWenabled, .inl rfl⟩
        · obtain ⟨⟨v, b⟩, -, h⟩ := Except.bind_eq_ok.1 h
          refine ⟨b, ?_⟩
          split at h <;> cases h
          · exact .inl rfl
          · exact .inr rfl
  · cases h
    exact ⟨s.DGWenabled, .inr rfl⟩

/-- `ContextualCheckBlockHeader` stops only in `GetNextTargetRequired`, or on a null
predecessor. -/
theorem ContextualCheckBlockHeader_eq_error {pindexPrev : BlockPtr} {e : Abort}
    (h : ContextualCheckBlockHeader cp s block pindexPrev nAdjustedTime = .error e) :
    pindexPrev = [] ∧ e = .assertion ∨
      GetNextTargetRequired cp s.DGWenabled pindexPrev block.flagsProofOfStake = .error e := by
  unfold ContextualCheckBlockHeader at h
  split at h
  · exact .inl ⟨rfl, (Except.error.inj h).symm⟩
  · rcases Except.bind_eq_error.1 h with h | ⟨⟨n, b⟩, -, h⟩
    · exact .inr h
    · cases h

/-- **`AcceptBlockHeader` stops only in `GetNextTargetRequired`**, called on the predecessor's
entry (or on a predecessor entry that is null). -/
theorem AcceptBlockHeader_eq_error {e : Abort}
    (h : AcceptBlockHeader cp hashes nAdjustedTime block s = .error e) :
    ∃ pindexPrev, s.m_block_index block.hashPrevBlock = some pindexPrev ∧
      (pindexPrev = [] ∧ e = .assertion ∨
        GetNextTargetRequired cp s.DGWenabled pindexPrev block.flagsProofOfStake = .error e) := by
  unfold AcceptBlockHeader at h
  dsimp only at h
  split at h
  · split at h
    · cases h
    · split at h
      · cases h
      · split at h
        · cases h
        · rename_i pindexPrev hprev
          refine ⟨pindexPrev, hprev, ?_⟩
          rcases Except.bind_eq_error.1 h with h | ⟨⟨v, b⟩, -, h⟩
          · exact ContextualCheckBlockHeader_eq_error h
          · split at h <;> cases h
  · cases h

end Accept

namespace HeaderTree

/-- **Every reachable index is well formed.** -/
theorem Reachable.wellFormed {cp : CChainParams} {hashes : BlockHashes} {s : HeaderTree}
    (hs : Reachable cp hashes s) : s.WellFormed := by
  induction hs with
  | init => exact init_wellFormed cp
  | accept nAdjustedTime block _ h ih =>
    obtain ⟨b, rfl | rfl⟩ := AcceptBlockHeader_eq_ok h
    · exact ih.setDGWenabled b
    · exact (ih.setDGWenabled b).addToBlockIndex _ block

/-- **A run of header acceptance that stops, stops in `GetNextTargetRequired` on an entry of a
reachable index**: on a failed assertion of `DarkGravityWave`, by
`GetNextTargetRequired_eq_error_iff`. -/
theorem Reachable.processNewBlockHeaders_eq_error {cp : CChainParams} {hashes : BlockHashes}
    {headers : List (CBlockHeader × Int)} {s : HeaderTree} {e : Abort}
    (hs : Reachable cp hashes s) (h : ProcessNewBlockHeaders cp hashes headers s = .error e) :
    ∃ s', Reachable cp hashes s' ∧ ∃ hash pindexLast f, s'.m_block_index hash = some pindexLast ∧
      GetNextTargetRequired cp s'.DGWenabled pindexLast f = .error e := by
  induction headers generalizing s with
  | nil => cases h
  | cons hd rest ih =>
    obtain ⟨block, nAdjustedTime⟩ := hd
    simp only [ProcessNewBlockHeaders] at h
    rcases Except.bind_eq_error.1 h with h | ⟨⟨v, s₁⟩, h₁, h₂⟩
    · obtain ⟨pindexPrev, hprev, ⟨rfl, -⟩ | hstop⟩ := AcceptBlockHeader_eq_error h
      · exact absurd rfl (hs.wellFormed.ne_nil _ _ hprev)
      · exact ⟨s, hs, _, _, _, hprev, hstop⟩
    · cases v with
      | invalid r => cases h₂
      | valid => exact ih (Reachable.accept nAdjustedTime block hs h₁) h₂

end HeaderTree

/-! ## A branch that stops the node

The walk of `DarkGravityWave` is guarded by the height of its argument, not by the number of
blocks of the type behind it. A peer can send the headers of a branch whose last proof-of-work
block is high enough while few proof-of-work blocks precede it: proof-of-stake headers need no
proof of work, only the target `GetNextTargetRequired` asks for, which the peer can compute as
the node does. The next proof-of-work header on the branch then stops the node in
`DarkGravityWave`. -/

/-- The headers of a branch on the header `hashPrev`, one per `(fProofOfStake, nTime)`, each on
the one before, flagged with its type and carrying the target the node requires of it (the
compact `powLimit` where the node cannot compute one): what a peer sends that follows the node's
own state `s` to learn the targets. -/
def ruleHeaders (cp : CChainParams) (hashes : BlockHashes) :
    HeaderTree → uint256 → List (Bool × UInt32) → List (CBlockHeader × Int)
  | _, _, [] => []
  | s, hashPrev, (fProofOfStake, nTime) :: rest =>
    let nBitsLimit := arith_uint256.GetCompact (UintToArith256 cp.consensus.powLimit)
    let nBits := match s.m_block_index hashPrev with
      | some pindexPrev =>
        match GetNextTargetRequired cp s.DGWenabled pindexPrev fProofOfStake with
        | .ok (nBits, _) => nBits
        | .error _ => nBitsLimit
      | none => nBitsLimit
    let block : CBlockHeader :=
      { nVersion := 4, hashPrevBlock := hashPrev, hashMerkleRoot := 0, nTime, nBits, nNonce := 0,
        nFlags := if fProofOfStake then BLOCK_PROOF_OF_STAKE else 0 }
    let s' := match AcceptBlockHeader cp hashes nTime.toNat block s with
      | .ok (_, s') => s'
      | .error _ => s
    (block, nTime.toNat) :: ruleHeaders cp hashes s' (hashes.GetHash block) rest

/-- Stand-in hashes for the run below: a header hashes to its time, and its proof-of-work hash
is zero, so that every proof-of-work header meets its target. -/
def timeHashes : BlockHashes where
  GetHash h := BitVec.ofNat 256 h.nTime.toNat
  GetPOWHash _ _ := 0

/-- A branch from the main network's genesis, two minutes a block: a proof-of-work block, 58
proof-of-stake blocks, and two proof-of-work blocks. The first of these is at height 60, where
`DarkGravityWave` starts for proof of work, with one proof-of-work block before it. -/
def stakeGapBranch : List (Bool × UInt32) :=
  (false, 1680357192 + 120) ::
    (List.range 58).map (fun i => (true, UInt32.ofNat (1680357192 + 120 * (i + 2)))) ++
    [(false, 1680357192 + 120 * 60), (false, 1680357192 + 120 * 61)]

theorem stakeGapBranch_asserts :
    (ProcessNewBlockHeaders mainParams timeHashes
      (ruleHeaders mainParams timeHashes (HeaderTree.init mainParams)
        mainConsensus.hashGenesisBlock stakeGapBranch)
      (HeaderTree.init mainParams)).isAssertion = true := by
  decide +kernel

/-- **The node's own header acceptance builds an index on which `GetNextTargetRequired` fails an
assertion**: after the headers of `stakeGapBranch` up to its block at height 60, the target of
the next proof-of-work block stops in `DarkGravityWave`. -/
theorem GetNextTargetRequired_asserts_on_reachable_index :
    ∃ s, HeaderTree.Reachable mainParams timeHashes s ∧ ∃ hash pindexLast f,
      s.m_block_index hash = some pindexLast ∧
      GetNextTargetRequired mainParams s.DGWenabled pindexLast f = .error .assertion :=
  HeaderTree.Reachable.init.processNewBlockHeaders_eq_error
    (Except.isAssertion_iff.1 stakeGapBranch_asserts)

namespace HeaderTree

/-- **Header acceptance keeps the block index well formed.** From a reachable index, a run of
`ProcessNewBlockHeaders` over any headers returns a reachable, well-formed index, or stops where
`GetNextTargetRequired` stops on an entry of a reachable, well-formed index. -/
theorem Reachable.ProcessNewBlockHeaders_wellFormed {cp : CChainParams} {hashes : BlockHashes}
    {s : HeaderTree} (hs : Reachable cp hashes s) (headers : List (CBlockHeader × Int)) :
    (∀ verdict s', ProcessNewBlockHeaders cp hashes headers s = .ok (verdict, s') →
      Reachable cp hashes s' ∧ s'.WellFormed) ∧
    ∀ e, ProcessNewBlockHeaders cp hashes headers s = .error e →
      ∃ s', Reachable cp hashes s' ∧ s'.WellFormed ∧ ∃ hash pindexLast f,
        s'.m_block_index hash = some pindexLast ∧
        GetNextTargetRequired cp s'.DGWenabled pindexLast f = .error e := by
  refine ⟨fun verdict s' h => ?_, fun e h => ?_⟩
  · have hs' := hs.processNewBlockHeaders h
    exact ⟨hs', hs'.wellFormed⟩
  · obtain ⟨s', hs', hstop⟩ := hs.processNewBlockHeaders_eq_error h
    exact ⟨s', hs', hs'.wellFormed, hstop⟩

/-- The run of `stakeGapBranch`, which stops on a well-formed index. -/
theorem Reachable.ProcessNewBlockHeaders_wellFormed_stakeGapBranch :
    ∃ s', Reachable mainParams timeHashes s' ∧ s'.WellFormed ∧ ∃ hash pindexLast f,
      s'.m_block_index hash = some pindexLast ∧
      GetNextTargetRequired mainParams s'.DGWenabled pindexLast f = .error .assertion :=
  (Reachable.init.ProcessNewBlockHeaders_wellFormed _).2 _
    (Except.isAssertion_iff.1 stakeGapBranch_asserts)

end HeaderTree

end NowpConsensus
