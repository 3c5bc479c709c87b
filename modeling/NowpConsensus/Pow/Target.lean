import NowpConsensus.Chain.BlockIndex
import NowpConsensus.Arith.BigNum

/-!
# The difficulty of the next block

`pow.cpp` computes the compact target a new block must carry. `GetNextTargetRequired` finds the
last two blocks of the requested type (proof of work or proof of stake) with
`GetLastBlockIndex` and, on the main network, either moves the last target exponentially towards
the target spacing, or, once enough blocks exist, hands over to `DarkGravityWave`, which
averages the targets of the last `DGWBlocksAvg` blocks of the type.

For proof of stake the switch is `IsPosDGWenabled`, which counts proof-of-stake blocks before the
last one and keeps its answer in a function-static `DGWenabled`: once it has answered `true`,
every later call answers `true` without looking at the chain. The model makes that static
explicit: `IsPosDGWenabled` and `GetNextTargetRequired` take the value it had before the call
and return the value it has after.

`DarkGravityWave` walks back over the blocks of the type with two assertions, on `pindex->pprev`
and on `pindex`, which fail if the chain runs out. Runs return `Except Abort`: a failed assertion
is `.error .assertion`.

The loops are written as recursions: the `for` of `DarkGravityWave` on its counter, its inner
`while` and that of `IsPosDGWenabled` as `List.dropWhile`, and the outer `while` of
`IsPosDGWenabled`, which shortens the chain at every turn, with the chain's length as fuel.
-/

namespace NowpConsensus

/-- One step back in the walk of `DarkGravityWave`: `assert(pindex->pprev); pindex =
pindex->pprev;` and then `while (pindex->IsProofOfStake() != fProofOfStake) { pindex =
pindex->pprev; assert(pindex); }`. -/
def DGWStep (fProofOfStake : Bool) : BlockPtr → Except Abort BlockPtr
  | [] => .error .nullDeref
  | [_] => .error .assertion
  | _ :: pprev =>
    match pprev.dropWhile (fun b => b.isProofOfStake != fProofOfStake) with
    | [] => .error .assertion
    | pindex => .ok pindex

/-- The loop `for (nCountBlocks = 1; nCountBlocks <= nPastBlocks; nCountBlocks++)` of
`DarkGravityWave`, on the turns left, the counter, `pindex` and `bnPastTargetAvg`. It returns the
last `pindex` read and the running value. -/
def DGWLoop (fProofOfStake : Bool) (nPastBlocks : Nat) :
    Nat → Nat → BlockPtr → arith_uint512 → Except Abort (BlockPtr × arith_uint512)
  | 0, _, pindex, bnPastTargetAvg => .ok (pindex, bnPastTargetAvg)
  | turns + 1, nCountBlocks, pindex, bnPastTargetAvg =>
    match pindex with
    | [] => .error .nullDeref
    | b :: _ => do
      let bnTarget := arith_uint512.ofArith256 (arith_uint256.SetCompact b.nBits).1
      let bnPastTargetAvg ← if nCountBlocks = 1 then pure bnTarget else
        base_uint.div (bnPastTargetAvg * BitVec.ofNat 512 nCountBlocks + bnTarget)
          (BitVec.ofNat 512 (nCountBlocks + 1))
      let pindex ← if nCountBlocks ≠ nPastBlocks then DGWStep fProofOfStake pindex
        else pure pindex
      DGWLoop fProofOfStake nPastBlocks turns (nCountBlocks + 1) pindex bnPastTargetAvg

/-- `DarkGravityWave(pindexLast, params, fProofOfStake)`. -/
def DarkGravityWave (params : Params) (pindexLast : BlockPtr) (fProofOfStake : Bool) :
    Except Abort UInt32 :=
  let bnPowLimit := UintToArith256 params.powLimit
  let nPastBlocks := params.DGWBlocksAvg
  match pindexLast with
  | [] => .ok (arith_uint256.GetCompact bnPowLimit)
  | last :: _ =>
    if last.nHeight < nPastBlocks then .ok (arith_uint256.GetCompact bnPowLimit) else do
    let (pindex, bnPastTargetAvg) ←
      DGWLoop fProofOfStake nPastBlocks.toNat nPastBlocks.toNat 1 pindexLast 0
    match pindex with
    | [] => .error .nullDeref
    | first :: _ =>
      let nActualTimespan := last.getBlockTime - first.getBlockTime
      let nTargetTimespan := nPastBlocks *
        (if fProofOfStake then params.nStakeTargetSpacing else params.nPowTargetSpacing)
      -- once proof of stake is active the spacing of each type doubles
      let nTargetTimespan :=
        if last.nHeight > params.nPoSActivationHeight then nTargetTimespan * 2 else nTargetTimespan
      let nActualTimespan := if nActualTimespan < nTargetTimespan.tdiv 3
        then nTargetTimespan.tdiv 3 else nActualTimespan
      let nActualTimespan := if nActualTimespan > nTargetTimespan * 3
        then nTargetTimespan * 3 else nActualTimespan
      -- `operator*=(uint32_t)` takes the timespan as a 32-bit value
      let bnNew := bnPastTargetAvg * BitVec.ofNat 512 (nActualTimespan % 2 ^ 32).toNat
      let bnNew ← base_uint.div bnNew (base_uint.ofUInt64 (nTargetTimespan % 2 ^ 64).toNat)
      let bnFinal := arith_uint512.trim256 bnNew
      let bnFinal := if bnFinal = 0 || bnPowLimit < bnFinal then bnPowLimit else bnFinal
      .ok (arith_uint256.GetCompact bnFinal)

/-- The outer `while (pindex)` of `IsPosDGWenabled`, on fuel, the count and `pindex`: step to
`pprev`, skip to the next proof-of-stake block, and stop with `true` once more than
`nPowDGWHeight + 1` have been counted, or with `false` when the chain runs out. -/
def IsPosDGWenabled.loop (params : Params) : Nat → Int → BlockPtr → Bool
  | 0, _, _ => false
  | _ + 1, _, [] => false
  | fuel + 1, count, _ :: pprev =>
    match pprev.dropWhile (fun b => b.isProofOfStake != true) with
    | [] => false
    | pindex =>
      if count + 1 > params.nPowDGWHeight + 1 then true
      else IsPosDGWenabled.loop params fuel (count + 1) pindex

/-- `IsPosDGWenabled(pindexLast, params)`, from the value `DGWenabled` of its static before the
call: the answer, and the value of the static after the call. -/
def IsPosDGWenabled (params : Params) (DGWenabled : Bool) (pindexLast : BlockPtr) : Bool × Bool :=
  if DGWenabled then (true, true)
  else
    let r := IsPosDGWenabled.loop params pindexLast.length 0 pindexLast
    (r, r)

/-- The end of `GetNextTargetRequired`: cap the target at `powLimit` and compact it. -/
def GetNextTargetRequired.finish (params : Params) (bnNew : CBigNum) : UInt32 :=
  let bnNew := if bnNew > CBigNum.ofUint256 params.powLimit
    then CBigNum.ofUint256 params.powLimit else bnNew
  CBigNum.GetCompact bnNew

/-- `GetNextTargetRequired(pindexLast, fProofOfStake, params)`, from the value `DGWenabled` of
the static of `IsPosDGWenabled` before the call: the compact target, and the static after. -/
def GetNextTargetRequired (chainparams : CChainParams) (DGWenabled : Bool)
    (pindexLast : BlockPtr) (fProofOfStake : Bool) : Except Abort (UInt32 × Bool) :=
  let params := chainparams.consensus
  match pindexLast with
  | [] => .ok (arith_uint256.GetCompact (UintToArith256 params.powLimit), DGWenabled)
  | last :: _ =>
    match GetLastBlockIndex pindexLast fProofOfStake with
    | [] => .error .nullDeref
    | [_] => .ok (arith_uint256.GetCompact (UintToArith256 params.bnInitialHashTarget), DGWenabled)
    | prev :: prevPprev =>
      match GetLastBlockIndex prevPprev fProofOfStake with
      | [] => .error .nullDeref
      | [_] =>
        .ok (arith_uint256.GetCompact (UintToArith256 params.bnInitialHashTarget), DGWenabled)
      | prevPrev :: _ =>
        let nActualSpacing := prev.getBlockTime - prevPrev.getBlockTime
        let nHypotheticalSpacing := last.getBlockTime - prev.getBlockTime
        let nActualSpacing := if !fProofOfStake && nHypotheticalSpacing > nActualSpacing
          then nHypotheticalSpacing else nActualSpacing
        let bnNew := CBigNum.SetCompact prev.nBits
        if chainparams.strNetworkID != REGTEST then
          let nTargetSpacing :=
            if fProofOfStake then params.nStakeTargetSpacing * 2 else params.nPowTargetSpacing
          let nInterval := params.nTargetTimespan.tdiv nTargetSpacing
          let (enabled, DGWenabled) :=
            if fProofOfStake then IsPosDGWenabled params DGWenabled (prev :: prevPprev)
            else (false, DGWenabled)
          if (fProofOfStake && !enabled) || last.nHeight + 1 < params.nPowDGWHeight then do
            let bnNew := bnNew * ((nInterval - 1) * nTargetSpacing + nActualSpacing + nActualSpacing)
            let bnNew ← CBigNum.div bnNew ((nInterval + 1) * nTargetSpacing)
            pure (GetNextTargetRequired.finish params bnNew, DGWenabled)
          else do
            let nBits ← DarkGravityWave params (prev :: prevPprev) fProofOfStake
            pure (nBits, DGWenabled)
        else .ok (GetNextTargetRequired.finish params bnNew, DGWenabled)

end NowpConsensus
