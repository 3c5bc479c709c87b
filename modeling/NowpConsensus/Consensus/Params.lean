import NowpConsensus.Primitives.Block

/-!
# Chain parameters

The consensus parameters of `consensus/params.h` that the modelled code reads, and the chain
parameters of `chainparams.cpp` around them (network name, checkpoints, genesis header).

`Params` carries, as fields, the positivity of the spacings, the timespan and the averaging
window, and that they fit the code's integer types (`int` for the window, and spacings small
enough that `DarkGravityWave`'s `int64_t` timespan cannot overflow): the retarget code divides
by them, and every network of `chainparams.cpp` sets them so. A parameter set that would make
the code divide by zero or overflow cannot be built.

`mainParams` is the main network's `CMainParams`.
-/

namespace NowpConsensus

/-- `Consensus::Params`, the fields the model reads. -/
structure Params where
  hashGenesisBlock : uint256
  powLimit : uint256
  bnInitialHashTarget : uint256
  nTargetTimespan : Int
  nStakeTargetSpacing : Int
  nPowTargetSpacing : Int
  nStakeMinAge : Int
  nStakeMaxAge : Int
  nCoinbaseMaturity : Int
  nSubsidyHalvingInterval : Int
  nPoSActivationHeight : Int
  nPowDGWHeight : Int
  DGWBlocksAvg : Int
  signet_blocks : Bool
  nTargetTimespan_pos : 0 < nTargetTimespan
  nStakeTargetSpacing_pos : 0 < nStakeTargetSpacing
  nPowTargetSpacing_pos : 0 < nPowTargetSpacing
  DGWBlocksAvg_pos : 0 < DGWBlocksAvg
  DGWBlocksAvg_lt : DGWBlocksAvg < 2 ^ 31
  nStakeTargetSpacing_lt : nStakeTargetSpacing < 2 ^ 31
  nPowTargetSpacing_lt : nPowTargetSpacing < 2 ^ 31

/-- `CBaseChainParams::REGTEST`. -/
def REGTEST : String := "regtest"

/-- `CChainParams`, the fields the model reads. -/
structure CChainParams where
  strNetworkID : String
  consensus : Params
  /-- `checkpointData.mapCheckpoints`, by increasing height. -/
  checkpoints : List (Int × uint256)
  genesis : CBlockHeader

/-- The main network's consensus parameters (`CMainParams`). -/
def mainConsensus : Params where
  hashGenesisBlock := 0x38d6ed3dd45e8dc1f1ad8454fceb20e3eba51f7c209635a40b333c3460b78e7c
  powLimit := 0x00ffffffffffffffffffffffffffffffffffffffffffffffffffffffffffffff
  bnInitialHashTarget := 0x00ffffffffffffffffffffffffffffffffffffffffffffffffffffffffffffff
  nTargetTimespan := 24 * 60 * 60
  nStakeTargetSpacing := 2 * 60
  nPowTargetSpacing := 2 * 60
  nStakeMinAge := 60 * 60 * 24 * 14
  nStakeMaxAge := 60 * 60 * 24 * 90
  nCoinbaseMaturity := 200
  nSubsidyHalvingInterval := 525600
  nPoSActivationHeight := 10000
  nPowDGWHeight := 60
  DGWBlocksAvg := 60
  signet_blocks := false
  nTargetTimespan_pos := by decide
  nStakeTargetSpacing_pos := by decide
  nPowTargetSpacing_pos := by decide
  DGWBlocksAvg_pos := by decide
  DGWBlocksAvg_lt := by decide
  nStakeTargetSpacing_lt := by decide
  nPowTargetSpacing_lt := by decide

/-- `CMainParams`. -/
def mainParams : CChainParams where
  strNetworkID := "main"
  consensus := mainConsensus
  checkpoints := [(0, 0x38d6ed3dd45e8dc1f1ad8454fceb20e3eba51f7c209635a40b333c3460b78e7c)]
  genesis :=
    { nVersion := 4, hashPrevBlock := 0,
      hashMerkleRoot := 0x81864e2ec060bdbe9393387ea0f28c729c4969da17a07075e9fe8602b6cab398,
      nTime := 1680357192, nBits := 0x20001fff, nNonce := 747, nFlags := 0 }

end NowpConsensus
