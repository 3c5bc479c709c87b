import NowpConsensus.Primitives.Transaction

/-!
# Blocks

The data model of `primitives/block.h`: the block header with the fork's `nFlags` field, which
peers send beside the header (it is not part of the hashed bytes), and the block with its
transactions and signature. A block's type is read in two ways in the code: from its body
(`CBlock::IsProofOfStake`, a coinstake at position 1) and from the header's flag
(`nFlags & BLOCK_PROOF_OF_STAKE`); `Validation/AcceptBlock.lean` is about whether they agree.
-/

namespace NowpConsensus

/-- `CBlockIndex::BLOCK_PROOF_OF_STAKE`, the bit of `nFlags` that marks a proof-of-stake block. -/
def BLOCK_PROOF_OF_STAKE : UInt32 := 1

/-- `CBlockHeader`. -/
structure CBlockHeader where
  nVersion : Int32
  hashPrevBlock : uint256
  hashMerkleRoot : uint256
  nTime : UInt32
  nBits : UInt32
  nNonce : UInt32
  /-- The copy of the sender's block index flags, read only in `SER_POSMARKER` streams. -/
  nFlags : UInt32
  deriving DecidableEq, Repr

/-- `CBlockHeader::GetBlockTime`. -/
def CBlockHeader.getBlockTime (h : CBlockHeader) : Int := h.nTime.toNat

/-- Whether the header's flags mark it proof-of-stake: `nFlags & BLOCK_PROOF_OF_STAKE`. -/
def CBlockHeader.flagsProofOfStake (h : CBlockHeader) : Bool :=
  h.nFlags &&& BLOCK_PROOF_OF_STAKE != 0

/-- `CBlock`: a header, the transactions, and the block signature. -/
structure CBlock where
  header : CBlockHeader
  vtx : List CTransaction
  vchBlockSig : List UInt8
  deriving DecidableEq, Repr

namespace CBlock

/-- `CBlock::IsProofOfStake`: the body has a coinstake at position 1. -/
def isProofOfStake (b : CBlock) : Bool :=
  match b.vtx with
  | _ :: tx :: _ => tx.isCoinStake
  | _ => false

/-- `CBlock::IsProofOfWork`. -/
def isProofOfWork (b : CBlock) : Bool := !b.isProofOfStake

/-- `CBlock::GetBlockTime`. -/
def getBlockTime (b : CBlock) : Int := b.header.getBlockTime

end CBlock

end NowpConsensus
