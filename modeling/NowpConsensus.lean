import NowpConsensus.Lib.Abort
import NowpConsensus.Lib.Bytes
import NowpConsensus.Lib.Map
import NowpConsensus.Lib.Limbs
import NowpConsensus.Lib.Worklist
import NowpConsensus.Lib.OffsetNumeral
import NowpConsensus.Lib.Forest
import NowpConsensus.Lib.Codec
import NowpConsensus.Util.LruCache
import NowpConsensus.Util.FixedPoint
import NowpConsensus.Util.MoneyStr
import NowpConsensus.Primitives.Transaction
import NowpConsensus.Primitives.Block
import NowpConsensus.Primitives.Serialize
import NowpConsensus.Primitives.VarInt
import NowpConsensus.Primitives.TransactionCodec
import NowpConsensus.Script.SigHash
import NowpConsensus.Coins.CoinsView
import NowpConsensus.Coins.CoinsCache
import NowpConsensus.Coins.Compressor
import NowpConsensus.Arith.Uint256
import NowpConsensus.Arith.BigNum
import NowpConsensus.Arith.Compact
import NowpConsensus.Arith.BaseUint
import NowpConsensus.Arith.BaseUintRefine
import NowpConsensus.Consensus.Params
import NowpConsensus.Chain.BlockIndex
import NowpConsensus.Chain.Skip
import NowpConsensus.Chain.DiskBlockIndex
import NowpConsensus.Pow.Target
import NowpConsensus.Pow.TargetSpec
import NowpConsensus.Pow.DarkGravityWave
import NowpConsensus.Pow.PowCache
import NowpConsensus.Pow.HashSelection
import NowpConsensus.Validation.HeaderTree
import NowpConsensus.Validation.CheckBlock
import NowpConsensus.Consensus.Merkle
import NowpConsensus.Validation.ConnectBlock
import NowpConsensus.Validation.SequenceLocks
import NowpConsensus.Validation.DisconnectBlock
import NowpConsensus.Validation.UndoData
import NowpConsensus.Validation.Reorg
import NowpConsensus.Validation.Subsidy
import NowpConsensus.Index.TxIndex
import NowpConsensus.Kernel.ProofOfStake
import NowpConsensus.Kernel.StakeModifier
import NowpConsensus.Index.Node
import NowpConsensus.Wallet.CoinStake
import NowpConsensus.Node.Miner
import NowpConsensus.Script.SigOps
import NowpConsensus.Node.BlockAssembler
import NowpConsensus.Validation.ContextualCheckBlock
import NowpConsensus.Validation.AcceptBlock
