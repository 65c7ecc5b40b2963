import Freycoin.Library.LittleEndian
import Freycoin.Pow.Retarget
import Freycoin.Pow.Header
import Freycoin.Pow.Logarithm
import Freycoin.Pow.CheckProofOfWork
import Freycoin.Pow.Miner
import Freycoin.Library.Simulation
import Freycoin.Library.KeyedUpdate
import Freycoin.Coins.Coin
import Freycoin.Coins.ViewCache
import Freycoin.Coins.ViewCacheSpec
import Freycoin.Coins.BatchWriteSpec
import Freycoin.Coins.Stack
import Freycoin.Coins.StackRefinement
import Freycoin.Validation.BlockCoins
import Freycoin.Library.FunctionUpdates
import Freycoin.Validation.TxEffect
import Freycoin.Validation.ConnectSpec
import Freycoin.Validation.DisconnectSpec
import Freycoin.Validation.BlockUndo
import Freycoin.Library.SortedNeighbors
import Freycoin.Net.TxRequest
import Freycoin.Net.TxRequestTable
import Freycoin.Net.TxRequestIndex
import Freycoin.Net.TxRequestSelect
import Freycoin.Library.PrefixCode
import Freycoin.Serialize.CompactSize
import Freycoin.Serialize.VarInt
import Freycoin.Pow.RetargetOrder
import Freycoin.Pow.NextDifficulty
import Freycoin.Pow.DifficultyOrder
import Freycoin.Pow.GapThreshold
import Freycoin.Gpu.FermatKernel
import Freycoin.Library.RelationOn
import Freycoin.Cluster.DepGraph
import Freycoin.Cluster.DepGraphSpec
import Freycoin.Cluster.DepGraphRuns
import Freycoin.Library.LucasSequence
import Freycoin.Library.StrongProbablePrime
import Freycoin.Pow.Primality
import Freycoin.Pow.PrimalitySpec
import Freycoin.Pow.NextPrime
import Freycoin.Library.MerkleTree
import Freycoin.Consensus.Merkle
import Freycoin.Consensus.MerkleComputation
import Freycoin.Library.BinaryCarry
import Freycoin.Consensus.MerkleComputationSpec
import Freycoin.Consensus.MerkleBlock
import Freycoin.Consensus.MerkleBlockSpec
import Freycoin.Library.AdditiveFold
import Freycoin.Address.Bech32
import Freycoin.Address.KeyIo
import Freycoin.Address.Bech32Spec
import Freycoin.Address.KeyIoSpec
import Freycoin.Cluster.FeeFracSpec
import Freycoin.Cluster.CompareChunksSpec
import Freycoin.Cluster.ClusterLinearize
import Freycoin.Cluster.FixLinearizationSpec
import Freycoin.Library.SignMagnitude
import Freycoin.Script.ScriptNum
import Freycoin.Script.ScriptNumSpec
import Freycoin.Library.RadixConversion
import Freycoin.Address.Base58
import Freycoin.Address.Base58Spec
import Freycoin.Address.Base58RoundTrip
import Freycoin.Library.BitString
import Freycoin.Library.FieldSum
import Freycoin.Library.StdBit
import Freycoin.Util.BitSet
import Freycoin.Util.BitSetSpec
import Freycoin.Util.MultiIntBitSetSpec
import Freycoin.Library.OrderedLoop
import Freycoin.Cluster.FeeFracGroup
import Freycoin.Cluster.CandidateFinder
import Freycoin.Cluster.AncestorCandidateSpec
import Freycoin.Cluster.LinearizationChunking
import Freycoin.Cluster.LinearizationChunkingSpec
import Freycoin.Cluster.IntersectPrefixesSpec
import Freycoin.Library.RingBuffer
import Freycoin.Util.VecDeque
import Freycoin.Util.VecDequeSpec
import Freycoin.Util.VecDequeRuns
import Freycoin.Util.InsecureRandom
import Freycoin.Cluster.SearchCandidateFinder
import Freycoin.Net.TxRequestReselect
import Freycoin.Net.TxRequestRuns
import Freycoin.Net.TxRequestTime
import Freycoin.Library.ClosedSets
import Freycoin.Library.FuelLoop
import Freycoin.Library.ListOrder
import Freycoin.Library.BackLinks
import Freycoin.Cluster.SearchCandidateSpec
import Freycoin.Cluster.SearchCandidateSteps
import Freycoin.Cluster.SearchCandidateRuns
import Freycoin.Cluster.Linearize
import Freycoin.Cluster.LinearizeSpec
import Freycoin.Cluster.MergeLinearizationsSpec
import Freycoin.Cluster.PostLinearize
import Freycoin.Cluster.PostLinearizeGroups
import Freycoin.Cluster.PostLinearizeSpec
import Freycoin.Serialize.BitStream
import Freycoin.Serialize.BitStreamSpec
import Freycoin.Util.GolombRice
import Freycoin.Util.GolombRiceSpec
import Freycoin.Util.FastRange
import Freycoin.Crypto.SipHash
import Freycoin.BlockFilter.GCSFilter
import Freycoin.BlockFilter.GCSFilterSpec
import Freycoin.Crypto.SipHashSpec
import Freycoin.Crypto.Sha256
import Freycoin.Crypto.Sha256Spec
