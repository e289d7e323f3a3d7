import EthereumJS.Rlp.Hex
import EthereumJS.Patricia.Shape
import EthereumJS.Mpt.Full
import EthereumJS.Mpt.FixedLength
import EthereumJS.Mpt.Proof
import EthereumJS.Mpt.PartialUpdate
import EthereumJS.Mpt.ZeroElement
import EthereumJS.Statemanager.StorageProof
import EthereumJS.Vm.Conservation
import EthereumJS.Mpt.CheckpointRun
import EthereumJS.Blockchain.Atomic
import EthereumJS.Blockchain.Iterator
import EthereumJS.Binarytree.Proof
import EthereumJS.Block.WireForm
import EthereumJS.Tx.WireForm
import EthereumJS.Devp2p.Chunks
import EthereumJS.Client.Bookkeeping
import EthereumJS.E2store.ReadBack
import EthereumJS.Client.FetchRanges
import EthereumJS.Client.AccountCoverage
import EthereumJS.Blockchain.CliqueVotes
import EthereumJS.Evm.Journal
import EthereumJS.Util.BalSlots
import EthereumJS.Util.BalOrder
import EthereumJS.Client.SkeletonFill
import EthereumJS.Evm.RefundCounter
import EthereumJS.Evm.StateGas
import EthereumJS.Evm.ForwardedGas
import EthereumJS.Devp2p.Delivery
import EthereumJS.Client.JobsKept
import EthereumJS.Statemanager.StateMap
import EthereumJS.Vm.MinimumGas
import EthereumJS.Devp2p.Dpt
import EthereumJS.Client.ByteCodeFetcher
import EthereumJS.Common.HardforkBy
import EthereumJS.Statemanager.CodeLeaves
import EthereumJS.Client.AnnounceExact
import EthereumJS.E2store.UncompressStream
import EthereumJS.Client.SelectionExact
import EthereumJS.Block.FeeMarket
import EthereumJS.Tx.LegacySigning
import EthereumJS.Evm.ExecuteCreate
import EthereumJS.Evm.CachedDecoding
import EthereumJS.Util.BalFinal
import EthereumJS.Mpt.LockLeak
import EthereumJS.Util.BalRoundTrip
import EthereumJS.Mpt.Batch
import EthereumJS.Mpt.ValueRange
import EthereumJS.Evm.Arithmetic
import EthereumJS.Evm.TransientStorage
import EthereumJS.Mpt.KeyPaths
import EthereumJS.Mpt.StoredNodes
import EthereumJS.Mpt.PrunedRun
import EthereumJS.Evm.Memory
import EthereumJS.Devp2p.ForkIds
import EthereumJS.Statemanager.StateRoot
import EthereumJS.Statemanager.StorageCache
import EthereumJS.Evm.EofRun
import EthereumJS.Block.Commitment
import EthereumJS.Mpt.WalkController
