import P2PoolObserver.Monero.Merkle
import P2PoolObserver.Sidechain.CompactFilling
import P2PoolObserver.Sidechain.PayoutKeys
import P2PoolObserver.Sidechain.WindowWeight
import P2PoolObserver.Sidechain.Shuffle
import P2PoolObserver.Sidechain.ShareList
import P2PoolObserver.Sidechain.SplitReward
import P2PoolObserver.Sidechain.DifficultySpec
import P2PoolObserver.Sidechain.Histories
import P2PoolObserver.Sidechain.PossibleUncles
import P2PoolObserver.Sidechain.Canonical
import P2PoolObserver.Sidechain.PowCheck
import P2PoolObserver.Sidechain.SeenBlocks
import P2PoolObserver.Sidechain.Queries
import P2PoolObserver.P2p.Broadcast
import P2PoolObserver.P2p.PendingConnections
import P2PoolObserver.P2p.BlockRequests
import P2PoolObserver.P2p.RequestedHashes
import P2PoolObserver.P2p.HandshakeAgreement
import P2PoolObserver.P2p.PeerSelection
import P2PoolObserver.P2p.HandshakeSoundness
import P2PoolObserver.Mempool.Reward
import P2PoolObserver.Mempool.Order
import P2PoolObserver.Mempool.PerfectSum
import P2PoolObserver.Types.DifficultyText
import P2PoolObserver.Utils.SplitWork
import P2PoolObserver.Sidechain.ConsensusId
import P2PoolObserver.Monero.RandomX
import P2PoolObserver.Cache.Legacy
import P2PoolObserver.Sidechain.KeyCaches
import P2PoolObserver.Mainchain.SeedHeights
import P2PoolObserver.Utils.NthElement
import P2PoolObserver.Sidechain.Lengths
import P2PoolObserver.Mempool.Clawback
import P2PoolObserver.Utils.ShortNumbers
import P2PoolObserver.Monero.Signature
import P2PoolObserver.P2p.Bans
