import CelestiaCore.BlockSync.Redo
import CelestiaCore.Consensus.Agreement
import CelestiaCore.Consensus.ReplayRuns
import CelestiaCore.Consensus.RoundTracking
import CelestiaCore.Consensus.WalRecords
import CelestiaCore.Evidence.Accusation
import CelestiaCore.Evidence.Identity
import CelestiaCore.Evidence.PoolRuns
import CelestiaCore.Light.TrustedStore
import CelestiaCore.Mempool.PeerIds
import CelestiaCore.Mempool.Reap
import CelestiaCore.Mempool.SeenAccounting
import CelestiaCore.Merkle.KeyPath
import CelestiaCore.Merkle.Parallel
import CelestiaCore.P2P.Multiplex
import CelestiaCore.P2P.PacketSize
import CelestiaCore.P2P.SecretStream
import CelestiaCore.Propagation.Haves
import CelestiaCore.Propagation.Unverified
import CelestiaCore.State.RollbackExact
import CelestiaCore.StateSync.SnapshotKey
import CelestiaCore.Types.ExistingValidators
import CelestiaCore.Types.RejectedVotes
import CelestiaCore.Types.ShareProofSound
