import Contextra.Attestation.Verification
import Contextra.Checkpoint.Orphans
import Contextra.Checkpoint.PinRuns
import Contextra.Checkpoint.TxIdRuns
import Contextra.DiskAnn.Refinement
import Contextra.Engine.LinkRuns
import Contextra.Erasure.GateCompaction
import Contextra.Erasure.JournalRuns
import Contextra.Erasure.OpenKeysRuns
import Contextra.Erasure.SagaRuns
import Contextra.Erasure.VaultRehashRuns
import Contextra.Graph.EdgeCascade
import Contextra.Graph.FindPath
import Contextra.Graph.HyperedgeCalls
import Contextra.Graph.HyperedgeIndexes
import Contextra.Graph.KPathSearch
import Contextra.Graph.SessionRuns
import Contextra.Graph.TraversalScores
import Contextra.KvCache.PrefixRuns
import Contextra.KvCache.TokenSequences
import Contextra.Mvcc.RegisterForgetting
import Contextra.Mvcc.SeqLogReplay
import Contextra.Mvcc.SnapshotPins
import Contextra.Mvcc.TxBufferFloor
import Contextra.Mvcc.TxBufferStatus
import Contextra.Rank.Conformal
import Contextra.Rank.DibudPrefix
import Contextra.Rank.Fusion
import Contextra.Rank.Isotonic
import Contextra.Shredding.RegistryRuns
import Contextra.Store.Exclusion
import Contextra.Store.FailedAppend
import Contextra.Store.GroupCommitSafety
import Contextra.Store.LsmPages
import Contextra.Store.ManifestRollover
import Contextra.Store.ManifestTasks
import Contextra.Store.MergeFolds
import Contextra.Store.PointReads
import Contextra.Store.SstableRoundTrip
import Contextra.Store.TenantIsolation
import Contextra.Store.WalBackupRuns
import Contextra.Store.WalEntryCodec
import Contextra.Store.WalSealed
import Contextra.Text.IndexStats
import Contextra.Text.Segmentations
import Contextra.Text.WandRuns
