import Backfill.SortedMap.Lemmas
import Backfill.Chain
import Backfill.CommitLog.Source
import Backfill.Peers.Source
import Backfill.Settings
import Backfill.TimeSet.Json
import Backfill.Proofs.Coverage
import Backfill.Proofs.Conservation
import Backfill.Proofs.Slices
import Backfill.Proofs.DataActions
import Backfill.Proofs.DataWorkers
import Backfill.Proofs.DataRead
import Backfill.Proofs.Folds
import Backfill.Proofs.Segment
import Backfill.Proofs.Gathering
import Backfill.Proofs.Finishing
import Backfill.Proofs.Restoring
import Backfill.Proofs.NamespaceReads
import Backfill.Proofs.Overflow
import Backfill.Proofs.LogContents
import Backfill.Proofs.QueueAccounts
import Backfill.Proofs.QueueSchedules
import Backfill.Proofs.IndexMarks
import Backfill.Proofs.ReplayIndex
import Backfill.Proofs.PeerIndex
import Backfill.Proofs.IndexPartition
import Backfill.Proofs.Points
import Backfill.Proofs.ChainedData
import Backfill.Proofs.Findable
import Backfill.Proofs.IndexedEntries
import Backfill.Proofs.NormalReplay
import Backfill.Proofs.LastWrites
import Backfill.Proofs.SetAlgebra
import Backfill.Proofs.InstantSets
import Backfill.Proofs.Encoding
import Backfill.Proofs.Decoding
import Backfill.Proofs.ClockPoints
import Backfill.Proofs.LogMissing
import Backfill.Proofs.FlushHistory
import Backfill.Proofs.Durability
import Backfill.Proofs.Placement
import Backfill.Proofs.IndexDocuments
import Backfill.Proofs.Interleaving
import Backfill.Proofs.WorkerOrder
import Backfill.Proofs.PeerDocuments
import Backfill.Proofs.WillingDisk
import Backfill.Proofs.DeliveryModes
import Backfill.Proofs.PeerQuorum
import Backfill.Proofs.Strictness
import Backfill.Proofs.MergeLaws
import Backfill.Proofs.MadeReads
import Backfill.Proofs.ApartReads
import Backfill.Proofs.AbandonedIndex
import Backfill.Proofs.Tiling
import Backfill.Proofs.WindowGrid
import Backfill.Proofs.Bracketing
import Backfill.Proofs.FlushContents
import Backfill.Proofs.Registrations
import Backfill.Proofs.WindowFetches
import Backfill.Proofs.SaneTimes
import Backfill.Proofs.RepeatedIds
import Backfill.Proofs.Counters
import Backfill.Proofs.StableOrder
import Backfill.Proofs.Sweeps
import Backfill.Proofs.TimeTexts
import Backfill.Proofs.SetDocuments
