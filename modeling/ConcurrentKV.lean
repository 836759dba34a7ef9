import ConcurrentKV.WalSession
import ConcurrentKV.GroupCommit
import ConcurrentKV.PowerLoss
import ConcurrentKV.RestartOffsets
import ConcurrentKV.FailedRecords
import ConcurrentKV.PersistenceReset
import ConcurrentKV.PartialReset
import ConcurrentKV.SnapshotCuts
import ConcurrentKV.LostWakeups
import ConcurrentKV.CheckpointTrigger
import ConcurrentKV.KVObjects
import ConcurrentKV.KVAtomicity
import ConcurrentKV.NoDeadlock
import ConcurrentKV.CheckpointViews
import ConcurrentKV.WalRotation
import ConcurrentKV.WalGenerations
import ConcurrentKV.WalChecksums
import ConcurrentKV.WalCheckpoints
import ConcurrentKV.TailRecovery
import ConcurrentKV.VerifiedSaves
import ConcurrentKV.SnapshotReplacement
import ConcurrentKV.RecordLimits
import ConcurrentKV.CliParser
import ConcurrentKV.CliTranscript
import ConcurrentKV.CheckpointLatch
import ConcurrentKV.ClearDurability
import ConcurrentKV.MovedFiles
