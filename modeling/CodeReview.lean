import CodeReview.Change.Manager
import CodeReview.Config.Source
import CodeReview.Document.Change
import CodeReview.Document.Review
import CodeReview.Files.Disk
import CodeReview.Files.Fault
import CodeReview.Files.Memory
import CodeReview.LogFormat
import CodeReview.Proofs.Acceptance
import CodeReview.Proofs.AuditTrail
import CodeReview.Proofs.Batches
import CodeReview.Proofs.BlockEdits
import CodeReview.Proofs.Bookkeeping
import CodeReview.Proofs.FileByFile
import CodeReview.Proofs.FreshPaths
import CodeReview.Proofs.InTurn
import CodeReview.Proofs.KeyFindings
import CodeReview.Proofs.LateUndo
import CodeReview.Proofs.NothingLost
import CodeReview.Proofs.OldestFirst
import CodeReview.Proofs.Replay
import CodeReview.Proofs.ReverseEdits
import CodeReview.Proofs.RunTelemetry
import CodeReview.Proofs.SafeUndo
import CodeReview.Proofs.Selection
import CodeReview.Proofs.Shuffles
import CodeReview.Proofs.Summaries
import CodeReview.Proofs.Terminators
import CodeReview.Proofs.Trials
import CodeReview.Proofs.UndoTarget
import CodeReview.Proofs.WithinLimit
import CodeReview.Proofs.WorkerSlots
import CodeReview.Registry
import CodeReview.Run.Cancellation
import CodeReview.Run.Review
import CodeReview.Step.Script
import CodeReview.Version
