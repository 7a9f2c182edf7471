import Tgrep.Managed.Coverage
import Tgrep.Managed.PermitAccounting
import Tgrep.Managed.AdmissionBound
import Tgrep.Managed.ExactlyOnce
import Tgrep.Managed.CatalogSnapshot
import Tgrep.Managed.DeletionCredit
import Tgrep.Walk.Visibility
import Tgrep.Publish.AllOrNothing
import Tgrep.Serve.AutoSave
import Tgrep.Serve.HandoffKept
import Tgrep.Managed.ReceiptRuns
import Tgrep.FileTable.Grammar
import Tgrep.Encoding.Offsets
import Tgrep.Encoding.Checked
import Tgrep.Git.Split
import Tgrep.Serve.DaemonStop
import Tgrep.Query.Simplify
import Tgrep.Git.VarintExact
import Tgrep.Trigram.Merged
import Tgrep.Reader.PathOrder
import Tgrep.Reader.Snapshot
import Tgrep.Hybrid.Counts
import Tgrep.Build.Append
import Tgrep.Matching.Output
import Tgrep.Serve.ViewPages
import Tgrep.Build.ReadBudget
import Tgrep.Evidence.Persist
import Tgrep.FileTable.ExtraPaths
import Tgrep.Managed.AdaptiveRun
import Tgrep.Managed.ReconcileGates
import Tgrep.Worktrees.HintCover
import Tgrep.Managed.CollectionTraversal
import Tgrep.Managed.ProducerRecord
import Tgrep.Serve.ContentCache
import Tgrep.Serve.WatcherBurst
import Tgrep.Encoding.Mapped
import Tgrep.Serve.JobScheduler
import Tgrep.Serve.RemovalSweep
import Tgrep.Managed.ControlCredit
import Tgrep.External.ByteBuffer
import Tgrep.Serve.SavedSearch
