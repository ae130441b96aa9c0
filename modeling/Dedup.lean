import Dedup.VisitedRefinement
import Dedup.ContentSoundness
import Dedup.WorkQueue
import Dedup.DuplicateLists
import Dedup.ParallelScan
import Dedup.SecondRun
import Dedup.ReportedTotals
import Dedup.CloneSafety
import Dedup.LinkAtomicity
import Dedup.SymlinkSafety
import Dedup.DryRun
import Dedup.CloneCompleteness
import Dedup.SavingsReport
import Dedup.LinkCompleteness
import Dedup.RelativeLinks
import Dedup.AccessRights
import Dedup.FailedClones
import Dedup.CompressedSources
import Dedup.FailedCloneIds
import Dedup.ParentMtime
import Dedup.Descriptors
import Dedup.ProgressBar
import Dedup.LazyHashing
import Dedup.SerialEquivalence
import Dedup.ScanTermination
import Dedup.SerialScan
import Dedup.ProgressEnd
import Dedup.LockedScan
import Dedup.WholeRun
import Dedup.MemoryAtExit
import Dedup.CommandLine
import Dedup.Invocation
