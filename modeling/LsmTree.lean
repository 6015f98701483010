import LsmTree.Property.OpenFiles
import LsmTree.Property.PoisonedReads
import LsmTree.Property.FlushRecovery
import LsmTree.Property.FailedCompaction
import LsmTree.Property.CompactionMerge
import LsmTree.Property.SnapshotLookup
import LsmTree.Property.RejectedWrites
import LsmTree.Property.UnreadableBlocks
import LsmTree.Property.LogDamage
import LsmTree.Property.RoutingStable
import LsmTree.Property.Rebalancing
import LsmTree.Property.RollbackIsolation
import LsmTree.Property.ReplicaAgreement
import LsmTree.Property.LinearizableRead
import LsmTree.Property.AtMostOnce
import LsmTree.Property.TableCachePins
import LsmTree.Property.CompactionPins
import LsmTree.Property.FlushDeadlock
import LsmTree.Property.StatusProbes
import LsmTree.Property.JournalBytes
import LsmTree.Property.MembershipAtomic
import LsmTree.Property.FailedSnapshot
import LsmTree.Property.RestoreCrash
import LsmTree.Property.TimeWindows
import LsmTree.Property.TieredReads
import LsmTree.Property.KnownPeers
import LsmTree.Property.MemtableOrder
import LsmTree.Property.LogBounds
import LsmTree.Property.FilterCopies
import LsmTree.Property.CachedBlocks
import LsmTree.Property.LevelBounds
import LsmTree.Property.BlockRestarts
import LsmTree.Property.LevelSearch
