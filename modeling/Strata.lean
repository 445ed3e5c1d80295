import Strata.Library.LittleEndian
import Strata.Library.System
import Strata.Library.Search
import Strata.Library.Layers
import Strata.AcceptedWrites
import Strata.WalFailures
import Strata.WalTruncation
import Strata.ManifestDamage
import Strata.ManifestFailures
import Strata.LogDamage
import Strata.CompactionDamage
import Strata.CompactionRounds
import Strata.Opening
import Strata.WalBounds
import Strata.LogBitFlips
import Strata.BurstDamage
import Strata.BlockCursor
import Strata.LruHistory
import Strata.MergingCursor
import Strata.VersionLookup
import Strata.ScanDamage
import Strata.TableFailures
import Strata.Sequences
import Strata.SkipListReaders
import Strata.SkipMemtable
import Strata.LogNumbers
import Strata.ReachableStates
import Strata.MapSemantics
import Strata.PowerFailures
import Strata.Threads
import Strata.DBCursor
import Strata.LiveIterators
import Strata.SyncedLogs
import Strata.RepeatedReplay
