import TidesdbMysql.Txn.Atomicity
import TidesdbMysql.Txn.OwnWrites
import TidesdbMysql.Txn.Registration
import TidesdbMysql.Txn.StaleHandles
import TidesdbMysql.Txn.TwoPhase
import TidesdbMysql.Table.AutoIncrement
import TidesdbMysql.Table.BulkDelete
import TidesdbMysql.Table.Concurrent
import TidesdbMysql.Table.CorruptRows
import TidesdbMysql.Table.DupCache
import TidesdbMysql.Table.Estimate
import TidesdbMysql.Table.MultiRange
import TidesdbMysql.Table.RowIds
import TidesdbMysql.Table.SingleDelete
import TidesdbMysql.Table.SortKeyParts
import TidesdbMysql.Table.WriteErrors
import TidesdbMysql.Row.BlobPointers
import TidesdbMysql.Spatial.Coordinates
import TidesdbMysql.Fts.Bounds
import TidesdbMysql.Fts.KeyNumbers
import TidesdbMysql.Fts.MetaReads
import TidesdbMysql.Fts.Normalised
import TidesdbMysql.Fts.Phrase
import TidesdbMysql.Ddl.AlterRollback
import TidesdbMysql.Ddl.Binding
import TidesdbMysql.Ddl.Open
import TidesdbMysql.Ddl.Reconcile
import TidesdbMysql.Ddl.Truncate
import TidesdbMysql.Ddl.UniqueBuild
import TidesdbMysql.Lock.Coverage
import TidesdbMysql.Lock.Deadlock
import TidesdbMysql.Lock.Lifecycle
import TidesdbMysql.Lock.Wakeup
import TidesdbMysql.Backup.Paths
import TidesdbMysql.Crypt.MasterKey
import TidesdbMysql.Perf.Ring
