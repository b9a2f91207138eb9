import Persista.Lib.Dict
import Persista.Lib.Interleaving
import Persista.Lib.Refinement
import Persista.Lib.Delimited
import Persista.Lib.LockOrder
import Persista.Lib.Base64
import Persista.Lib.Heap
import Persista.Lib.Lru
import Persista.Lib.SharedTree
import Persista.Lib.StrictAccess
import Persista.Lib.Utf8
import Persista.Lib.Percent
import Persista.Lib.Snapshot
import Persista.Lib.Pushdown
import Persista.Lib.PointerForest
import Persista.Lib.Grouping
import Persista.Lib.Tally
import Persista.Lib.Float64
import Persista.Store.Validation
import Persista.Store.Contents
import Persista.Store.Rows
import Persista.Store.FileTasks
import Persista.Store.InMemory
import Persista.Store.Sqlite
import Persista.Store.Consistency
import Persista.Store.SqliteTasks
import Persista.Store.SqliteFailure
import Persista.Store.SqliteRows
import Persista.Json.Value
import Persista.Json.Dumps
import Persista.Json.Equality
import Persista.Store.Typed
import Persista.Store.Paging
import Persista.Store.SqliteCoherence
import Persista.Store.RowOrder
import Persista.Store.Iteration
import Persista.Store.Aliasing
import Persista.Store.Isolation
import Persista.Store.Batches
import Persista.Store.FieldName
import Persista.Store.SqlFragments
import Persista.Store.TypedSchema
import Persista.Record.Filter
import Persista.Record.HyperLogLog
import Persista.Record.Dedup
import Persista.Record.UnionFind
import Persista.Record.NearDedup
import Persista.Record.Objects
import Persista.Record.MetadataStats
import Persista.Record.MetadataReference
import Persista.Record.ValueFrequency
import Persista.Store.FieldFilters
import Persista.Store.DuckDbFilter
import Persista.Store.PostgresFilter
import Persista.Cache.Cache
import Persista.Cache.Ttl
import Persista.Cache.Tasks
import Persista.Cache.Memoize
import Persista.Store.Redis
import Persista.Store.RedisSerializable
import Persista.Store.RedisInvariant
import Persista.Store.PostgresSessions
import Persista.Store.PostgresSerializable
import Persista.Store.PostgresTasks
import Persista.Store.PostgresReaders
import Persista.Store.PostgresDeadlock
import Persista.Http.Entry
import Persista.Http.Client
import Persista.Http.Retry
import Persista.Http.Settings
import Persista.Store.Lmdb
import Persista.Store.KeySnapshot
import Persista.Store.ClosedStore
import Persista.Store.RedisBatch
import Persista.Store.ItemByItem
import Persista.Store.Lifecycle
import Persista.Cache.Batched
import Persista.Cache.Serializable
import Persista.Cache.Keys
import Persista.Cache.Objects
import Persista.Cache.Pickle
import Persista.Uri.Urllib
import Persista.Uri.PathUri
import Persista.Uri.Libpq
import Persista.Uri.LibpqStore
import Persista.Uri.PostgresUri
import Persista.Uri.PostgresReading
import Persista.Uri.PostgresRoundTrip
import Persista.Uri.SqliteUri
import Persista.Store.FileKeys
import Persista.Lib.Indistinguishable
import Persista.Store.BaseStore
import Persista.Store.TableStore
import Persista.Store.Backends
import Persista.Record.RecordStore
import Persista.Record.Diff
import Persista.Cache.AsyncMemoize
import Persista.Cache.OverStore
import Persista.Cache.MemoizeOver
import Persista.Store.SetBatches
import Persista.Lib.StableSort
import Persista.Record.Sort
import Persista.Record.SchemaShapes
import Persista.Uri.Registry
import Persista.Http.Session
import Persista.Http.Stampede
import Persista.Lib.Scan
import Persista.Store.FileScan
import Persista.Cache.Split
import Persista.Store.RedisShared
import Persista.Record.References
