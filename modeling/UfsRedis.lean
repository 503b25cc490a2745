import UfsRedis.Ot.SplitTp1
import UfsRedis.Ufs.Canonical
import UfsRedis.Protocol.Convergence
import UfsRedis.Protocol.Spaces
import UfsRedis.Protocol.ServerReports
import UfsRedis.Protocol.Attach
import UfsRedis.Protocol.Protective
import UfsRedis.Protocol.Persistence
import UfsRedis.Protocol.AofTruncated
import UfsRedis.Protocol.UnderFeed
import UfsRedis.Protocol.SelectedDb
import UfsRedis.Keyspace.Watch
import UfsRedis.Protocol.Propagation
import UfsRedis.Keyspace.BlockingRun
import UfsRedis.Cluster.ElectionSafety
import UfsRedis.Types.Intset
import UfsRedis.Keyspace.DictScanAll
import UfsRedis.Types.HllSparse
import UfsRedis.Types.Integers
import UfsRedis.Ufs.Simulation
import UfsRedis.Ufs.EdgeRefinement
import UfsRedis.Cluster.Query
import UfsRedis.Protocol.Backlog
import UfsRedis.Protocol.Inline
import UfsRedis.Protocol.Buffers
import UfsRedis.Types.SkiplistRank
import UfsRedis.Types.QuicklistRange
