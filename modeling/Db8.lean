import Db8.Core.MojObjectSerialization
import Db8.Core.MojJson
import Db8.Db.MojDbIndexUpdate
import Db8.Db.MojDbQueryCovers
import Db8.Lib.SortedMap
import Db8.Db.MojDbQueryOrder
import Db8.Db.MojDbWatcher
import Db8.Db.MojDbIndexWatch
import Db8.Db.MojDbWatcherRun
import Db8.Db.MojDbQuotaRun
import Db8.Db.MojDbQueryPlanAsserts
import Db8.Db.MojDbKindStateRun
import Db8.Db.MojDbObjectHeader
import Db8.Db.MojDbPermissionRun
import Db8.Db.MojDbKindConfigRun
import Db8.Db.MojDbIsamQueryPlan
import Db8.Db.MojDbKindGraph
import Db8.Db.MojDbKindGraphLists
import Db8.Db.MojDbKindGraphRun
import Db8.Db.MojDbKindGraphDb
import Db8.Engine.MojDbLevelTxnCursor
import Db8.Engine.MojDbLevelSeq
import Db8.Engine.MojDbEnvTxn
import Db8.Core.MojSignal
import Db8.Core.MojMessageDispatcher
import Db8.Db.MojDbShardEngine
import Db8.Db.MojDbKindIdsRun
import Db8.Db.MojDbQuotaUsageRun
import Db8.Db.MojDbMerge
import Db8.Core.MojObjectFilterInit
import Db8.Db.MojDbCursor
import Db8.Db.MojDbRevisionSetRun
import Db8.Db.MojDbQueryClauses
import Db8.Db.MojDbQueryFilter
import Db8.Db.MojDbAggregateFilter
import Db8.Db.MojBase64
import Db8.Core.MojSchemaRules
import Db8.Core.MojSchema
import Db8.Core.MojSchemaMeaning
import Db8.Core.MojSchemaLoops
import Db8.Core.MojSchemaValidate
import Db8.Db.MojDbShardIds
import Db8.Db.MojDbShardPaths
import Db8.Db.MojDbExtractorPaths
import Db8.Core.MojNumberValue
import Db8.Db.MojDbIsamQueryItem
import Db8.Db.MojDbData
import Db8.Db.MojDbPurge
import Db8.Db.MojDbPurgeRun
import Db8.Db.MojDbPurgeFind
import Db8.Db.MojDbPurgeSpec
import Db8.Db.MojDbPurgeShards
import Db8.Db.MojDbDataRun
import Db8.Db.MojDbPermissionCheck
import Db8.Db.MojDbLoadPath
import Db8.Db.MojDbMediaHandler
import Db8.Db.MojDbIsamQueryCount
import Db8.Db.MojDbIsamQueryPages
import Db8.Db.MojDbFindObjects
import Db8.Db.MojDbDump
import Db8.Db.MojDbDumpPass
import Db8.Db.MojDbDumpPages
import Db8.Db.MojDbDumpRun
import Db8.Engine.MojDbLevelDatabase
import Db8.Engine.MojDbLevelDatabaseRun
import Db8.Core.MojUtil
import Db8.Core.MojJsonCode
import Db8.Db.MojDbQueryObject
import Db8.Db.MojDbSearchCursor
import Db8.Db.MojDbSearchCache
import Db8.Lib.Paged
import Db8.Db.MojDbKeyBuilder
import Db8.Db.MojDbKeyRange
import Db8.Db.MojDbAssignIds
import Db8.Core.MojJsonParserBegin
import Db8.Core.MojJsonText
import Db8.Core.MojJsonTextNumber
import Db8.Core.MojJsonTextParse
import Db8.Core.MojJsonTextSpec
import Db8.Core.MojRbTreeBase
import Db8.Core.MojRbTreeRun
import Db8.Db.MojDbLoadFile
import Db8.Db.MojDbLoadFileSpec
import Db8.Db.MojDbSpaceAlert
import Db8.Core.MojHashBaseRun
import Db8.Engine.MojDbSandwichSync
import Db8.Core.MojBufferRun
import Db8.Core.MojVectorRun
