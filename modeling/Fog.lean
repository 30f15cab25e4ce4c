import Fog.Lib.Run
import Fog.Lib.Refinement
import Fog.Lib.Store
import Fog.Lib.TreeIndex
import Fog.Lib.Cursor
import Fog.Lib.SortedSet
import Fog.Lib.SortedMap
import Fog.Lib.Except
import Fog.Lib.KeyedTable
import Fog.Lib.IndexWalk
import Fog.RecoveryDb.Types
import Fog.RecoveryDb.UserEvents
import Fog.RecoveryDb.EventStream
import Fog.RecoveryDb.IngestTables
import Fog.RecoveryDb.LostKeys
import Fog.View.BlockTracker
import Fog.View.DbPollWorker
import Fog.View.DbFetcher
import Fog.View.ETxOutStore
import Fog.Oram.OMap
import Fog.Oram.Storage
import Fog.Oram.Refinement
import Fog.Oram.Integrity
import Fog.KexRng.Buffered
import Fog.View.UserRngSet
import Fog.View.Polling
import Fog.View.HonestServer
import Fog.Ingest.RngStore
import Fog.Ingest.Enclave
import Fog.Ingest.ControllerState
import Fog.Ingest.Backup
import Fog.RecoveryDb.SqlRecoveryDb
import Fog.Ingest.Controller
import Fog.Ingest.Contiguity
import Fog.Ingest.Retirement
import Fog.RecoveryDb.Queries
import Fog.RecoveryDb.IngestableRanges
import Fog.Ingest.Invocations
import Fog.Deployment
import Fog.Paykit.CachedTxData
import Fog.Paykit.InputSelection
