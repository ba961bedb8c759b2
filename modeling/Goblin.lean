import Goblin.Admin.MigrationDB
import Goblin.Client.ISRUpdate
import Goblin.Client.LockRelease
import Goblin.Client.MiniTransaction
import Goblin.Client.Positions
import Goblin.Client.Retry
import Goblin.Client.RetryBudget
import Goblin.Client.Sharding
import Goblin.Engine.Indexes
import Goblin.Engine.Recovery
import Goblin.Engine.Refusal
import Goblin.Engine.Reported
import Goblin.Execution.Atomicity
import Goblin.Execution.TTLRenewal
import Goblin.Execution.TransErrors
import Goblin.Execution.Versions
import Goblin.ObjectManager.Consistency
import Goblin.ObjectManager.ShardOwner
import Goblin.ObjectStore.MigrationReport
import Goblin.ObjectStore.RouteHint
import Goblin.ObjectStore.RouteRefresh
import Goblin.ObjectStore.Scan
import Goblin.ObjectStore.Startup
import Goblin.ObjectStore.WatchSnapshot
import Goblin.Store.Coherence
import Goblin.Store.Decoders
import Goblin.Store.Eviction
import Goblin.Store.Metadata
import Goblin.Strategy.EvictionBatch
