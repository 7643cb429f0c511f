import PetPS.Lib.BitScan
import PetPS.Lib.Walk
import PetPS.Lib.Tally
import PetPS.Lib.Run
import PetPS.Lib.Threads
import PetPS.Lib.Cut
import PetPS.Lib.Bytes
import PetPS.Lib.CString
import PetPS.Lib.InsertMap
import PetPS.Lib.CountMap
import PetPS.Lib.Split
import PetPS.Lib.Batch
import PetPS.Lib.Simulate
import PetPS.Basic
import PetPS.PetHash.Chunk
import PetPS.PetHash.Table
import PetPS.PetHash.Slots
import PetPS.PetHash.Shape
import PetPS.PetHash.Chain
import PetPS.PetHash.Ops
import PetPS.PetHash.Insert
import PetPS.PetHash.Refine
import PetPS.PetHash.ForceSet
import PetPS.PetHash.ExpireInsert
import PetPS.PetHash.Migrate
import PetPS.PetHash.Reload
import PetPS.PetHash.Recovery
import PetPS.PetHash.Invariant
import PetPS.PetHash.Repair
import PetPS.PetHash.HashStores
import PetPS.PetHash.Probe
import PetPS.PetHash.ConcurrentSet
import PetPS.PetHash.MoveHome
import PetPS.PetHash.MigrationStores
import PetPS.PetHash.Readers
import PetPS.PetHash.SafeTurn
import PetPS.PetHash.MigratedLookups
import PetPS.Memory.BitMap
import PetPS.Memory.Pool
import PetPS.Memory.PoolInv
import PetPS.Memory.ChunkUse
import PetPS.Memory.PoolOps
import PetPS.Memory.PoolRun
import PetPS.Memory.PoolReopen
import PetPS.Memory.PoolExhaust
import PetPS.Memory.PoolCapacity
import PetPS.Memory.PoolStores
import PetPS.Memory.RegisterCenter
import PetPS.Memory.RegisterRun
import PetPS.Memory.RdmaRegion
import PetPS.Memory.RegisterAlign
import PetPS.Memory.RegisterLimit
import PetPS.Memory.SimpleMalloc
import PetPS.Epoch.Manager
import PetPS.Epoch.Reclaim
import PetPS.Epoch.Overwrite
import PetPS.PetKV.Model
import PetPS.PetKV.Blocks
import PetPS.PetKV.Update
import PetPS.PetKV.Run
import PetPS.PetKV.Restart
import PetPS.PetKV.Ownership
import PetPS.PetKV.Stores
import PetPS.PetKV.Crash
import PetPS.PetKV.Config
import PetPS.PetKV.Process
import PetPS.Ps.Server
import PetPS.Ps.Reply
import PetPS.Ps.Delivery
import PetPS.Ps.Polling
import PetPS.Ps.Client
import PetPS.Ps.Shards
import PetPS.Engine.PetEngine
import PetPS.Engine.Sizing
import PetPS.Engine.MapEngine
import PetPS.Benchmark.PetCursor
import PetPS.Benchmark.Renumbering
import PetPS.Benchmark.WordCount
import PetPS.Mayfly.MessageRing
import PetPS.Mayfly.SendRing
import PetPS.Mayfly.Barrier
import PetPS.Ps.LoadDB
import PetPS.Ps.Fetch
import PetPS.Mayfly.Keeper
import PetPS.Mayfly.Cluster
import PetPS.Mayfly.BringUp
import PetPS.Memory.PoolThreads
import PetPS.Memory.PoolContention
