import EmbeddedKv.Library.Bytes
import EmbeddedKv.Library.Chunks
import EmbeddedKv.Library.Runs
import EmbeddedKv.Flash.Record
import EmbeddedKv.Flash.Buffer
import EmbeddedKv.Flash.File
import EmbeddedKv.Flash.Reading
import EmbeddedKv.Flash.Writer
import EmbeddedKv.Flash.Prefix
import EmbeddedKv.Flash.Ledger
import EmbeddedKv.Flash.Handover
import EmbeddedKv.Flash.Paths
import EmbeddedKv.Library.History
import EmbeddedKv.Store.Cache
import EmbeddedKv.Store.Sound
import EmbeddedKv.Store.Refinement
import EmbeddedKv.Store.Integrity
import EmbeddedKv.Store.Mutex
import EmbeddedKv.Store.Latest
import EmbeddedKv.Library.TwoTier
import EmbeddedKv.Tiers.KvDb
import EmbeddedKv.Tiers.Simulation
import EmbeddedKv.Tiers.ReadYourWrites
import EmbeddedKv.Library.Recency
import EmbeddedKv.Store.Recency
import EmbeddedKv.Tiers.Server
import EmbeddedKv.Tiers.Flush
import EmbeddedKv.Tiers.Window
import EmbeddedKv.Tiers.EvictAll
import EmbeddedKv.Tiers.Unevicted
import EmbeddedKv.Flash.Repair
import EmbeddedKv.Flash.Deserialize
import EmbeddedKv.Flash.Walk
import EmbeddedKv.Store.Open
import EmbeddedKv.Store.Ids
import EmbeddedKv.Store.Eviction
import EmbeddedKv.Store.Restart
import EmbeddedKv.Flash.Held
import EmbeddedKv.Store.Capacity
import EmbeddedKv.Flash.Wakeup
import EmbeddedKv.Store.Evicting
import EmbeddedKv.Library.Totals
import EmbeddedKv.Store.Disk
import EmbeddedKv.Store.Accounting
import EmbeddedKv.Tiers.Presence
import EmbeddedKv.Tiers.Reopened
import EmbeddedKv.Tiers.LeastUsed
import EmbeddedKv.Library.Decimal
import EmbeddedKv.Net.CString
import EmbeddedKv.Net.Query
import EmbeddedKv.Net.Grammar
import EmbeddedKv.Net.Encoding
import EmbeddedKv.Net.Commands
import EmbeddedKv.Net.MemLru
import EmbeddedKv.Net.Loop
import EmbeddedKv.Net.Reply
import EmbeddedKv.Net.BinarySafe
import EmbeddedKv.Net.Lengths
import EmbeddedKv.Net.OnlyFlash
import EmbeddedKv.Net.ReplyFits
import EmbeddedKv.Library.Chained
import EmbeddedKv.Library.Draining
import EmbeddedKv.Store.ExactEviction
import EmbeddedKv.Hash.Table
import EmbeddedKv.Tiers.Memory
import EmbeddedKv.Tiers.Fifo
import EmbeddedKv.Tiers.Damaged
import EmbeddedKv.Flash.ReadLoop
import EmbeddedKv.Hash.Buckets
import EmbeddedKv.Tiers.FifoFlush
import EmbeddedKv.Tiers.Budget
import EmbeddedKv.Store.FreshIds
import EmbeddedKv.Store.OneRecord
import EmbeddedKv.Net.Clients
import EmbeddedKv.Store.Descriptors
import EmbeddedKv.Library.Text
import EmbeddedKv.Config.Load
import EmbeddedKv.Config.Sizes
import EmbeddedKv.Config.LastLine
import EmbeddedKv.Config.Settings
import EmbeddedKv.Flash.Scatter
import EmbeddedKv.Flash.Torn
import EmbeddedKv.Flash.Burst
import EmbeddedKv.Store.Crash
import EmbeddedKv.Store.Paths
import EmbeddedKv.Store.Scratches
import EmbeddedKv.Store.Rounded
import EmbeddedKv.Tiers.Origin
import EmbeddedKv.Net.Wire
import EmbeddedKv.Net.Served
import EmbeddedKv.Net.Stalled
