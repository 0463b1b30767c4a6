import CxlLite.Synchronous.Clocked
import CxlLite.Synchronous.Latch
import CxlLite.Synchronous.FirstMatch
import CxlLite.Synchronous.Mailbox
import CxlLite.Synchronous.Descent
import CxlLite.Synchronous.LeadsTo
import CxlLite.Storage.DirectMapped
import CxlLite.Storage.FlatMemory
import CxlLite.Storage.WriteBackCache
import CxlLite.Storage.OneAddress
import CxlLite.Storage.Sweep
import CxlLite.Mmio.Program
import CxlLite.Mmio.Logic
import CxlLite.Mmio.Timing
import CxlLite.Mmio.Passive
import CxlLite.Mmio.Lockstep
import CxlLite.Mmio.Beside
import CxlLite.Engine.State
import CxlLite.Engine.Step
import CxlLite.Engine.Run
import CxlLite.Engine.Slots
import CxlLite.Engine.Completion
import CxlLite.Engine.Progress
import CxlLite.Engine.Latency
import CxlLite.Engine.Channel
import CxlLite.Engine.BackInvalidate
import CxlLite.Engine.Memory
import CxlLite.Engine.ReadData
import CxlLite.Engine.Provenance
import CxlLite.Engine.Isolation
import CxlLite.Engine.Starvation
import CxlLite.Engine.WriteBack
import CxlLite.Engine.Residency
import CxlLite.Engine.Counters
import CxlLite.Engine.Bypass
import CxlLite.Engine.GlobalStall
import CxlLite.Shim.State
import CxlLite.Shim.Step
import CxlLite.Shim.Run
import CxlLite.Shim.Registers
import CxlLite.Shim.Alike
import CxlLite.Shim.Response
import CxlLite.Shim.Delivery
import CxlLite.Shim.Coherence
import CxlLite.Shim.Debt
import CxlLite.Shim.Stall
import CxlLite.Shim.Service
import CxlLite.Shim.Bias
import CxlLite.Shim.HostBias
import CxlLite.Shim.Reset
import CxlLite.Driver.DoReq
import CxlLite.Driver.Phases
import CxlLite.Driver.Refinement
import CxlLite.Driver.Termination
import CxlLite.Hps.Model
import CxlLite.Hps.Transaction
import CxlLite.Hps.Calls
import CxlLite.Hps.Routines
import CxlLite.Hps.Handshake
import CxlLite.Hps.Script
import CxlLite.Hps.Outstanding
import CxlLite.Hps.MaxOutstanding
import CxlLite.Hps.WorkingSet
import CxlLite.Hps.CacheTests
import CxlLite.Hps.Experiment
import CxlLite.Hps.Transparency
import CxlLite.Hps.RoundTrip
import CxlLite.Hps.Observer
import CxlLite.Hps.StaleResponse
import CxlLite.Hps.IssueOrder
import CxlLite.Hps.Uart
import CxlLite.Hps.BringUp
import CxlLite.Hps.FullAbstraction
