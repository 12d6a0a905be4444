import TradingPipeline.Foundation.Transition
import TradingPipeline.Foundation.BoundedFifo
import TradingPipeline.Foundation.Cursor
import TradingPipeline.Shmbus.Ring
import TradingPipeline.Shmbus.RingInvariant
import TradingPipeline.Foundation.Replay
import TradingPipeline.Shmbus.RingLinearization
import TradingPipeline.Shmbus.RingRestart
import TradingPipeline.Foundation.LittleEndian
import TradingPipeline.Shmbus.Message
import TradingPipeline.Engine.Strategy
import TradingPipeline.Foundation.Lanes
import TradingPipeline.Shmbus.Latency
import TradingPipeline.Engine.Threads
import TradingPipeline.Engine.Accounts
import TradingPipeline.Engine.Conservation
import TradingPipeline.Engine.Agreement
import TradingPipeline.Engine.OrderIds
import TradingPipeline.Engine.Rounds
import TradingPipeline.Engine.Shutdown
import TradingPipeline.Feedhandler.Completions
import TradingPipeline.Feedhandler.Pipeline
import TradingPipeline.Foundation.Shell
import TradingPipeline.Scripts.HostPrep
import TradingPipeline.Shmbus.Initialisation
import TradingPipeline.Engine.Outcomes
import TradingPipeline.Feedhandler.InFlight
import TradingPipeline.Engine.Cooldown
import TradingPipeline.Engine.Averages
import TradingPipeline.Engine.Signal
import TradingPipeline.Engine.HalfLife
import TradingPipeline.Foundation.OrderStatistic
import TradingPipeline.Shmbus.Histogram
import TradingPipeline.Shmbus.Quantile
import TradingPipeline.Shmbus.Recovery
import TradingPipeline.Shmbus.Attach
import TradingPipeline.Foundation.Trim
import TradingPipeline.Shmbus.Cpu
import TradingPipeline.Shmbus.CpuParse
import TradingPipeline.Shmbus.CpuRender
import TradingPipeline.Foundation.Pacing
import TradingPipeline.MockExchange.Quotes
import TradingPipeline.MockExchange.Loop
import TradingPipeline.MockExchange.Pacing
import TradingPipeline.MockExchange.Reversion
import TradingPipeline.Foundation.Python
import TradingPipeline.Scripts.CpuLists
import TradingPipeline.Scripts.ReadersAgree
import TradingPipeline.Foundation.Bits
import TradingPipeline.Scripts.CacheAlloc
import TradingPipeline.Scripts.IrqMask
import TradingPipeline.Scripts.Selectors
import TradingPipeline.Scripts.Bench
import TradingPipeline.Scripts.Teardown
import TradingPipeline.Shmbus.RingPending
import TradingPipeline.Bus.Calls
import TradingPipeline.Bus.Client
import TradingPipeline.Bus.Loop
import TradingPipeline.Bus.Delivery
import TradingPipeline.Bus.Modes
import TradingPipeline.Bus.World
import TradingPipeline.Shmbus.RingProgress
import TradingPipeline.Shmbus.Mapping
import TradingPipeline.Foundation.RoundRobin
import TradingPipeline.Scripts.Pinning
import TradingPipeline.Scripts.Placement
import TradingPipeline.Scripts.Schemata
import TradingPipeline.Engine.Inline
import TradingPipeline.Foundation.Memory
