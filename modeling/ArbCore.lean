import ArbCore.Library.LabelledRun
import ArbCore.Library.LastWrite
import ArbCore.Library.ConversionChain
import ArbCore.Library.Oneshot
import ArbCore.Library.GreedyFill
import ArbCore.Library.GridRounding
import ArbCore.Library.DecimalArithmetic
import ArbCore.Library.BoundedChannel
import ArbCore.Orderbook.Types
import ArbCore.Orderbook.OrderBook
import ArbCore.Orderbook.Runs
import ArbCore.Marketdata.Manager
import ArbCore.Marketdata.ExchangeHistory
import ArbCore.Marketdata.TriView
import ArbCore.Strategy.Config
import ArbCore.Strategy.TriArbitrage
import ArbCore.Strategy.Routes
import ArbCore.Strategy.Detection
import ArbCore.Strategy.FairMarket
import ArbCore.Strategy.Planner
import ArbCore.Strategy.Engine
import ArbCore.Strategy.EngineSteps
import ArbCore.Strategy.ConcurrencyCap
import ArbCore.Strategy.Submission
import ArbCore.Strategy.LotRounding
import ArbCore.Strategy.SelfFinancing
import ArbCore.Strategy.PlanProfit
import ArbCore.Strategy.Depth
import ArbCore.Strategy.NotionalLimit
import ArbCore.Strategy.InvestedAmount
import ArbCore.Execution.Mock
import ArbCore.Execution.LegReports
import ArbCore.Execution.CancelStops
import ArbCore.Orderbook.ResyncFlag
import ArbCore.Marketdata.BufferedDeltas
import ArbCore.Marketdata.OverlappingReplay
import ArbCore.Adapters.BinanceSpot
import ArbCore.Marketdata.AdapterWiring
import ArbCore.Marketdata.StaleDeltas
import ArbCore.Marketdata.OneWorker
import ArbCore.Marketdata.ChannelOwnership
import ArbCore.Marketdata.WiredSymbols
import ArbCore.Marketdata.Forwarder
import ArbCore.Marketdata.SymbolIsolation
import ArbCore.Marketdata.SymbolAlone
import ArbCore.Library.KeyedFold
import ArbCore.Strategy.Reports
import ArbCore.Strategy.ReportOrder
import ArbCore.Execution.TakerPlans
import ArbCore.Execution.FullFills
import ArbCore.Execution.Completion
import ArbCore.Orderbook.PositiveSizes
import ArbCore.Marketdata.UpdateRanges
import ArbCore.Strategy.AcceptedFees
import ArbCore.Strategy.AcceptedLegs
import ArbCore.Strategy.Divisions
import ArbCore.Execution.EveryLeg
import ArbCore.Strategy.Accounting
import ArbCore.Strategy.TimeoutScans
import ArbCore.Strategy.PersistedFills
import ArbCore.Strategy.ExecutedPlans
import ArbCore.Strategy.AbandonedPlans
import ArbCore.Strategy.ReportedFills
import ArbCore.Execution.Executor
import ArbCore.Execution.LostCancels
import ArbCore.Orderbook.SnapshotCopy
import ArbCore.Orderbook.GapTolerance
import ArbCore.Orderbook.FillEstimate
import ArbCore.Orderbook.Slippage
import ArbCore.Strategy.LegExecution
import ArbCore.Strategy.ArbitrageFree
import ArbCore.Strategy.MonotoneDetection
import ArbCore.Strategy.LotRules
import ArbCore.Strategy.Replanning
import ArbCore.Marketdata.TriSubscription
import ArbCore.Marketdata.BookViews
import ArbCore.Strategy.RegisteredPlans
import ArbCore.Execution.Undisturbed
import ArbCore.Demo.TradingLoop
import ArbCore.Demo.LoopChannels
import ArbCore.Demo.LoopReports
import ArbCore.Demo.LoopOutcomes
import ArbCore.Library.Rest
import ArbCore.Demo.Rest
import ArbCore.Demo.StoredFills
import ArbCore.Adapters.Snapshots
import ArbCore.Demo.Gains
import ArbCore.Demo.Reconciliation
import ArbCore.Library.Attribution
import ArbCore.Strategy.TracedPlans
import ArbCore.Marketdata.Fetches
import ArbCore.Demo.DetectionPath
import ArbCore.Library.Backoff
import ArbCore.Adapters.ReconnectingSocket
import ArbCore.Adapters.DepthStreams
import ArbCore.Marketdata.WsClient
import ArbCore.Marketdata.WiredFeed
import ArbCore.Marketdata.WorkerInputs
import ArbCore.Marketdata.WiredBooks
import ArbCore.Marketdata.FeedRest
import ArbCore.Marketdata.ConvergingBooks
import ArbCore.Marketdata.LateStart
import ArbCore.Strategy.FineLots
import ArbCore.Demo.DemoGains
