import FuTrader.Lib.Machine
import FuTrader.Lib.Counter
import FuTrader.Channel.Mpsc
import FuTrader.Lib.TicketRing
import FuTrader.Channel.Tickets
import FuTrader.Channel.Wrap
import FuTrader.Channel.Delivery
import FuTrader.Channel.Ownership
import FuTrader.Channel.Calls
import FuTrader.Channel.FullCheck
import FuTrader.Channel.Admission
import FuTrader.Channel.Wakeup
import FuTrader.Channel.Accounting
import FuTrader.Common.Data
import FuTrader.StraCta.DualThrust
import FuTrader.Engine.CtaEngine
import FuTrader.Engine.Channel
import FuTrader.Engine.Accounting
import FuTrader.Engine.Ordering
import FuTrader.Engine.Serial
import FuTrader.Channel.Outstanding
import FuTrader.Engine.Shutdown
import FuTrader.Engine.Stranded
import FuTrader.Channel.Spsc
import FuTrader.Channel.Linearization
import FuTrader.Channel.Quiescence
import FuTrader.BtMd.Query
import FuTrader.BtMd.Rows
import FuTrader.Lib.Runs
import FuTrader.Parser.BarGenerator
import FuTrader.Parser.Bars
import FuTrader.Parser.Volume
import FuTrader.Ctp.Api
import FuTrader.Ctp.TdClient
import FuTrader.Ctp.MdClient
import FuTrader.Ctp.TdRuns
import FuTrader.Ctp.Waiting
import FuTrader.Ctp.MdRuns
import FuTrader.Ctp.Releases
import FuTrader.Ctp.Early
import FuTrader.Lib.SlidingWindow
import FuTrader.Operator.Rolling
import FuTrader.StraCta.Aberration
import FuTrader.StraCta.Position
import FuTrader.Lib.Moments
import FuTrader.Operator.Exact
import FuTrader.StraCta.Breakout
import FuTrader.StraCta.Bands
import FuTrader.StraCta.Affine
import FuTrader.Parser.StringParser
import FuTrader.Parser.TimeStamp
import FuTrader.Ctp.Ticks
import FuTrader.Engine.Routing
import FuTrader.BtMd.Subscribe
import FuTrader.Ctp.Login
import FuTrader.Ctp.Session
import FuTrader.Lib.OneEntryCache
import FuTrader.Parser.DayCache
import FuTrader.Parser.Conserved
import FuTrader.Operator.Container
import FuTrader.Operator.Statistics
import FuTrader.Engine.Strategies
import FuTrader.Engine.Positions
import FuTrader.BtMd.Delivered
import FuTrader.Channel.SingleProducer
import FuTrader.Engine.InTurn
import FuTrader.StraCta.StopLoss
import FuTrader.Engine.OneWorker
import FuTrader.Parser.Coarser
import FuTrader.Parser.StampOrder
import FuTrader.Ctp.Live
import FuTrader.Engine.Outcomes
import FuTrader.Engine.Tasks
import FuTrader.Parser.FutureSymbol
import FuTrader.Ctp.Requests
import FuTrader.Channel.MpscTest
import FuTrader.Channel.MpscTestEnd
import FuTrader.Engine.ZmqSocket
