import Itch.Framework.LinearProbing
import Itch.Framework.LinkedQueue
import Itch.Framework.Runs
import Itch.Framework.Binary64
import Itch.Framework.Binary64Error
import Itch.Framework.OrderedCode
import Itch.Framework.Frontier
import Itch.Framework.Consecutive
import Itch.Framework.Recovery
import Itch.Framework.Interruption
import Itch.Framework.Csv
import Itch.Book.OrderIndexMap
import Itch.Book.OrderIndexProbing
import Itch.Book.OrderList
import Itch.Book.L3Book
import Itch.Book.BookManager
import Itch.Wire.Parser
import Itch.Wire.RoundTrip
import Itch.Wire.Overlay
import Itch.Wire.Reencode
import Itch.Wire.Confinement
import Itch.Book.L3BookInvariant
import Itch.Book.L3BookRefinement
import Itch.Wire.Framing
import Itch.Wire.FilteredParse
import Itch.Wire.Diagnostics
import Itch.Book.BookManagerRouting
import Itch.Book.LimitOrderBook
import Itch.Book.LimitOrderBookRefinement
import Itch.Book.EnginesAgree
import Itch.Book.TradeTape
import Itch.Book.Directory
import Itch.Book.BookManagerRefinement
import Itch.Book.ShareConservation
import Itch.Book.OrderPool
import Itch.Book.OrderReplace
import Itch.Transport.Sequencing
import Itch.Transport.SoupBinTcp
import Itch.Transport.SoupBinSequence
import Itch.Transport.SoupBinRecovery
import Itch.Transport.SoupBinStream
import Itch.Transport.MoldUdp64
import Itch.Transport.Delivery
import Itch.Transport.Recovery
import Itch.Transport.Pcap
import Itch.Transport.PcapFrame
import Itch.Transport.PcapClassic
import Itch.Transport.PcapNg
import Itch.Transport.PcapNgContainment
import Itch.Transport.Captures
import Itch.Transport.ConsumerErrors
import Itch.Book.CapturedBooks
import Itch.Price
import Itch.Time
import Itch.Indicators
import Itch.Analytics.Bars
import Itch.Analytics.BarClocks
import Itch.Analytics.Auctions
import Itch.Analytics.Microstructure
import Itch.Analytics.TopOfBook
import Itch.Analytics.Vwap
import Itch.Export.CsvSink
import Itch.Export.ArrowExport
import Itch.Replay
import Itch.Tool.ItchTool
import Itch.Python.MessageIterator
import Itch.Python.MessageIteration
import Itch.Python.MessageParser
import Itch.Python.ProcessStream
import Itch.Python.SaveFile
