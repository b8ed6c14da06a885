import NasdaqItch.Lib.Run
import NasdaqItch.Lib.Fair
import NasdaqItch.Lib.WordSum
import NasdaqItch.Lib.Rounding
import NasdaqItch.Lib.Nearest
import NasdaqItch.Lib.Binary64
import NasdaqItch.Lib.UnorderedMap
import NasdaqItch.Lib.Fifo
import NasdaqItch.Lib.RingWindow
import NasdaqItch.Lib.Atomic
import NasdaqItch.Lib.Istream
import NasdaqItch.Lib.BigEndian
import NasdaqItch.Lib.PrefixCode
import NasdaqItch.Basic
import NasdaqItch.OrderBook
import NasdaqItch.VWAPManager
import NasdaqItch.TypicalPrice
import NasdaqItch.ErroneousTrade
import NasdaqItch.Doubles
import NasdaqItch.Message
import NasdaqItch.BookStep
import NasdaqItch.VWAPStep
import NasdaqItch.Parse
import NasdaqItch.ByteOrder
import NasdaqItch.FileFeed
import NasdaqItch.Framing
import NasdaqItch.Reachable
import NasdaqItch.Faults
import NasdaqItch.Pipeline
import NasdaqItch.Mempool
import NasdaqItch.PoolThreads
import NasdaqItch.BlockReuse
import NasdaqItch.PoolQueue
import NasdaqItch.PooledPipeline
import NasdaqItch.Encoding
import NasdaqItch.Decoding
import NasdaqItch.PooledSimulation
import NasdaqItch.Termination
import NasdaqItch.Merge
import NasdaqItch.PeriodFiling
import NasdaqItch.PeriodClock
import NasdaqItch.SlotSummary
import NasdaqItch.SlotStatistics
import NasdaqItch.Report
import NasdaqItch.ExactReport
import NasdaqItch.TradedRange
import NasdaqItch.VolumeConservation
import NasdaqItch.ReferenceBook
import NasdaqItch.Tape
import NasdaqItch.TapeReport
import NasdaqItch.ExecutionPrice
import NasdaqItch.Noninterference
import NasdaqItch.LaterHours
import NasdaqItch.Names
import NasdaqItch.MarketClose
import NasdaqItch.LostTail
import NasdaqItch.WholeProgram
import NasdaqItch.LastSalePrice
import NasdaqItch.Calls
import NasdaqItch.BrokenTrade
