import Tpcc.Lib.Layout
import Tpcc.Lib.Program
import Tpcc.Lib.Congruential
import Tpcc.Lib.Lexicographic
import Tpcc.Keys
import Tpcc.Schemas
import Tpcc.Random
import Tpcc.Table
import Tpcc.Load
import Tpcc.Txn.NewOrder
import Tpcc.Txn.Delivery
import Tpcc.Txn.OrderStatus
import Tpcc.Txn.StockLevel
import Tpcc.Txn.Payment
import Tpcc.Loaded
import Tpcc.Client
import Tpcc.Tables
import Tpcc.LoadedTables
import Tpcc.Consistency.OrderIds
import Tpcc.Consistency.Ytd
import Tpcc.Consistency.History
import Tpcc.Consistency.OrderLines
import Tpcc.Consistency.NewOrders
import Tpcc.KeySpace
import Tpcc.Overrun
import Tpcc.RoundTrip
import Tpcc.NewOrderRows
import Tpcc.OrderIndex
import Tpcc.Consistency.LostUpdates
import Tpcc.Consistency.LineKeys
import Tpcc.CustomerData
import Tpcc.Consistency.HistoryRows
import Tpcc.Consistency.StockCounters
import Tpcc.Selection
import Tpcc.StockCount
import Tpcc.CustomerIndex
import Tpcc.Generator
import Tpcc.Rejection
import Tpcc.OrderCustomers
import Tpcc.PackedKeys
import Tpcc.Workgen
import Tpcc.NameOrder
import Tpcc.Lib.Simulation
import Tpcc.Backends
import Tpcc.RunTpcc
import Tpcc.Lib.Monitor
import Tpcc.ThreadPool
import Tpcc.PoolRest
import Tpcc.PushLoop
import Tpcc.Lib.Rows
import Tpcc.Consistency.Interleaved
import Tpcc.Lib.Ledger
import Tpcc.Consistency.Accounts
import Tpcc.Lib.Erasure
import Tpcc.Consistency.Readers
import Tpcc.Consistency.OrderLife
