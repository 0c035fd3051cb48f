import Evtsim.TcpServer
import Evtsim.Packets
import Evtsim.Memory
import Evtsim.OwnBytes
import Evtsim.Ouch.Ledger
import Evtsim.Ouch.Tokens
import Evtsim.Ouch.Replace
import Evtsim.Ouch.Modify
import Evtsim.Ouch.CountedCancels
import Evtsim.Boe.Sequence
import Evtsim.Boe.Rekey
import Evtsim.Boe.Retire
import Evtsim.Boe.Identity
import Evtsim.Boe.Answers
import Evtsim.DeadOrders
import Evtsim.LoginGate
import Evtsim.BehaviorManager
import Evtsim.Simulator
import Evtsim.Execution
import Evtsim.Ouch.Accepted
import Evtsim.Ouch.Expiry
import Evtsim.Ouch.Replacement
import Evtsim.UnknownTokens
import Evtsim.Ouch.Filling
import Evtsim.Boe.Filling
import Evtsim.Filling
import Evtsim.Ouch.Frame
import Evtsim.Ouch.Batches
import Evtsim.Ouch.SellSide
import Evtsim.Ouch.Lifetime
import Evtsim.Ouch.CancelReasons
import Evtsim.Ouch.MinQty
import Evtsim.Ouch.Echo
import Evtsim.AdminCommands
import Evtsim.CancelAll
import Evtsim.Boe.Removal
import Evtsim.Boe.Cancels
import Evtsim.Ouch.LoginNumbers
import Evtsim.Ouch.Prices
import Evtsim.Ouch.LogText
import Evtsim.Ouch.LogFields
import Evtsim.Boe.LogText
import Evtsim.Clients
import Evtsim.Overflow
import Evtsim.System
import Evtsim.Boe.Member
