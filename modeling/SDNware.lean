import SDNware.Lib.Frames
import SDNware.Lib.Farkas
import SDNware.Lib.Hose
import SDNware.Lib.Ring
import SDNware.Lib.Run
import SDNware.Lib.Loops
import SDNware.Lib.DirectMapped
import SDNware.Lib.Orbit
import SDNware.Lib.Walk
import SDNware.Lib.Trailing
import SDNware.Lib.Flow
import SDNware.Lib.Cut
import SDNware.Lib.Interleave
import SDNware.Lib.Circulation
import SDNware.Wire.Amount
import SDNware.Wire.Socket
import SDNware.Planner.Lp
import SDNware.Planner.Oblivious
import SDNware.Planner.Paths
import SDNware.Planner.Decompose
import SDNware.Planner.Conserve
import SDNware.Planner.Descent
import SDNware.Planner.Assign
import SDNware.Planner.Ports
import SDNware.Planner.Rules
import SDNware.Planner.RouteFile
import SDNware.Planner.Loss
import SDNware.Planner.Guarantee
import SDNware.Planner.Solvable
import SDNware.Planner.Discover
import SDNware.Host.Shm
import SDNware.Host.Client
import SDNware.Host.Forecast
import SDNware.Host.GidText
import SDNware.Host.Packets
import SDNware.Host.Pass
import SDNware.Host.Overrun
import SDNware.Host.DestCache
import SDNware.Host.Producers
import SDNware.Server.Topology
import SDNware.Server.Collector
import SDNware.Server.Updates
import SDNware.Server.Replay
import SDNware.Server.Rates
import SDNware.Server.Search
import SDNware.Server.SearchEnds
import SDNware.Server.Widest
import SDNware.Server.Router
import SDNware.Server.PairStep
import SDNware.Server.Controller
import SDNware.Server.Registered
import SDNware.Server.LinkBook
import SDNware.Server.LinkUndo
import SDNware.Server.Capacity
import SDNware.Server.Update
import SDNware.Server.Refused
import SDNware.Server.Evict
import SDNware.Server.Main
import SDNware.Server.Commute
import SDNware.Server.Forwarding
import SDNware.Server.Quiet
import SDNware.System.Delivery
import SDNware.System.Numbers
