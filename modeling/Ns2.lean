import Ns2.Mptcp.DataAck
import Ns2.Mptcp.Mapping
import Ns2.Mptcp.Subflow
import Ns2.Mptcp.Agent
import Ns2.Lib.Intervals
import Ns2.Tcp.Reass
import Ns2.Common.Scheduler
import Ns2.Lib.Stable
import Ns2.Common.CalendarQueue
import Ns2.Common.CalendarHead
import Ns2.Common.CalendarRefines
import Ns2.Mptcp.Output
import Ns2.Mptcp.Conservation
import Ns2.Mptcp.Assignment
import Ns2.Mptcp.Input
import Ns2.Mptcp.Transmission
import Ns2.Mptcp.Report
import Ns2.Mptcp.Round
import Ns2.Lib.Ring
import Ns2.Tcp.Acker
import Ns2.Common.SplayScheduler
import Ns2.Common.HeapScheduler
import Ns2.Common.HeapRefines
import Ns2.Mptcp.SendPacket
import Ns2.Tcp.DctcpSender
import Ns2.Lib.Echo
import Ns2.Tcp.DctcpReceiver
import Ns2.Tcp.DctcpEcho
import Ns2.Tcp.DctcpInput
import Ns2.Tcp.DctcpRun
import Ns2.Lib.Upsert
import Ns2.LinkState.Database
import Ns2.LinkState.MessageCenter
import Ns2.LinkState.Retransmission
import Ns2.LinkState.Routing
import Ns2.LinkState.Primitives
import Ns2.LinkState.Network
import Ns2.LinkState.Stored
import Ns2.LinkState.Acks
import Ns2.Lib.ShortestPath
import Ns2.Routing.RouteLogic
import Ns2.Routing.FlatRoutes
import Ns2.Lib.SignMask
import Ns2.Nix.Extract
import Ns2.Routealgo.Agreement
import Ns2.Lib.Cycle
import Ns2.Queue.Drr
import Ns2.Queue.DrrCounts
import Ns2.Queue.DrrRun
import Ns2.Queue.Red
import Ns2.Queue.RedDctcp
import Ns2.Queue.SemanticCounts
import Ns2.Dsdv.Agent
import Ns2.Dsdv.LoopFree
import Ns2.LinkState.ComputeRoutes
import Ns2.LinkState.RoutesCorrect
import Ns2.Aodv.Agent
import Ns2.Aodv.LoopFree
import Ns2.Lib.Forwarding
import Ns2.Routing.HierForwarding
import Ns2.Tcp.ReassemblyFlags
import Ns2.Dsdv.Wire
import Ns2.Sctp.NonReneg
import Ns2.Sctp.Streams
import Ns2.Sctp.GapAck
import Ns2.Sctp.Outstanding
import Ns2.Sctp.PeerRwnd
import Ns2.Lib.Extremum
import Ns2.Mptcp.Coupling
import Ns2.Mptcp.CouplingRun
import Ns2.Mptcp.Release
import Ns2.Lib.Tiling
import Ns2.Linux.NextRetran
import Ns2.Lib.Holes
import Ns2.Lib.Runs
import Ns2.Tcp.EcnGuard
import Ns2.Tcp.FullEcn
import Ns2.Tcp.OneWayEcn
import Ns2.Tcp.SackHole
import Ns2.Tcp.Sacker
import Ns2.Tcp.SackerEdges
import Ns2.Tcp.SackerRun
import Ns2.Tcp.ReassemblySack
import Ns2.Tcp.SackRun
import Ns2.Lib.Descent
import Ns2.Lib.ModRing
import Ns2.LinkState.RouteLoop
import Ns2.LinkState.RoutesFinish
import Ns2.Queue.DropTail
import Ns2.Queue.DropTailRun
import Ns2.Queue.DrrTurns
import Ns2.Queue.FlowHash
import Ns2.Queue.RedGentle
import Ns2.Queue.SfqRun
import Ns2.Tcp.NextHole
import Ns2.Tcp.RttUpdate
import Ns2.Tcp.SendTimes
import Ns2.Tcp.ScoreBoard
import Ns2.Tcp.ScoreBoardRing
import Ns2.Tcp.ScoreBoardRun
import Ns2.Dsr.CachePaths
import Ns2.Dsr.CacheRun
import Ns2.Aodv.Assertions
import Ns2.Aodv.RouteErrors
import Ns2.Common.CalendarRun
import Ns2.Common.HeapRun
import Ns2.Lib.BitField
import Ns2.Lib.Ruler
import Ns2.LinkState.MessageRun
import Ns2.LinkState.Newer
import Ns2.Queue.Srr
import Ns2.Queue.SrrMatrix
import Ns2.Queue.SrrService
import Ns2.Routealgo.Bfs
import Ns2.Routealgo.BfsShortest
import Ns2.Routing.Address
import Ns2.Routing.AddressRoundTrip
import Ns2.Routing.Growth
import Ns2.Mptcp.AckMapping
import Ns2.Aodv.PacketQueue
import Ns2.Aodv.PacketQueueRun
import Ns2.Dsr.CompressPath
import Ns2.Lib.Circular
import Ns2.Tcp.SlistBase
import Ns2.Tcp.SlistRun
import Ns2.Common.Filed
import Ns2.Common.SchedulersAgree
import Ns2.Lib.FifoServer
import Ns2.Link.Conservation
import Ns2.Link.Delivery
import Ns2.Link.DropTailLink
import Ns2.Nix.Forwarding
import Ns2.Sctp.Association
import Ns2.Sctp.OrderedAssociation
import Ns2.Tcp.OneWayConnection
import Ns2.Adc.Tbf
import Ns2.Lib.JumpAhead
import Ns2.Mptcp.EndToEnd
import Ns2.Queue.DrrFair
import Ns2.Tools.Rng
import Ns2.Tools.RngStreams
import Ns2.Aodv.Flooding
