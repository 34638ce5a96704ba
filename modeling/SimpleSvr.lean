import SimpleSvr.Core.LTS
import SimpleSvr.Core.DList
import SimpleSvr.Core.Bytes
import SimpleSvr.Core.File
import SimpleSvr.L1Encoding.IOBufferRoundTrip
import SimpleSvr.L1Encoding.IOBufferBounds
import SimpleSvr.L1Encoding.IOBufferSeek
import SimpleSvr.L1Encoding.IOBufferDump
import SimpleSvr.L1Encoding.CharsetConversion
import SimpleSvr.L2Machine.TimerExact
import SimpleSvr.L2Machine.TimerEarly
import SimpleSvr.L2Machine.TimerIds
import SimpleSvr.L3Storage.BinlogRoundTrip
import SimpleSvr.L3Storage.BinlogReopen
import SimpleSvr.L3Storage.BinlogContain
import SimpleSvr.L3Storage.BinlogAtomic
import SimpleSvr.L3Storage.BinlogLifecycle
import SimpleSvr.L3Storage.BinlogErrors
import SimpleSvr.L3Storage.BinlogScale
import SimpleSvr.L3Storage.BinlogSeek
import SimpleSvr.L3Storage.BinlogOpen
import SimpleSvr.L3Storage.BinlogTorn
import SimpleSvr.L4Routing.ConsistentHash
import SimpleSvr.L4Routing.ConsistentHashLookup
import SimpleSvr.L4Routing.ConsistentHashAgree
import SimpleSvr.L4Routing.LoadBalanceRoute
import SimpleSvr.L4Routing.LoadBalanceReset
import SimpleSvr.L4Routing.LoadBalanceLoad
import SimpleSvr.Core.Urn
import SimpleSvr.L4Routing.LoadBalanceShare
import SimpleSvr.L5App.ConnectionPoolTimers
import SimpleSvr.L5App.SessionRun
import SimpleSvr.L5App.SessionExpiry
import SimpleSvr.L5App.TcpClientTimer
import SimpleSvr.L5App.TcpClientStream
import SimpleSvr.Core.Framing
import SimpleSvr.L5App.TcpServerLife
import SimpleSvr.L5App.TcpServerStream
import SimpleSvr.L5App.Application
import SimpleSvr.L5App.UdpStartup
import SimpleSvr.L5App.Channel
import SimpleSvr.L5App.EventScheduler
import SimpleSvr.L2Machine.TimerSteps
import SimpleSvr.L2Machine.TimerPending
import SimpleSvr.L2Machine.TimerDrain
import SimpleSvr.L5App.TimerWorker
import SimpleSvr.L5App.ConnectionPoolErase
import SimpleSvr.L5App.TcpClientConnect
import SimpleSvr.L5App.ConfigureRoundTrip
import SimpleSvr.L5App.ConfigureReload
import SimpleSvr.L5App.LogRotation
import SimpleSvr.L5App.Tweetadsd
import SimpleSvr.L5App.Reactor
import SimpleSvr.L5App.WorkerPool
import SimpleSvr.L5App.PidFile
import SimpleSvr.L3Storage.BinlogWriters
