import DirtyCode.Lib.Machine
import DirtyCode.Lib.Memory
import DirtyCode.Lib.CInt
import DirtyCode.Lib.Scan
import DirtyCode.Lib.FileSystem
import DirtyCode.IPParser.Membership
import DirtyCode.LogCollect.Session
import DirtyCode.LogCollect.DiskThread
import DirtyCode.LogCollect.System
import DirtyCode.ConfServer.AddressIndex
import DirtyCode.ConfServer.ParseInput
import DirtyCode.ConfSrv.Freshness
import DirtyCode.ConfSrv.Wakeup
import DirtyCode.LogCollect.Accounting
import DirtyCode.LogCollect.Closing
import DirtyCode.LogCollect.ExactlyOnce
import DirtyCode.LogCollect.ForcedDisconnect
import DirtyCode.LogCollect.Handoff
import DirtyCode.ConfServer.Delivery
import DirtyCode.ConfServer.Handshake
import DirtyCode.ConfServer.Ownership
import DirtyCode.ConfCli.Lookup
import DirtyCode.ConfCli.LineBuffer
import DirtyCode.ConfCli.Persist
import DirtyCode.ConfCli.Dump
import DirtyCode.ConfCli.Buckets
import DirtyCode.LogCollect.LogFiles
import DirtyCode.LogCollect.SessionTable
import DirtyCode.Udps.Isolation
import DirtyCode.IPParser.BatchUpdate
import DirtyCode.LogCollect.WriteLoop
import DirtyCode.BlkAio.Slots
import DirtyCode.NIOClient.Sweep
import DirtyCode.Udps.Lines
import DirtyCode.Udps.Reassembly
import DirtyCode.Ping.Loss
import DirtyCode.Ping.Attribution
import DirtyCode.Ping.Live
import DirtyCode.ParallelExec.Scheduling
import DirtyCode.Toeplitz.Keys
import DirtyCode.Toeplitz.Softrss
import DirtyCode.Workers.Segments
import DirtyCode.DiskList.Inquiry
import DirtyCode.DiskList.Vpd
import DirtyCode.DiskList.Sections
import DirtyCode.DiskList.Matching
import DirtyCode.DiskList.Enclosures
import DirtyCode.DiskList.Hctl
import DirtyCode.DiskList.RaidTable
import DirtyCode.DiskList.Designators
import DirtyCode.EdacParser.DmiStrings
import DirtyCode.LogServer.Rotation
import DirtyCode.LogCollect.SizeLimit
import DirtyCode.LogCollect.Switching
import DirtyCode.LogCollect.BugBranch
import DirtyCode.LogCollect.FixLogFile
import DirtyCode.ConfServer.Stream
import DirtyCode.DetectAlive.ScanOrder
import DirtyCode.EdacParser.CpuTopology
import DirtyCode.EdacParser.CounterPath
import DirtyCode.DpdkWebCli.Connections
import DirtyCode.Dnsq.Response
import DirtyCode.LogCollect.PeriodCounters
import DirtyCode.LogCollect.Enlarging
import DirtyCode.IPParser.HashedBitmap
import DirtyCode.IPParser.Loaders
import DirtyCode.MemoryInfo.ZoneReports
import DirtyCode.EdacParser.Counters
import DirtyCode.Tctx.PingPong
import DirtyCode.Lib.PacketFilter
import DirtyCode.ParallelExec.IpList
import DirtyCode.Ping.Filter
import DirtyCode.Ping.Probes
import DirtyCode.Lib.DirTree
import DirtyCode.Mkpath.Directories
