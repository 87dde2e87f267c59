import OsxGdbserver.Lib.Overlay
import OsxGdbserver.Lib.WrappedMemory
import OsxGdbserver.Lib.Process
import OsxGdbserver.Lib.TwoRuns
import OsxGdbserver.Lib.Simulation
import OsxGdbserver.Lib.Epochs
import OsxGdbserver.Lib.CString
import OsxGdbserver.Lib.LinkedList
import OsxGdbserver.Basic
import OsxGdbserver.MemBreak
import OsxGdbserver.BreakpointShadows
import OsxGdbserver.ShadowCopies
import OsxGdbserver.BreakpointRuns
import OsxGdbserver.BreakpointTransparency
import OsxGdbserver.BreakpointOverlaps
import OsxGdbserver.BreakpointUnwinding
import OsxGdbserver.StepOvers
import OsxGdbserver.BreakpointLinks
import OsxGdbserver.Connection
import OsxGdbserver.Framing
import OsxGdbserver.Streams
import OsxGdbserver.FrameStreams
import OsxGdbserver.DamagedFrames
import OsxGdbserver.Regcache
import OsxGdbserver.Signals
import OsxGdbserver.PpcRegisters
import OsxGdbserver.Kernel
import OsxGdbserver.PtraceFallback
import OsxGdbserver.Server
import OsxGdbserver.RemoteUtils
import OsxGdbserver.Handlers
import OsxGdbserver.LinkFrames
import OsxGdbserver.ServerRuns
import OsxGdbserver.ResumePaths
import OsxGdbserver.PacketTexts
import OsxGdbserver.Serving
import OsxGdbserver.PacketLoop
import OsxGdbserver.HandlerFrames
import OsxGdbserver.Buffers
import OsxGdbserver.Inferiors
import OsxGdbserver.InferiorLists
import OsxGdbserver.ThreadLists
import OsxGdbserver.VContActions
import OsxGdbserver.VContRefusals
import OsxGdbserver.VContArrays
import OsxGdbserver.StopReplies
import OsxGdbserver.Sessions
import OsxGdbserver.AsyncIo
import OsxGdbserver.Handshakes
import OsxGdbserver.Chunkings
import OsxGdbserver.Retransmissions
import OsxGdbserver.SilentMode
import OsxGdbserver.ExtendedMode
import OsxGdbserver.PacketInvariants
import OsxGdbserver.RegisterOrigins
import OsxGdbserver.MemoryPackets
import OsxGdbserver.LeftoverBytes
import OsxGdbserver.PlantedTraps
import OsxGdbserver.PageRights
import OsxGdbserver.Machines
import OsxGdbserver.RegisterPackets
import OsxGdbserver.ThreadQueries
import OsxGdbserver.RegisterFiles
import OsxGdbserver.RegisterLayouts
import OsxGdbserver.HexCodecs
import OsxGdbserver.RegisterTransfers
import OsxGdbserver.WriteFates
import OsxGdbserver.Detaching
import OsxGdbserver.EntryPoints
import OsxGdbserver.CommandLines
import OsxGdbserver.ProcessCalls
import OsxGdbserver.SignalNames
import OsxGdbserver.SignalNumbers
import OsxGdbserver.SessionLengths
import OsxGdbserver.Conversations
import OsxGdbserver.ClientMemory
import OsxGdbserver.StartUps
import OsxGdbserver.LineSessions
