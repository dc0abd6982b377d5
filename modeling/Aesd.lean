import Aesd.Machine
import Aesd.CriticalSection
import Aesd.Procedure
import Aesd.CInt
import Aesd.RingWindow
import Aesd.Segments
import Aesd.TermLog
import Aesd.NodeChain
import Aesd.KernelMemory
import Aesd.CircularBuffer
import Aesd.RingHistory
import Aesd.RingSearch
import Aesd.CharDevice
import Aesd.CharDeviceInv
import Aesd.CharDeviceLog
import Aesd.CharDeviceRead
import Aesd.CharDeviceSeek
import Aesd.CharDeviceLlseek
import Aesd.CharDeviceBounds
import Aesd.CharDeviceUnload
import Aesd.CharDeviceFailure
import Aesd.LogDevice
import Aesd.LogReader
import Aesd.ConcurrentCalls
import Aesd.OpenFiles
import Aesd.ModuleLife
import Aesd.CString
import Aesd.ConnectionHandler
import Aesd.SeekParser
import Aesd.ReplyLoop
import Aesd.FileMutex
import Aesd.ThreadQueue
import Aesd.MainThread
import Aesd.SetupFailure
import Aesd.AcceptLoop
import Aesd.ReapPass
import Aesd.Drain
import Aesd.Session
import Aesd.SessionInv
import Aesd.SeekCommand
import Aesd.DataConnection
import Aesd.Segmentation
import Aesd.Server
import Aesd.ServerReply
import Aesd.ServerReplies
import Aesd.HandlerEnd
import Aesd.Timestamp
import Aesd.DataFile
import Aesd.MainLife
import Aesd.Shutdown
import Aesd.ServerStop
