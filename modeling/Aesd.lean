import Aesd.Lookup
import Aesd.Driver
import Aesd.Refinement
import Aesd.Ownership
import Aesd.WriteLog
import Aesd.FilePosition
import Aesd.CString
import Aesd.ServerThread
import Aesd.Connection
import Aesd.Aesdsocket
import Aesd.Reaping
import Aesd.RecordCalls
import Aesd.Framing
import Aesd.Transactions
import Aesd.Serialisability
import Aesd.ErrorReturns
import Aesd.SequentialReading
import Aesd.ReceiveBuffer
import Aesd.SeekCommands
import Aesd.Descriptors
import Aesd.Lib.ProcessTable
import Aesd.Systemcalls
import Aesd.LogDevice
import Aesd.Lib.Monitor
import Aesd.Interleaving
import Aesd.Statements
import Aesd.Linearizability
import Aesd.LockProgress
import Aesd.Eviction
import Aesd.Lib.Decimal
import Aesd.TimestampThread
import Aesd.FileThreads
import Aesd.Sections
import Aesd.WholeSections
import Aesd.Pieces
import Aesd.Replies
import Aesd.DeviceSections
import Aesd.DeviceLines
import Aesd.DataFile
import Aesd.FileSections
import Aesd.FileLines
import Aesd.ServerProgress
import Aesd.SeekText
import Aesd.Lib.Frame
import Aesd.Footprint
import Aesd.ModuleLife
import Aesd.MainExits
import Aesd.Threading
