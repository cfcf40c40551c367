import OsLabs.Machine
import OsLabs.Buffer
import OsLabs.BufferSound
import OsLabs.CInt
import OsLabs.Mymem
import OsLabs.MymemSound
import OsLabs.MymemLive
import OsLabs.MymemGaps
import OsLabs.MymemNext
import OsLabs.Sched
import OsLabs.SchedSound
import OsLabs.SchedRr
import OsLabs.SchedSingle
import OsLabs.SchedFifo
import OsLabs.Fs
import OsLabs.FsSound
import OsLabs.FsWrite
import OsLabs.FsCodec
import OsLabs.FsSession
import OsLabs.FsOwn
import OsLabs.ByteFiles
import OsLabs.FsRefine
import OsLabs.FsFrame
import OsLabs.FsSpots
import OsLabs.FsCursor
import OsLabs.FsOpenFile
import OsLabs.FsRemount
import OsLabs.SchedSlots
import OsLabs.SchedReach
import OsLabs.SchedLinked
import OsLabs.SharedCount
import OsLabs.SchedCount
import OsLabs.SchedCleanUp
import OsLabs.SchedWalk
import OsLabs.SchedOrder
import OsLabs.SchedAwake
import OsLabs.SchedRotate
import OsLabs.MymemPolicy
import OsLabs.MymemBytes
import OsLabs.MymemUniform
import OsLabs.FsClosed
import OsLabs.FsDelete
import OsLabs.FsNames
import OsLabs.FsThrough
import OsLabs.FsTruncate
import OsLabs.FsFocus
import OsLabs.FsOver
import OsLabs.Shell
import OsLabs.ShellLines
import OsLabs.ShellSplit
import OsLabs.FsRead
import OsLabs.DList
import OsLabs.MymemExact
import OsLabs.MymemRove
import OsLabs.MymemHeap
import OsLabs.MymemMerge
import OsLabs.MymemHeapSound
import OsLabs.MymemLinked
import OsLabs.SchedElems
import OsLabs.SchedElemsSound
import OsLabs.BufferThreads
import OsLabs.Monitor
import OsLabs.SchedCalls
import OsLabs.Fair
import OsLabs.SchedFair
import OsLabs.SchedRounds
import OsLabs.ShellRun
import OsLabs.SchedFifoLog
import OsLabs.SchedRrLog
