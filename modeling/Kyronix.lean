import Kyronix.Mm.HeapRun
import Kyronix.Proc.NsCount
import Kyronix.Fs.MountCalls
import Kyronix.Proc.Caps
import Kyronix.Proc.Naming
import Kyronix.Fs.Ready
import Kyronix.Mm.Mmap
import Kyronix.Mm.Mremap
import Kyronix.Mm.Pmm
import Kyronix.Module.Region
import Kyronix.Fs.SockRights
import Kyronix.Fs.Ext2Faults
import Kyronix.Proc.JailRoots
import Kyronix.Proc.IdMaps
import Kyronix.Fs.RamBuffer
import Kyronix.Fs.Textbook
import Kyronix.Fs.Ext2Dir
import Kyronix.Proc.Sched
import Kyronix.Fs.Append
import Kyronix.Fs.DevOpen
import Kyronix.Drivers.Rescan
import Kyronix.Fs.Getdents
import Kyronix.Security.BpfValid
import Kyronix.Fs.EventFd
import Kyronix.Fs.EpollNest
import Kyronix.Proc.SigSuspend
import Kyronix.Proc.Deadline
import Kyronix.Fs.FatNode
import Kyronix.Drivers.UsbMsc
import Kyronix.Crypto.ChaCha20
import Kyronix.User.Sed
import Kyronix.User.AndOr
