import Stanix.Mem.Kheap.Run
import Stanix.Klib.Xarray.Run
import Stanix.Mem.Pmm.Count
import Stanix.Mem.Pmm.Race
import Stanix.Mem.Slab.Run
import Stanix.Fs.Cache.Dirty
import Stanix.Fs.Cache.Flush
import Stanix.Fs.Fat.LongNameLaw
import Stanix.Fs.Fat.Allocate
import Stanix.Fs.Fat.Truncate
import Stanix.Fs.Pipe
import Stanix.Fs.Socket.Records
import Stanix.Fs.Socket.Stream
import Stanix.Fs.Vfs.Chroot
import Stanix.Fs.Vfs.DentryLru
import Stanix.Fs.Vfs.NodeTable
import Stanix.Fs.Vfs.RenameCoherent
import Stanix.Fs.Vfs.Resolve
import Stanix.Drivers.BlockCover
import Stanix.Drivers.ResourceRun
import Stanix.Drivers.TtyEdit
import Stanix.Arch.Paging.Flags
import Stanix.Arch.Paging.Spaces
import Stanix.Mem.Vmm.CloneExact
import Stanix.Task.Bounds
import Stanix.Task.Futex
import Stanix.Task.Rwsem
import Stanix.Task.Scheduler
import Stanix.Task.Timeout
import Stanix.Task.Userspace
import Stanix.Task.FdTable
import Stanix.Task.Signal
