import Ceblar.Lib.Run
import Ceblar.Lib.RefCount
import Ceblar.Mm.PmmCalls
import Ceblar.Kernel.UserPtr
import Ceblar.Mm.Intervals
import Ceblar.Fs.WriteSector
import Ceblar.Fs.Descriptors
import Ceblar.Mm.HeapRun
import Ceblar.Kernel.PidHistory
import Ceblar.Scheduler.OneRunning
import Ceblar.Kernel.Futex
import Ceblar.Kernel.Fork
import Ceblar.Kernel.ElfFlags
import Ceblar.Kernel.ElfFrames
import Ceblar.Kernel.ExecFailure
import Ceblar.Drivers.VirtioRun
import Ceblar.Scheduler.Resume
import Ceblar.Modules.Module
import Ceblar.Mm.Munmap
import Ceblar.Mm.ReadOnly
import Ceblar.Mm.LazyRange
import Ceblar.Mm.Validate
import Ceblar.Kernel.ExitStatus
import Ceblar.Kernel.ExecSignals
import Ceblar.Kernel.Timeouts
import Ceblar.Scheduler.Rotation
import Ceblar.Fs.Confined
import Ceblar.Fs.StaleHandle
import Ceblar.Fs.RawDisk
import Ceblar.Kernel.CreateFailure
import Ceblar.Scheduler.MayGoOn
import Ceblar.Mm.Alignment
import Ceblar.Mm.HeapBytes
import Ceblar.Mm.Realloc
import Ceblar.Mm.MemoryMap
import Ceblar.Fs.ShortName
import Ceblar.Fs.Mount
import Ceblar.Drivers.Dma
import Ceblar.Kernel.WaitExit
import Ceblar.Net.Checksum
import Ceblar.Net.Loopback
import Ceblar.Drivers.Acpi
import Ceblar.Drivers.Vga
import Ceblar.Fs.NameRoundTrip
import Ceblar.Fs.Checksum
import Ceblar.Mm.MbiWalk
import Ceblar.Userspace.Libc
import Ceblar.Mm.PmmLock
import Ceblar.Drivers.Keyboard
import Ceblar.Fs.Restart
