import SaeOS.Mm.BuddyCanonical
import SaeOS.Mm.VmaPlacement
import SaeOS.Mm.CowSaturation
import SaeOS.Task.WaitQueuesRun
import SaeOS.Process.LifecycleRun
import SaeOS.Fs.RamFsLocks
import SaeOS.Fs.RamFsSound
import SaeOS.Task.DispatchRun
import SaeOS.Sound.RingRun
import SaeOS.Video.BavSafety
import SaeOS.Sound.Interpolation
import SaeOS.Mm.StaticHeapRun
import SaeOS.Libsaeos.HeapRun
import SaeOS.Collections.HashMapsRun
import SaeOS.Fs.InitramfsRoundTrip
import SaeOS.Libsaeos.ReadDir
import SaeOS.Fs.VfsAtomic
import SaeOS.Fs.RamFsSpaceRun
import SaeOS.Fs.UnpackRun
import SaeOS.Fs.PathResolution
import SaeOS.Task.CpuTimeRun
import SaeOS.Task.Lag
import SaeOS.Task.Sleepers
import SaeOS.Exec.StackRoundTrip
import SaeOS.Exec.Image
import SaeOS.Fs.FileTables
import SaeOS.Fs.Reads
import SaeOS.Libsaeos.DirectoryScan
import SaeOS.Fs.MountPaths
import SaeOS.Mm.PageTreeRun
import SaeOS.Mm.MappingPlan
import SaeOS.Libsaeos.Lines
import SaeOS.Syscall.Time
import SaeOS.Mm.Uaccess
import SaeOS.Shell.Redirects
import SaeOS.Fs.MkinitramfsOrder
import SaeOS.Drivers.TtyRun
import SaeOS.Drivers.HdaRoute
import SaeOS.Time.Rtc
import SaeOS.Cmdline
import SaeOS.Sound.Wav
import SaeOS.Mm.Dma
import SaeOS.Libsaeos.Stdout
import SaeOS.Shell.Sequencing
import SaeOS.Shell.OutputOrder
import SaeOS.Drivers.FramebufferRun
import SaeOS.Video.FrameTimes
import SaeOS.KlogRing
import SaeOS.Task.RunQueueCapacity
import SaeOS.Drivers.PciEnumerate
import SaeOS.Drivers.PciTrace
import SaeOS.Arch.AcpiRun
import SaeOS.BacktraceReads
import SaeOS.Mm.KernelTablesRun
import SaeOS.Mm.AddressSpaces
import SaeOS.Sync.Spinlock
