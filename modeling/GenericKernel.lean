import GenericKernel.Boot.ElTorito
import GenericKernel.Drivers.Acpi
import GenericKernel.Drivers.ConsoleLogic
import GenericKernel.Drivers.Display
import GenericKernel.Drivers.InputLogic
import GenericKernel.Drivers.InputRings
import GenericKernel.Drivers.KeyboardLogic
import GenericKernel.Drivers.Psf2Table
import GenericKernel.Drivers.VirtioBlkLogic
import GenericKernel.Fs.Contained
import GenericKernel.Fs.StaleData
import GenericKernel.Mm.FrameAllocator
import GenericKernel.Mm.HeapSearch
import GenericKernel.Paging.BootRollback
import GenericKernel.Paging.CloneExact
import GenericKernel.Process.LoadImage
import GenericKernel.Sched.Masked
import GenericKernel.Tools.X128Machine
import GenericKernel.Tools.X128Puts
import GenericKernel.Vfs.BackendsAgree
import GenericKernel.Vfs.InitramfsLogic
import GenericKernel.Vfs.KernelFiles
import GenericKernel.Vfs.MountPoints
