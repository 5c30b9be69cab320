import Elpytios.Abi.SyscallTable
import Elpytios.Bootinfo.Split
import Elpytios.Bootloader.Bounds
import Elpytios.Bootloader.Coverage
import Elpytios.Bootloader.Free
import Elpytios.Bootloader.Image
import Elpytios.Bootloader.Regions
import Elpytios.Elf.Endian
import Elpytios.Elf.Sections
import Elpytios.Elf.Writer
import Elpytios.Kernel.Display
import Elpytios.Kernel.Printing
import Elpytios.Paging.Linear
import Elpytios.Paging.Ownership
import Elpytios.Paging.Requests
import Elpytios.Personality.Lsda
import Elpytios.Process.Env
import Elpytios.Sync.Locks
import Elpytios.Sync.Once
import Elpytios.Sync.OnceBox
import Elpytios.ThreadLocal.LazyStorage
