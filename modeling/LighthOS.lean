import LighthOS.Mm.PmmRuns
import LighthOS.Kernel.PipeFifo
import LighthOS.Kernel.SignalPush
import LighthOS.Mm.Regions
import LighthOS.Kernel.Canon
import LighthOS.Kernel.SignalOrder
import LighthOS.Kernel.Alarm
import LighthOS.Kernel.Wakeup
import LighthOS.Kernel.Resumed
import LighthOS.Kernel.EntryPoints
import LighthOS.Kernel.Jail
import LighthOS.Fs.FatOrphans
import LighthOS.Fs.FatAgree
import LighthOS.Fs.FatOffsets
import LighthOS.Fs.FatLeaks
import LighthOS.Fs.FatStaleNames
import LighthOS.Fs.RamContents
import LighthOS.Fs.RamDir
import LighthOS.Fs.Fstab
import LighthOS.Fs.Procfs
import LighthOS.Fs.Cmdline
import LighthOS.Kernel.Dispositions
import LighthOS.Kernel.ElfBounds
import LighthOS.Kernel.Ksyms
import LighthOS.Drivers.Console
import LighthOS.Drivers.Serial
import LighthOS.User.MallocSizes
import LighthOS.User.Env
import LighthOS.User.FileOutput
import LighthOS.User.Strtol
import LighthOS.User.Vi
import LighthOS.User.ShellPipeline
import LighthOS.User.ShellLogops
import LighthOS.User.LdsoSymbols
import LighthOS.User.LdsoClosure
import LighthOS.Fs.Lookup
