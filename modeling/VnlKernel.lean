import VnlKernel.Lib.ByteMem
import VnlKernel.Lib.Bits
import VnlKernel.Lib.Dlist
import VnlKernel.Types
import VnlKernel.Mm.Heap
import VnlKernel.Proof.HeapLayout
import VnlKernel.Proof.HeapEdits
import VnlKernel.Proof.HeapOps
import VnlKernel.Proof.HeapAlloc
import VnlKernel.Proof.HeapRun
import VnlKernel.Proof.PmmRun
import VnlKernel.Proof.SchedFair
import VnlKernel.Proof.SchedCreate
import VnlKernel.Proof.VfsNames
import VnlKernel.Proof.SockSleep
import VnlKernel.Proof.WokenStream
import VnlKernel.Proof.WokenAccept
import VnlKernel.Proof.SockXfer
import VnlKernel.Proof.VfsStream
import VnlKernel.Proof.ShmRun
import VnlKernel.Proof.ShellLoop
import VnlKernel.Proof.ShellQuote
import VnlKernel.Proof.ShellPipe
import VnlKernel.Proof.ShellAndOr
import VnlKernel.Proof.ShellParam
import VnlKernel.Proof.ArithSource
import VnlKernel.Proof.VfsDenote
import VnlKernel.Proof.ShmName
import VnlKernel.Proof.MallocRun
import VnlKernel.Proof.MemstreamRun
import VnlKernel.Proof.EpollRun
import VnlKernel.Proof.EpollMap
import VnlKernel.Lib.CString
import VnlKernel.Logged
import VnlKernel.Proof.ShellBuffers
import VnlKernel.Proof.ShellSafe
import VnlKernel.Proof.ShellSkip
import VnlKernel.Proof.ShellTokens
import VnlKernel.Proof.ShellVars
import VnlKernel.Proof.VfsFound
import VnlKernel.Proof.SockPoll
import VnlKernel.Proof.SockControl
import VnlKernel.Fs.Dirs
import VnlKernel.Proof.VfsCwd
import VnlKernel.Proof.VfsDirents
import VnlKernel.Proof.VfsOpen
import VnlKernel.Proof.SockBind
import VnlKernel.Proof.ShmHoles
import VnlKernel.Proof.VfsHoles
import VnlKernel.Lib.Radix
import VnlKernel.Mm.Vmm
import VnlKernel.Proof.VmmTables
import VnlKernel.Proof.VmmGrow
import VnlKernel.Proof.VmmPages
import VnlKernel.Proof.VmmFrames
import VnlKernel.Proof.VmmAccess
import VnlKernel.Proof.UserPages
import VnlKernel.Kernel.ElfLoad
import VnlKernel.Proof.ElfReads
import VnlKernel.Kernel.MemCalls
import VnlKernel.Proof.BrkDelivers
import VnlKernel.Proof.MmapFails
import VnlKernel.Kernel.CopyOut
import VnlKernel.Proof.CopyDelivers
import VnlKernel.Proof.ShmRollback
import VnlKernel.Kernel.Uaccess
import VnlKernel.Proof.UaccessExact
import VnlKernel.Proof.HeapSizes
import VnlKernel.Kernel.Multiboot
import VnlKernel.Proof.MultibootWalk
import VnlKernel.Proof.MmapReserve
import VnlKernel.Kernel.Exec
import VnlKernel.Proof.Siblings
import VnlKernel.Proof.ElfPages
import VnlKernel.Proof.ExecIntact
import VnlKernel.Lib.Numeral
import VnlKernel.Kernel.Kstring
import VnlKernel.Kernel.Printf
import VnlKernel.Proof.FormatText
import VnlKernel.Proof.FormatBounds
import VnlKernel.Proof.FormatRound
import VnlKernel.Libc.Stdio
import VnlKernel.Proof.StdioText
import VnlKernel.Proof.StdioSizes
import VnlKernel.Proof.FormatAgree
import VnlKernel.Lib.ExchangeSort
import VnlKernel.Shell.Filters
import VnlKernel.Proof.SortLines
import VnlKernel.Proof.TailLines
import VnlKernel.Drivers.Acpi
import VnlKernel.Proof.AcpiReads
import VnlKernel.Lib.LineZipper
import VnlKernel.Drivers.Vga
import VnlKernel.Shell.Readline
import VnlKernel.Proof.LineScreen
import VnlKernel.Proof.LineEditor
import VnlKernel.Proof.KstringCopies
import VnlKernel.Lib.Raster
import VnlKernel.Drivers.Fb
import VnlKernel.Proof.FbFill
import VnlKernel.Lib.Terminal
import VnlKernel.Drivers.Console
import VnlKernel.Proof.ConsoleTerm
import VnlKernel.Proof.ConsoleRun
import VnlKernel.Lib.Mailbox
import VnlKernel.Drivers.Keyboard
import VnlKernel.Drivers.Mouse
import VnlKernel.Proof.Ps2Run
import VnlKernel.Proof.MousePackets
import VnlKernel.Proof.Typing
import VnlKernel.Shell.Vsnake
import VnlKernel.Proof.SnakeRun
import VnlKernel.Kernel.Desktop
import VnlKernel.Lib.Columns
import VnlKernel.Proof.DesktopTerm
import VnlKernel.Proof.DesktopMirror
import VnlKernel.Lib.Picture
import VnlKernel.Drivers.Fonts
import VnlKernel.Proof.FbPicture
import VnlKernel.Proof.ConsolePicture
import VnlKernel.Kernel.Gui
import VnlKernel.Proof.GuiPointer
