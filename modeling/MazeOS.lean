import MazeOS.Runs
import MazeOS.Stacks
import MazeOS.Bytes
import MazeOS.Strings
import MazeOS.Faults
import MazeOS.Filesystem
import MazeOS.ReadData
import MazeOS.Paging
import MazeOS.State
import MazeOS.Display
import MazeOS.Process
import MazeOS.Files
import MazeOS.Syscalls
import MazeOS.Terminal
import MazeOS.Steps
import MazeOS.Boot
import MazeOS.Tables
import MazeOS.ProcessTable
import MazeOS.StackDiscipline
import MazeOS.VidmapPage
import MazeOS.VidmapStores
import MazeOS.Descriptors
import MazeOS.FileReads
import MazeOS.NameLookup
import MazeOS.DirectoryReads
import MazeOS.Windows
import MazeOS.Screens
import MazeOS.Keyboard
import MazeOS.KeyboardRead
import MazeOS.Sessions
import MazeOS.LineBuffer
import MazeOS.Handshake
import MazeOS.LineEditor
import MazeOS.LineReads
import MazeOS.UserMemory
import MazeOS.ScreenSteps
import MazeOS.Isolation
import MazeOS.Transfers
import MazeOS.CorruptImages
import MazeOS.ProgramLoad
import MazeOS.Commands
import MazeOS.Admission
import MazeOS.CommandSafety
import MazeOS.Arguments
import MazeOS.UserPointers
import MazeOS.ReadSizes
import MazeOS.KeyboardMask
import MazeOS.InterruptMask
import MazeOS.RtcRegisters
import MazeOS.RtcTicks
import MazeOS.CursorBounds
import MazeOS.LastProcess
import MazeOS.DescriptorReads
import MazeOS.Paper
import MazeOS.TerminalOutput
import MazeOS.Echo
import MazeOS.ModifierKeys
import MazeOS.Numerals
import MazeOS.PageFaults
import MazeOS.PagedSteps
import MazeOS.ProcessIds
import MazeOS.Machines
import MazeOS.Printf
import MazeOS.Assembly
import MazeOS.MemoryRoutines
import MazeOS.Undisturbed
import MazeOS.CallReturn
import MazeOS.Fairness
import MazeOS.Words
import MazeOS.PageWords
import MazeOS.Processor
import MazeOS.KernelStack
import MazeOS.Nesting
import MazeOS.Gates
import MazeOS.KernelEntry
import MazeOS.Privilege
import MazeOS.Progress
import MazeOS.Pieces
import MazeOS.Volumes
import MazeOS.Installed
import MazeOS.Controllers
import MazeOS.Interrupts
import MazeOS.Service
import MazeOS.Delivery
