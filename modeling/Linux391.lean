import Linux391.Library.Memory
import Linux391.Library.Loop
import Linux391.Library.Footprint
import Linux391.Library.Stacks
import Linux391.Lib.Strings
import Linux391.Drivers.Fs
import Linux391.Drivers.FsRead
import Linux391.Drivers.Rtc
import Linux391.Drivers.Termios
import Linux391.Drivers.TermSwitch
import Linux391.Drivers.TermOutput
import Linux391.Drivers.TermInput
import Linux391.Drivers.InputIsolation
import Linux391.Drivers.LineBuffer
import Linux391.Drivers.TermScreen
import Linux391.Drivers.ScreenSafety
import Linux391.Kernel.Pcb
import Linux391.Kernel.Paging
import Linux391.Kernel.Isolation
import Linux391.Kernel.State
import Linux391.Kernel.Descriptors
import Linux391.Kernel.CallSteps
import Linux391.Kernel.SequentialRead
import Linux391.Kernel.DescriptorTable
import Linux391.Kernel.DescriptorEffects
import Linux391.Kernel.Scheduling
import Linux391.Kernel.Process
import Linux391.Kernel.ProcessEffects
import Linux391.Kernel.Events
import Linux391.Kernel.ProcessTable
import Linux391.Kernel.ShellRestart
import Linux391.Kernel.Identity
import Linux391.Kernel.Reachable
import Linux391.Kernel.FailedExecute
import Linux391.Kernel.PidReuse
import Linux391.Library.RoundRobin
import Linux391.Library.Page
import Linux391.Drivers.TermPage
import Linux391.Library.Buffer
import Linux391.Lib.Console
import Linux391.Lib.Numerals
import Linux391.Lib.Printf
import Linux391.Drivers.ConsoleAgreement
import Linux391.Kernel.RoundRobin
import Linux391.Drivers.Directory
import Linux391.Kernel.DirectoryRead
import Linux391.Kernel.VideoMapping
import Linux391.Kernel.ExitStatus
import Linux391.Drivers.Echo
import Linux391.Drivers.ReadBounds
import Linux391.Drivers.Program
import Linux391.Kernel.Command
import Linux391.Kernel.Arguments
import Linux391.Drivers.RtcPorts
import Linux391.Kernel.ClockRate
import Linux391.Drivers.Keyboard
import Linux391.Kernel.ShellFlags
import Linux391.Kernel.VidmapStore
import Linux391.Drivers.Delete
import Linux391.Drivers.Attributes
import Linux391.Syscalls.Grep
import Linux391.Syscalls.GrepLines
import Linux391.Syscalls.Itoa
import Linux391.Library.FlatMemory
import Linux391.Lib.MemoryRoutines
import Linux391.Library.Chain
import Linux391.Fish.Blink
import Linux391.Fish.BlinkList
import Linux391.Fish.BlinkEffects
import Linux391.Fish.BlinkScreen
import Linux391.Library.Alternator
import Linux391.Fish.BlinkPeriod
import Linux391.Drivers.I8259
import Linux391.Kernel.Idt
import Linux391.Kernel.Interrupts
import Linux391.Kernel.Linkage
import Linux391.Kernel.Preemption
import Linux391.Drivers.ReadRace
import Linux391.Library.Interaction
import Linux391.Kernel.Meanwhile
import Linux391.Syscalls.Session
import Linux391.Syscalls.Cat
