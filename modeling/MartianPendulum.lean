import MartianPendulum.Logic.Run
import MartianPendulum.Logic.Blit
import MartianPendulum.Logic.Words
import MartianPendulum.Logic.Sheet
import MartianPendulum.Logic.Reversal
import MartianPendulum.Logic.LinkedList
import MartianPendulum.Logic.CallStack
import MartianPendulum.Lib.Strings
import MartianPendulum.Lib.Printf
import MartianPendulum.Lib.Memory
import MartianPendulum.FileSystem.Image
import MartianPendulum.FileSystem.ReadData
import MartianPendulum.FileSystem.ReadSafety
import MartianPendulum.FileSystem.Drivers
import MartianPendulum.FileSystem.Directory
import MartianPendulum.FileSystem.SequentialRead
import MartianPendulum.FileSystem.FileTable
import MartianPendulum.FileSystem.ReadBounds
import MartianPendulum.Devices.Rtc
import MartianPendulum.Devices.RtcRate
import MartianPendulum.Kernel.Arguments
import MartianPendulum.Kernel.ParseBounds
import MartianPendulum.Kernel.Getargs
import MartianPendulum.Kernel.Idt
import MartianPendulum.Kernel.Entry
import MartianPendulum.Kernel.SyscallEntry
import MartianPendulum.Process.Launch
import MartianPendulum.Process.Executable
import MartianPendulum.Process.Loading
import MartianPendulum.Process.Descriptors
import MartianPendulum.Process.Footprint
import MartianPendulum.Process.Vidmap
import MartianPendulum.Process.ContextSwitch
import MartianPendulum.Process.Exceptions
import MartianPendulum.Display.Isolation
import MartianPendulum.Display.Screen
import MartianPendulum.Display.Text
import MartianPendulum.Display.Bounds
import MartianPendulum.Input.Ownership
import MartianPendulum.Input.TypeAhead
import MartianPendulum.Input.LineEditing
import MartianPendulum.Input.TypedLine
import MartianPendulum.Input.Echo
import MartianPendulum.Input.ModifierKeys
import MartianPendulum.Display.Bar
import MartianPendulum.Fish.BlinkDisplay
import MartianPendulum.Fish.Animation
import MartianPendulum.Programs.World
import MartianPendulum.Programs.CatLs
import MartianPendulum.Logic.Pieces
import MartianPendulum.Programs.Grep
import MartianPendulum.Programs.GrepFiles
import MartianPendulum.Fish.Frames
import MartianPendulum.Fish.Program
import MartianPendulum.Lib.Memmove
import MartianPendulum.Lib.Spinlock
import MartianPendulum.Devices.Pic
import MartianPendulum.Devices.Interrupts
