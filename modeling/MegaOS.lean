import MegaOS.Interrupts.InterruptReturn
import MegaOS.Interrupts.Idt
import MegaOS.Interrupts.Eoi
import MegaOS.Log.Snprintf
import MegaOS.Devices.Decoding
import MegaOS.Interrupts.Routing
import MegaOS.Boot.Start
import MegaOS.Log.Sinks
import MegaOS.Log.FormatEnd
import MegaOS.Log.Strings
import MegaOS.Log.FieldWidth
import MegaOS.Devices.Modifiers
import MegaOS.Boot.CalledAssembly
import MegaOS.Devices.Serial
import MegaOS.Interrupts.PanicDump
import MegaOS.Boot.KernelFailures
import MegaOS.Boot.Typing
import MegaOS.Boot.DescriptorTables
import MegaOS.Log.Denotation
import MegaOS.Boot.CrashReport
import MegaOS.Interrupts.Release
import MegaOS.Log.Pointers
