import ELuaBrain.Adc.Smoothing
import ELuaBrain.Alloc.Runs
import ELuaBrain.Alloc.Sbrk
import ELuaBrain.Build.Incremental
import ELuaBrain.Build.Names
import ELuaBrain.Build.Tracking
import ELuaBrain.Device.Buffer
import ELuaBrain.Device.Manager
import ELuaBrain.Device.Paths
import ELuaBrain.Device.Patterns
import ELuaBrain.Editor.Reload
import ELuaBrain.Editor.Sessions
import ELuaBrain.Editor.ZoneLines
import ELuaBrain.Editor.Zones
import ELuaBrain.Help.Lookup
import ELuaBrain.Interrupt.Queue
import ELuaBrain.Keyboard.Keys
import ELuaBrain.Lights.Colours
import ELuaBrain.Lights.Structured
import ELuaBrain.Lights.Switching
import ELuaBrain.Lights.Upload
import ELuaBrain.Linenoise.Runs
import ELuaBrain.Lua.ArraySize
import ELuaBrain.Lua.Substitution
import ELuaBrain.Lua.CrossCompiled
import ELuaBrain.Lua.Interned
import ELuaBrain.Lua.MemLimit
import ELuaBrain.Lua.RoTable
import ELuaBrain.LuaRpc.Agreement
import ELuaBrain.LuaRpc.Conveyed
import ELuaBrain.MmcFs.Open
import ELuaBrain.Modules.BitArray
import ELuaBrain.Modules.UartRead
import ELuaBrain.Net.Expect
import ELuaBrain.Net.Handles
import ELuaBrain.Net.Send
import ELuaBrain.Net.Stdtcp
import ELuaBrain.Net.Telnet
import ELuaBrain.RomFs.Descriptors
import ELuaBrain.Rpc.Chunks
import ELuaBrain.Rpc.Provenance
import ELuaBrain.Rpc.Transparent
import ELuaBrain.SemiFs.Driver
import ELuaBrain.Sermux.Device
import ELuaBrain.Sermux.Host
import ELuaBrain.Sermux.Link
import ELuaBrain.Sermux.Resync
import ELuaBrain.Sermux.RoundTrip
import ELuaBrain.Sermux.Services
import ELuaBrain.Shell.Files
import ELuaBrain.Shell.Line
import ELuaBrain.Shell.Recv
import ELuaBrain.System.Arrivals
import ELuaBrain.System.BitPoly
import ELuaBrain.System.Clip
import ELuaBrain.System.Extents
import ELuaBrain.System.Lockstep
import ELuaBrain.System.NextFit
import ELuaBrain.System.Remainder
import ELuaBrain.Terminal.Ansi
import ELuaBrain.Terminal.Box
import ELuaBrain.Terminal.Decode
import ELuaBrain.Terminal.Menu
import ELuaBrain.Terminal.Wrap
import ELuaBrain.Timers.Difference
import ELuaBrain.Timers.Virtual
import ELuaBrain.Xmodem.Check
import ELuaBrain.Xmodem.Line
