import Lilu.Prelude.Loop
import Lilu.Prelude.LinkedForest
import Lilu.Prelude.SlidingWindow
import Lilu.Prelude.Heap
import Lilu.Prelude.Released
import Lilu.Prelude.Keyed
import Lilu.Prelude.Bytes
import Lilu.Prelude.Occurrence
import Lilu.Util.Strstr
import Lilu.Prelude.Register
import Lilu.Util.RTCStorage
import Lilu.Prelude.Calls
import Lilu.Prelude.Queue
import Lilu.Util.CircularBuffer
import Lilu.Util.Evector
import Lilu.Compression.SearchTrees
import Lilu.Compression.Format
import Lilu.Compression.Encoder
import Lilu.Compression.Decoder
import Lilu.Compression.Buffer
import Lilu.Compression.RoundTrip
import Lilu.NVRAM.Crypto
import Lilu.NVRAM.Storage
import Lilu.NVRAM.ReadBack
import Lilu.NVRAM.Containers
import Lilu.NVRAM.Sensitive
import Lilu.NVRAM.Erasure
import Lilu.Kext.Consumption
import Lilu.Kext.Listener
import Lilu.Kext.Notification
import Lilu.Kext.Requests
import Lilu.Api.Access
import Lilu.Compression.Secrecy
import Lilu.Config.Boot
import Lilu.Config.Images
import Lilu.User.ThreadSteps
import Lilu.User.PendingUser
import Lilu.User.LoadFiles
import Lilu.User.PagePatch
import Lilu.User.Places
import Lilu.Mach.Header
import Lilu.Mach.FileSystem
import Lilu.Mach.KernelWriting
import Lilu.Patcher.State
import Lilu.Patcher.Route
import Lilu.Patcher.Jump
import Lilu.Patcher.Cases
import Lilu.Patcher.Trampoline
import Lilu.Patcher.Written
import Lilu.Patcher.Erase
import Lilu.Patcher.Layout
import Lilu.Patcher.Prologue
import Lilu.Patcher.Requests
import Lilu.Patcher.Stops
import Lilu.Patcher.Rollback
import Lilu.Mach.Nested
import Lilu.Mach.Walk
import Lilu.Mach.Running
import Lilu.Mach.Sections
import Lilu.Mach.Solve
import Lilu.Mach.Prelinked
import Lilu.Patcher.Lookup
import Lilu.Patcher.LookupScan
import Lilu.Patcher.FindPattern
import Lilu.Patcher.FindReplace
import Lilu.Patcher.ReplaceBounds
import Lilu.User.Attempts
import Lilu.User.SavedPages
import Lilu.User.Lookups
import Lilu.User.MapAddresses
import Lilu.User.MapBlocks
import Lilu.User.ProcessMap
import Lilu.User.SharedCache
import Lilu.User.ImageHeader
import Lilu.User.Restrict
import Lilu.User.Payload
import Lilu.User.EntryPoint
import Lilu.Patcher.Brackets
import Lilu.Prelude.Numbering
import Lilu.Util.CpuTopology
import Lilu.Prelude.Separated
import Lilu.Util.RenameDevice
import Lilu.Compression.Accesses
import Lilu.Prelude.SpelledTrees
import Lilu.Compression.TreeStates
import Lilu.Prelude.CriticalPosition
import Lilu.Util.Memmem
import Lilu.Prelude.Effect
import Lilu.Prelude.Rearranged
import Lilu.Util.Sorting
import Lilu.Disasm.Moved
import Lilu.Umm.Objects
import Lilu.NVRAM.Hash
