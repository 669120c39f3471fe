import ZineOS.Lib.Words
import ZineOS.Lib.Transition
import ZineOS.Lib.SpanTable
import ZineOS.Lib.RadixTree
import ZineOS.Lib.ByteMemory
import ZineOS.Lib.Strings
import ZineOS.Lib.RecordWalk
import ZineOS.Lib.Ring
import ZineOS.Lib.Terminal
import ZineOS.Lib.Threads
import ZineOS.Lib.Stack
import ZineOS.Lib.Numerals
import ZineOS.Lib.Pic
import ZineOS.Loader.Common
import ZineOS.Loader.Memory
import ZineOS.Loader.StringFunctions
import ZineOS.Loader.Frame
import ZineOS.Loader.FrameTable
import ZineOS.Loader.FrameRows
import ZineOS.Loader.FrameRuns
import ZineOS.Loader.FrameOwnership
import ZineOS.Loader.FrameAlloc
import ZineOS.Loader.FrameCapacity
import ZineOS.Loader.FrameFree
import ZineOS.Loader.FrameAccounts
import ZineOS.Loader.Virtual
import ZineOS.Loader.PageTables
import ZineOS.Loader.PageMap
import ZineOS.Loader.MapRange
import ZineOS.Loader.RangeCover
import ZineOS.Loader.AccessRights
import ZineOS.Loader.LowIdentityMap
import ZineOS.Loader.OutOfFrames
import ZineOS.Loader.Elf
import ZineOS.Loader.ElfLoad
import ZineOS.Loader.ElfEntry
import ZineOS.Loader.KeptMappings
import ZineOS.Loader.Video
import ZineOS.Loader.VideoTerminal
import ZineOS.Loader.Multiboot
import ZineOS.Loader.Acpi
import ZineOS.Loader.MadtWalk
import ZineOS.Loader.RsdtWalk
import ZineOS.Loader.RsdpSearch
import ZineOS.Loader.TrampolineCopy
import ZineOS.Loader.Kmain
import ZineOS.Loader.MemoryMap
import ZineOS.Loader.FrameUse
import ZineOS.Loader.BootData
import ZineOS.Loader.BootOwnership
import ZineOS.Loader.BootTables
import ZineOS.Loader.ModuleSearch
import ZineOS.Loader.AcpiRun
import ZineOS.Loader.KernelLoad
import ZineOS.Loader.BootBudget
import ZineOS.Printf.Number
import ZineOS.Printf.Vsprintf
import ZineOS.Printf.FormatScan
import ZineOS.Printf.Directives
import ZineOS.Printf.DirectiveScan
import ZineOS.Printf.ConsumedWhole
import ZineOS.Printf.Render
import ZineOS.Printf.Hexadecimal
import ZineOS.Printf.Addresses
import ZineOS.Printf.ModuleDump
import ZineOS.Printf.Screen
import ZineOS.Kernel.Memcpy
import ZineOS.Kernel.InterruptFrame
import ZineOS.Kernel.Idt
import ZineOS.Kernel.Irq
import ZineOS.Kernel.IrqNesting
import ZineOS.Printf.RegisterDump
import ZineOS.Smp.Entry
import ZineOS.Smp.EntrySafety
import ZineOS.Smp.Trampoline
import ZineOS.Smp.TrampolineSafety
import ZineOS.Buildrd.InitRd
import ZineOS.Buildrd.FileMap
import ZineOS.Buildrd.AddReplace
import ZineOS.Buildrd.Unload
import ZineOS.Buildrd.Load
import ZineOS.Buildrd.Options
import ZineOS.InitRd.Image
import ZineOS.InitRd.Reader
import ZineOS.InitRd.RoundTrip
import ZineOS.Loader.HandOver
import ZineOS.Loader.KernelStart
import ZineOS.InitRd.FailedLoad
import ZineOS.Buildrd.SaveLoad
import ZineOS.Buildrd.SaveSuccess
import ZineOS.Buildrd.Tool
import ZineOS.Buildrd.ToolRun
import ZineOS.InitRd.Bounds
