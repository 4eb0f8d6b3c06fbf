import Neobird64.Lib.Memory
import Neobird64.Lib.PathTree
import Neobird64.Lib.Loop
import Neobird64.Lib.LastWrite
import Neobird64.Lib.FirstFit
import Neobird64.Lib.Paging
import Neobird64.Lib.PageTree
import Neobird64.Lib.Records
import Neobird64.Lib.RecordWalk
import Neobird64.Lib.Collect
import Neobird64.Lib.RegisterFile
import Neobird64.Lib.Trace
import Neobird64.Lib.PeriodicTimer
import Neobird64.Lib.WrapCounter
import Neobird64.Lib.OnDemand
import Neobird64.Lib.BitFields
import Neobird64.Lib.CellCopy
import Neobird64.Lib.Transducer
import Neobird64.Lib.Numeral
import Neobird64.Lib.X86
import Neobird64.Lib.InterruptController
import Neobird64.Lib.Template
import Neobird64.Lib.Tlb
import Neobird64.Lib.Segments
import Neobird64.Lib.TaggedLines
import Neobird64.InitAcpi
import Neobird64.Start
import Neobird64.IoApic
import Neobird64.Idt
import Neobird64.IdtGates
import Neobird64.Timer
import Neobird64.Interrupts
import Neobird64.LapicTimer
import Neobird64.PmTimer
import Neobird64.Ps2Controller
import Neobird64.Video
import Neobird64.Printf
import Neobird64.ExceptionReport
import Neobird64.Log
import Neobird64.Memmove
import Neobird64.Smp
import Neobird64.SmpInit
import Neobird64.Segments
import Neobird64.Theorems.PmmLayout
import Neobird64.Theorems.BitIndex
import Neobird64.Theorems.Frames
import Neobird64.Theorems.TableBuild
import Neobird64.Theorems.FreePage
import Neobird64.Theorems.FreedBlocks
import Neobird64.Theorems.MapCost
import Neobird64.Theorems.VmmRefinement
import Neobird64.Theorems.SelfMap
import Neobird64.Theorems.ClientMemory
import Neobird64.Theorems.InterruptRun
import Neobird64.Theorems.Typing
import Neobird64.Theorems.ExceptionText
import Neobird64.Theorems.Log
import Neobird64.Theorems.InitAcpi
import Neobird64.Theorems.AddressSpace
import Neobird64.Theorems.Pointers
import Neobird64.Theorems.DirectMap
import Neobird64.Theorems.ReadOnly
import Neobird64.Theorems.Rights
import Neobird64.Theorems.SetAllocator
import Neobird64.Theorems.NullResult
import Neobird64.Theorems.Unmap
import Neobird64.Theorems.Lapic
import Neobird64.Theorems.AcpiLookup
import Neobird64.Theorems.Madt
import Neobird64.Theorems.MadtReads
import Neobird64.Theorems.IcsArray
import Neobird64.Theorems.IoApic
import Neobird64.Theorems.IoApicTable
import Neobird64.Theorems.KeyboardRoute
import Neobird64.Theorems.Keyboard
import Neobird64.Theorems.KeyboardPrint
import Neobird64.Theorems.Ps2Controller
import Neobird64.Theorems.Sleep
import Neobird64.Theorems.SleepRange
import Neobird64.Theorems.SleepTime
import Neobird64.Theorems.TickRace
import Neobird64.Theorems.PmTimer
import Neobird64.Theorems.Numerals
import Neobird64.Theorems.Printf
import Neobird64.Theorems.Memmove
import Neobird64.Theorems.Memcpy
import Neobird64.Theorems.TssRace
import Neobird64.Theorems.Interrupt
import Neobird64.Theorems.IdtGates
import Neobird64.Theorems.TssBase
import Neobird64.Theorems.Segments
import Neobird64.Theorems.SegmentRace
import Neobird64.Theorems.SmpStart
