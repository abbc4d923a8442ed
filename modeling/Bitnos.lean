import Bitnos.Math.Run
import Bitnos.Math.Reactive
import Bitnos.Math.Walk
import Bitnos.Math.Chain
import Bitnos.Math.CycleRing
import Bitnos.Math.TextCursor
import Bitnos.Math.Words
import Bitnos.Math.BitMask
import Bitnos.Math.Bytes
import Bitnos.Math.BitField
import Bitnos.Math.LastWriter
import Bitnos.Libc
import Bitnos.Math.Numeral
import Bitnos.Math.WiredWord
import Bitnos.MemoryAccess
import Bitnos.Pci.Config
import Bitnos.Pci.Scan
import Bitnos.Pci.Coverage
import Bitnos.Pci.RootBuses
import Bitnos.Pci.Device
import Bitnos.Pci.Bar
import Bitnos.Pci.BarProbe
import Bitnos.Pci.Capability
import Bitnos.Pci.PcieCapability
import Bitnos.DeviceTable
import Bitnos.Xhci.Trb
import Bitnos.Xhci.Layout
import Bitnos.Xhci.EventRing
import Bitnos.Xhci.EventFifo
import Bitnos.Xhci.RingBytes
import Bitnos.Xhci.EventDrain
import Bitnos.Xhci.Controller
import Bitnos.Xhci.RegisterViews
import Bitnos.Xhci.RingReset
import Bitnos.Xhci.SlotLoop
import Bitnos.Xhci.CommandLoop
import Bitnos.Xhci.InputContext
import Bitnos.Xhci.Report
import Bitnos.Xhci.CommandCompletion
import Bitnos.Queue
import Bitnos.QueueFifo
import Bitnos.Mutex
import Bitnos.MutexThreads
import Bitnos.KeyDecode
import Bitnos.KeyLoop
import Bitnos.KeyInvariant
import Bitnos.KeyIntegrity
import Bitnos.KeyShift
import Bitnos.Math.Budget
import Bitnos.Math.Driven
import Bitnos.Math.Simulation
import Bitnos.Math.Stride
import Bitnos.Math.Conveys
import Bitnos.KeyProgress
import Bitnos.Devices.I8259
import Bitnos.Asm
import Bitnos.InterruptFrame
import Bitnos.DescTable
import Bitnos.IdtUpdate
import Bitnos.DescTableListing
import Bitnos.DescTableText
import Bitnos.KeyInterrupts
import Bitnos.KeyboardInit
import Bitnos.ByteReads
import Bitnos.Graphics.Draw
import Bitnos.Graphics.Framebuffer
import Bitnos.Graphics.TwoWriters
import Bitnos.Graphics.RectCorners
import Bitnos.Console.Debug
import Bitnos.Console.Confinement
import Bitnos.Console.Grid
import Bitnos.Console.Erasing
import Bitnos.Console.Glyphs
import Bitnos.Shell.Split
import Bitnos.Shell.Edit
import Bitnos.Shell.ArgvBound
import Bitnos.Shell.BufferSafety
import Bitnos.Shell.LineOnScreen
import Bitnos.Shell.Terminal
import Bitnos.Shell.Submitted
import Bitnos.Workstation
import Bitnos.Commands.Format
import Bitnos.Commands.Printf
import Bitnos.Commands.Execute
import Bitnos.Commands.Lspci
import Bitnos.Commands.Listing
import Bitnos.Commands.Readback
import Bitnos.Commands.Mmap
import Bitnos.Commands.Xhci
