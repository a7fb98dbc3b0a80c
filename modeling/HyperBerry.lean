import HyperBerry.Lib.Word
import HyperBerry.Lib.LinkedList
import HyperBerry.Lib.Dyadic
import HyperBerry.Lib.Overlay
import HyperBerry.Lib.Memory
import HyperBerry.Lib.Walk
import HyperBerry.Lib.Aarch64
import HyperBerry.Lib.Bytes
import HyperBerry.Lib.Cache
import HyperBerry.Lib.Numeral
import HyperBerry.DeviceTree.Types
import HyperBerry.Pmm.Model
import HyperBerry.Pmm.Bitmap
import HyperBerry.Pmm.FreeList
import HyperBerry.Pmm.Invariant
import HyperBerry.Pmm.Calls
import HyperBerry.Pmm.BringUp
import HyperBerry.Pmm.Seed
import HyperBerry.Pmm.Reserve
import HyperBerry.Pmm.SetMemoryMap
import HyperBerry.Pmm.Run
import HyperBerry.Pmm.Alignment
import HyperBerry.Pmm.Complete
import HyperBerry.Pmm.Bounds
import HyperBerry.Pmm.Protected
import HyperBerry.Pmm.Coalesce
import HyperBerry.Heap.Model
import HyperBerry.Heap.Pieces
import HyperBerry.Heap.Shape
import HyperBerry.Heap.Run
import HyperBerry.Heap.Bounds
import HyperBerry.Mmu.PageTable
import HyperBerry.Mmu.MmioMap
import HyperBerry.Mmu.Windows
import HyperBerry.Mmu.GuestMmu
import HyperBerry.Mmu.Descriptor
import HyperBerry.Mmu.Stage2Tree
import HyperBerry.Mmu.Mapping
import HyperBerry.Mmu.Construct
import HyperBerry.Mmu.Coherence
import HyperBerry.Mmu.Commits
import HyperBerry.Mmu.LiveUpdate
import HyperBerry.Mmu.LiveConstruct
import HyperBerry.Mmu.Teardown
import HyperBerry.Mmu.TablePages
import HyperBerry.Mmu.Footprint
import HyperBerry.Main.BootGuest
import HyperBerry.Main.GuestPages
import HyperBerry.Main.Confinement
import HyperBerry.Main.Handover
import HyperBerry.Mmu.Isolation
import HyperBerry.Mmu.HostMmu
import HyperBerry.Mmu.HostTree
import HyperBerry.Mmu.HostCalls
import HyperBerry.Mmu.HostSelfMap
import HyperBerry.DeviceTree.Fdt
import HyperBerry.DeviceTree.TreeParser
import HyperBerry.DeviceTree.Stream
import HyperBerry.DeviceTree.Validate
import HyperBerry.DeviceTree.Reading
import HyperBerry.DeviceTree.MemoryMap
import HyperBerry.DeviceTree.Levels
import HyperBerry.DeviceTree.Walks
import HyperBerry.DeviceTree.Acceptance
import HyperBerry.DeviceTree.Decode
import HyperBerry.DeviceTree.Tree
import HyperBerry.DeviceTree.HostMemory
import HyperBerry.DeviceTree.Content
import HyperBerry.DeviceTree.Archive
import HyperBerry.DeviceTree.Bspgen
import HyperBerry.DeviceTree.Discovery
import HyperBerry.BootLoader.Layout
import HyperBerry.BootLoader.DtbPatcher
import HyperBerry.BootLoader.PatchState
import HyperBerry.BootLoader.PatchRun
import HyperBerry.BootLoader.PatchEffect
import HyperBerry.BootLoader.PatchAccepts
import HyperBerry.BootLoader.Reread
import HyperBerry.Cpio.Model
import HyperBerry.Cpio.Path
import HyperBerry.Cpio.Format
import HyperBerry.Cpio.Read
import HyperBerry.Cpio.Fixture
import HyperBerry.Cpio.Validate
import HyperBerry.Cpio.Truncate
import HyperBerry.Cpio.Find
import HyperBerry.Cpio.RoundTrip
import HyperBerry.BootLoader.Load
import HyperBerry.BootLoader.LoadSteps
import HyperBerry.BootLoader.LoadRam
import HyperBerry.BootLoader.LoadEffect
import HyperBerry.BootLoader.LoadAtomic
import HyperBerry.Vcpu.State
import HyperBerry.Vcpu.Assembly
import HyperBerry.Vcpu.Switch
import HyperBerry.Vcpu.Exit
import HyperBerry.Vmm.Model
import HyperBerry.Vmm.RunLoop
import HyperBerry.Gic.Model
import HyperBerry.Gic.ListRegisters
import HyperBerry.Log.Number
import HyperBerry.Log.Format
import HyperBerry.Mmu.LiveWalk
