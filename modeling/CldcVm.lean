import CldcVm.Bytecodes.Data
import CldcVm.Handles.CheckBytecodes
import CldcVm.Interpreter.Simulation
import CldcVm.Lib.Comp
import CldcVm.Verifier.Forget
import CldcVm.Verifier.Reachable
import CldcVm.Verifier.Pass
import CldcVm.Interpreter.Soundness
import CldcVm.Compiler.Relocation
import CldcVm.Compiler.RelocationStream
import CldcVm.Compiler.CompressedFrame
import CldcVm.Compiler.RelocationReader
import CldcVm.Handles.ClassIdentifier
import CldcVm.Handles.TypeSymbol
import CldcVm.Handles.Descriptor
import CldcVm.Handles.InternalParse
import CldcVm.Handles.ParseGrammar
import CldcVm.Handles.SignatureStream
import CldcVm.Dispatch.ClassFile
import CldcVm.Dispatch.Overriding
import CldcVm.Dispatch.VirtualTable
import CldcVm.Dispatch.VirtualDispatch
import CldcVm.Dispatch.InterfaceTable
import CldcVm.Dispatch.InterfaceDispatch
import CldcVm.Merge.ConformTo
import CldcVm.Merge.Effects
import CldcVm.Merge.Invariant
import CldcVm.Merge.Preserves
import CldcVm.Merge.MergeCorrect
import CldcVm.Lib.Tiling
import CldcVm.Lib.Words
import CldcVm.Malloc.Pool
import CldcVm.Malloc.Blocks
import CldcVm.Malloc.Heap
import CldcVm.Rmfs.NameTable
import CldcVm.Rmfs.NameEntries
import CldcVm.Rmfs.NameMap
import CldcVm.Resolution.ConstantPool
import CldcVm.Resolution.Attempts
import CldcVm.Resolution.OrderIndependence
import CldcVm.Lib.Dependency
import CldcVm.Loading.SystemDictionary
import CldcVm.Loading.Rounds
import CldcVm.Loading.Worklist
import CldcVm.Loading.LoadSystemClass
import CldcVm.Uri.Addresses
import CldcVm.Uri.Parser
import CldcVm.Uri.Scanning
import CldcVm.Uri.AddressGrammar
import CldcVm.Uri.AddressText
import CldcVm.Uri.AddressScan
import CldcVm.Uri.AddressValue
import CldcVm.Uri.Hosts
import CldcVm.Uri.IPv6Literals
import CldcVm.Uri.Authority
import CldcVm.Uri.Normalization
import CldcVm.Strings.CharacterStream
import CldcVm.Strings.Utf8Codec
import CldcVm.Files.BufferedFile
import CldcVm.Files.Cursor
import CldcVm.Files.Refinement
import CldcVm.Memory.Deficit
import CldcVm.Layout.FieldLayout
import CldcVm.Layout.Placement
import CldcVm.Layout.OopMap
import CldcVm.References.Handle
import CldcVm.References.Registry
import CldcVm.Jar.FindEntry
import CldcVm.Jar.EntryCache
import CldcVm.Lib.BitStream
import CldcVm.Stackmap.StackmapList
import CldcVm.Stackmap.Bitmaps
import CldcVm.Stackmap.RoundTrip
import CldcVm.Malloc.Capacity
import CldcVm.Files.FileDecoder
import CldcVm.Jar.EndHeader
import CldcVm.Parsing.StackmapAttribute
import CldcVm.Lib.Bitmap
import CldcVm.Lib.Exploration
import CldcVm.Parsing.Superinterfaces
import CldcVm.Handles.Walk
import CldcVm.Parsing.InvokeConflicts
import CldcVm.Lib.BitReversal
import CldcVm.Lib.CanonicalCode
import CldcVm.Inflate.CodeTable
import CldcVm.Inflate.TableLoop
import CldcVm.Inflate.QuickBits
import CldcVm.Inflate.MakeCodeTable
import CldcVm.Inflate.InputWindow
import CldcVm.Inflate.Inflater
import CldcVm.Inflate.Overrun
import CldcVm.Inflate.InputRuns
import CldcVm.CodeCache.Cache
import CldcVm.CodeCache.Removal
import CldcVm.CodeCache.Cleanup
import CldcVm.CodeCache.WeightDecay
import CldcVm.CodeCache.Eviction
import CldcVm.CodeCache.Generations
import CldcVm.CodeCache.FindMethod
import CldcVm.Memory.Ownership
import CldcVm.Compiler.FrameMap
import CldcVm.Compiler.FrameFlush
import CldcVm.Lib.Scatter
import CldcVm.Memory.RememberedSet
import CldcVm.Lib.Blocks
import CldcVm.Memory.LargeObject
import CldcVm.Memory.LargeObjectCompaction
import CldcVm.Memory.CompilerArea
import CldcVm.Lib.BitScan
import CldcVm.Lib.RoundRobin
import CldcVm.Compiler.RegisterAllocator
import CldcVm.Lib.Probing
import CldcVm.Handles.SymbolTable
import CldcVm.Handles.SymbolUniqueness
import CldcVm.Dispatch.OverrideTracking
import CldcVm.Dispatch.InlinedCalls
import CldcVm.Lib.Rotation
import CldcVm.Arm.Machine
import CldcVm.Arm.ArithImm
import CldcVm.Arm.Effect
import CldcVm.Arm.Splitting
import CldcVm.Arm.ArithImmCorrect
import CldcVm.Lib.Interning
import CldcVm.Lib.Cycles
import CldcVm.Lib.CycleSearch
import CldcVm.Deadlock.DeadlockFinder
import CldcVm.Deadlock.DeadlockSearch
import CldcVm.Deadlock.BlockedThreads
import CldcVm.Deadlock.DeadlockCount
import CldcVm.Deadlock.Monitors
import CldcVm.Romizer.Inliner
import CldcVm.Romizer.InlinerMachine
import CldcVm.Romizer.InlinerSteps
import CldcVm.Romizer.InlinerRules
import CldcVm.Romizer.InlinerPool
import CldcVm.Romizer.InlinerCorrect
import CldcVm.Romizer.MergedPool
import CldcVm.Romizer.MergedEntries
import CldcVm.Romizer.MergedCapacity
import CldcVm.Scheduler.NextRunnable
import CldcVm.Scheduler.NextRunnableCorrect
import CldcVm.Lib.LinkedChain
import CldcVm.Util.Hashtable
import CldcVm.Util.HashtableChains
import CldcVm.Util.HashtableCorrect
import CldcVm.Util.HashtableRefines
import CldcVm.Lang.StringBuffer
import CldcVm.Lang.StringBufferSteps
import CldcVm.Lang.StringBufferMethods
import CldcVm.Lang.StringImmutability
import CldcVm.Lib.BinaryHeap
import CldcVm.Util.TaskQueue
import CldcVm.Util.TaskQueueHeap
import CldcVm.Util.TimerAgenda
import CldcVm.Util.UserClock
import CldcVm.Security.Permissions
import CldcVm.Security.PermissionNames
import CldcVm.Security.PermissionCollections
import CldcVm.Security.PropertyCollections
import CldcVm.Lib.Calendars
import CldcVm.Util.CalendarFields
import CldcVm.Util.CalendarDates
import CldcVm.Util.ComputeTime
import CldcVm.Util.CalendarRoundTrip
import CldcVm.Util.CalendarArithmetic
import CldcVm.Util.FieldArithmetic
import CldcVm.Memory.BitRanges
import CldcVm.Memory.WriteBarrier
import CldcVm.Natives.ArrayCopy
