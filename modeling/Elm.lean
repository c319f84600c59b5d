import Elm.Lib.Loop
import Elm.Lib.BinTree
import Elm.Avl.GenTree
import Elm.Avl.Run
import Elm.Avl.Map
import Elm.Stree.Tree
import Elm.Stree.Builder
import Elm.Stree.SegmentBuilder
import Elm.Stree.SegmentLookup
import Elm.Lib.Bits
import Elm.Util.BitVector
import Elm.Util.BitVectorView
import Elm.Util.BitVectorObservers
import Elm.Data.HashTable
import Elm.Data.HashTableBuckets
import Elm.Data.HashTableTraverse
import Elm.Data.HashTableRun
import Elm.Alloc.BlockAllocatorWithGC
import Elm.Alloc.BlockGCSweep
import Elm.Alloc.BlockGCRun
import Elm.Alloc.SimpleGC
import Elm.Alloc.SimpleGCSweep
import Elm.Alloc.SimpleGCRun
import Elm.Alloc.StackAllocator
import Elm.Alloc.StackAllocatorRun
import Elm.Io.Input
import Elm.Json.Parser
import Elm.Json.Lexer
import Elm.Json.Termination
import Elm.Checksum.MD5
import Elm.Checksum.MD5Run
import Elm.Checksum.MD5Digest
import Elm.Data.Array
import Elm.Data.Vector
import Elm.Data.VectorRun
import Elm.Sys.JobScheduler
import Elm.Sys.JobSchedulerRun
import Elm.Sys.Plugin
import Elm.Sys.PluginRun
import Elm.Xom.Dtd
import Elm.Xom.Parses
import Elm.Xom.Events
import Elm.Alloc.ListGC
import Elm.Avl.Set
import Elm.Imm.List
import Elm.Imm.ListRun
import Elm.Alloc.GroupedGC
import Elm.Alloc.GroupedGCSweep
import Elm.Alloc.GroupedGCRun
import Elm.Json.Grammar
import Elm.Json.Reading
import Elm.Json.Events
import Elm.Json.Number
import Elm.Json.Accepted
import Elm.Io.Output
import Elm.Io.Utf8
import Elm.Json.Saver
import Elm.Json.SaverRun
import Elm.Json.RoundTrip
import Elm.Lib.RefCount
import Elm.Strings.String
import Elm.Strings.StringRun
import Elm.Lib.RunLength
import Elm.Util.WAHVector
import Elm.Util.WAHVectorBlocks
import Elm.Util.WAHVectorLoops
import Elm.Util.WAHVectorUpdate
import Elm.Util.WAHVectorBits
import Elm.Util.WAHVectorRun
import Elm.Util.WAHVectorHistory
import Elm.Util.WAHVectorObservers
import Elm.Data.VectorQueue
import Elm.Data.VectorQueueRun
import Elm.Io.BufferedOutStream
import Elm.Io.BufferedOutStreamRun
import Elm.Io.BufferedInStream
import Elm.Data.TreeBag
import Elm.Data.TreeBagRun
import Elm.Data.BinomialQueue
import Elm.Data.BinomialQueueRun
import Elm.Options.Manager
import Elm.Options.ManagerParse
import Elm.Data.FragTable
import Elm.Data.FragTableRun
import Elm.Data.HashTableLookups
import Elm.Avl.Tree
import Elm.Avl.TreeBalance
import Elm.Avl.TreeRun
import Elm.Io.Scan
import Elm.Io.Utf16
import Elm.Checksum.Fletcher
import Elm.Io.VarExpander
import Elm.Util.SmartPtr
import Elm.Util.SharedPtr
import Elm.Util.LockPtr
import Elm.Data.LinkedList
import Elm.Data.LinkedListRun
import Elm.Data.ListMap
import Elm.Data.DLList
import Elm.Data.DLListRun
import Elm.Data.BiDiList
import Elm.Data.BiDiListRun
import Elm.Lib.Planned
import Elm.Serial.Unserializer
import Elm.Serial.Flush
import Elm.Serial.FlushRun
import Elm.Avl.Iter
import Elm.Avl.Sparse
import Elm.Lib.SortedSet
import Elm.Avl.Filled
import Elm.Avl.SetOps
import Elm.Avl.MapRun
import Elm.Avl.Nodes
import Elm.Lib.LinkedTree
import Elm.Avl.Copy
import Elm.Data.ListSet
import Elm.Alloc.GroupedGCWord
import Elm.Io.IntFormat
import Elm.Io.ScanULong
import Elm.Io.ScanDouble
import Elm.Io.Swallow
import Elm.Json.Delivered
import Elm.Json.SaverEscape
import Elm.Sys.Canonical
import Elm.Sys.RelativeTo
import Elm.Data.Quicksort
import Elm.Data.QuicksortRun
import Elm.Xom.Repetition
import Elm.Xom.Attributes
import Elm.Serial.Compound
import Elm.Serial.CompoundRun
import Elm.Inhstruct.BinTree
import Elm.Data.ListQueue
import Elm.Data.TreeMap
import Elm.Inhstruct.SortedBinTree
import Elm.Inhstruct.Tree
import Elm.Inhstruct.TreeRun
import Elm.Data.SortedList
import Elm.Stree.MarkerBuilder
import Elm.Data.HashTableCopy
import Elm.Data.HashSet
import Elm.Data.HashMap
import Elm.Xom.Steps
import Elm.Xom.Traces
import Elm.Lib.Cursor
import Elm.Lib.Occurrence
import Elm.Lib.Memory
import Elm.Lib.IntType
import Elm.Util.BitVectorIter
import Elm.Util.WAHVectorAddress
import Elm.Util.WAHVectorWhole
import Elm.Strings.Search
import Elm.Strings.SearchRun
import Elm.Strings.Replace
import Elm.Strings.Split
import Elm.Util.Version
import Elm.Alloc.RawBlockAllocator
import Elm.Alloc.RawBlockAllocatorRun
import Elm.Data.NRange
import Elm.Data.NRangeRun
import Elm.Util.BitVectorResize
import Elm.Util.BitVectorShift
import Elm.Util.BitVectorShiftRun
import Elm.Util.BitVectorShifts
import Elm.Util.BitVectorRotateLeft
import Elm.Util.BitVectorRotateRight
import Elm.Util.BitVectorMoves
import Elm.Util.Int
import Elm.Stree.BuilderArray
import Elm.Util.Buffer
import Elm.Rtti.AbstractClass
import Elm.Lib.Lines
import Elm.Io.LineIter
import Elm.Alloc.DynBlock
import Elm.Io.InStream
import Elm.Strings.Formatter
import Elm.Io.StreamPipe
import Elm.Ini.Lines
import Elm.Ini.File
import Elm.Ini.Load
import Elm.Xom.Validity
import Elm.Rtti.Registry
import Elm.Util.BothVectors
import Elm.Serial.TextSerializer
