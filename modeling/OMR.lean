import OMR.Compiler.ABitVector
import OMR.Compiler.AVLTreeRuns
import OMR.Compiler.BitContainer
import OMR.Compiler.BitVectorResetAll
import OMR.Compiler.BitVectorSparse
import OMR.Compiler.CodeCacheAllocation
import OMR.Compiler.CodeCacheTrampolineRuns
import OMR.Compiler.ColouringRuns
import OMR.Compiler.HashTabRuns
import OMR.Compiler.HedgeTree
import OMR.Compiler.SaveRegisters
import OMR.Compiler.SparseComposedCursor
import OMR.Compiler.VPMergeConditions
import OMR.Compiler.VPRelation
import OMR.GC.AggregatedCellListRuns
import OMR.GC.CompactForwardingHints
import OMR.GC.CompactFreeListExact
import OMR.GC.CooperativeCopyRuns
import OMR.GC.ForwardingRace
import OMR.GC.FreeSizeSearch
import OMR.GC.HeapMapIteration
import OMR.GC.LargestFreeEntry
import OMR.GC.ObjectHeapIteratorSegregated
import OMR.GC.PacketListRuns
import OMR.GC.ParallelTaskWorkUnits
import OMR.GC.PoolHintSafety
import OMR.GC.ReaderWriterLockSafety
import OMR.GC.SplitPoolExpansion
import OMR.GC.SplitPoolPartition
import OMR.GC.SplitPoolRuns
import OMR.GC.SublistPoolRuns
import OMR.GC.WorkPacketsRuns
import OMR.Om.SlotLayout
import OMR.Om.ValueBuilder
import OMR.Port.FormatAccess
import OMR.Port.FormatFields
import OMR.Port.OmrHeapContents
import OMR.Thread.RWMutexProgress
import OMR.Util.HashTableRuns
import OMR.Util.HashTableWalk
import OMR.Util.PoolRuns
import OMR.Util.SpaceSavingGuarantee
