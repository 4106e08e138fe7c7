import FactorProofs.Library.Bits
import FactorProofs.Library.WordBitmap
import FactorProofs.Vm.Layouts
import FactorProofs.Vm.BitwiseHacks
import FactorProofs.Vm.MarkBits
import FactorProofs.Vm.ObjectStartMap
import FactorProofs.Library.Rounding
import FactorProofs.Math.Floats
import FactorProofs.Math.FloatDivision
import FactorProofs.Kernel.Equality
import FactorProofs.Library.Containers
import FactorProofs.Library.Intervals
import FactorProofs.Vm.FreeList
import FactorProofs.Vm.FreeListInvariant
import FactorProofs.Vm.Compaction
import FactorProofs.Vm.FreeListRuns
import FactorProofs.Library.Transition
import FactorProofs.Library.TriangularProbing
import FactorProofs.Core.OpenAddressing
import FactorProofs.Core.Hashtables
import FactorProofs.Core.HashSets
import FactorProofs.Core.SetOperations
import FactorProofs.Library.Digits
import FactorProofs.Vm.Bignum
import FactorProofs.Vm.BignumBitwise
import FactorProofs.Vm.BignumShift
import FactorProofs.Compiler.Cfg
import FactorProofs.Compiler.ValueNumbering
import FactorProofs.Math.Gcd
import FactorProofs.Math.Reals
import FactorProofs.Math.ExactIntervals
import FactorProofs.Math.Intervals
import FactorProofs.Vm.BignumConvert
import FactorProofs.Vm.FixnumMath
import FactorProofs.Math.Parser
import FactorProofs.Math.Printer
import FactorProofs.Core.Ranges
import FactorProofs.Core.Strings
import FactorProofs.Io.Utf8
import FactorProofs.Io.Utf16
import FactorProofs.Library.Groups
import FactorProofs.Codecs.Base24
import FactorProofs.Codecs.Base64
import FactorProofs.Library.MergeSort
import FactorProofs.Core.Sorting
import FactorProofs.Library.Moves
import FactorProofs.Library.FunctionalGraph
import FactorProofs.Compiler.ParallelCopy
import FactorProofs.Compiler.ParallelCopyRuns
import FactorProofs.Compiler.ParallelCopyCycles
import FactorProofs.Library.Dominators
import FactorProofs.Library.RankedTree
import FactorProofs.Compiler.Rpo
import FactorProofs.Compiler.Dominance
import FactorProofs.Compiler.DominanceIterate
import FactorProofs.Compiler.DominanceTree
import FactorProofs.Library.Runs
import FactorProofs.Vm.Sweep
import FactorProofs.Library.LittleEndian
import FactorProofs.Library.BitFields
import FactorProofs.Vm.InstructionOperands
import FactorProofs.Core.BinarySearch
import FactorProofs.Core.IntervalSets
import FactorProofs.Math.IntegerSqrt
import FactorProofs.Math.IntegerLog
import FactorProofs.Library.BinaryHeap
import FactorProofs.Library.PriorityQueue
import FactorProofs.Core.Heaps
import FactorProofs.Core.HeapsSift
import FactorProofs.Core.HeapsInvariant
import FactorProofs.Math.Erato
import FactorProofs.Library.PowMod
import FactorProofs.Math.MillerRabin
import FactorProofs.Math.Primes
import FactorProofs.Library.Lex
import FactorProofs.Math.Combinatorics
import FactorProofs.Math.Combinations
import FactorProofs.Math.Selections
import FactorProofs.Math.CombinationsWithReplacement
import FactorProofs.Library.Ranking
import FactorProofs.Math.PermutationIndices
import FactorProofs.Math.CombinationIndices
import FactorProofs.Math.UniquePermutations
