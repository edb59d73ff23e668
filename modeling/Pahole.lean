import Pahole.Btf.Libbpf
import Pahole.BtfEncoder.AddTypes
import Pahole.BtfEncoder.AddedFuncs
import Pahole.BtfEncoder.ArrayIndex
import Pahole.BtfEncoder.CollectKfuncs
import Pahole.BtfEncoder.CombinedStates
import Pahole.BtfEncoder.CuPlan
import Pahole.BtfEncoder.CuReferences
import Pahole.BtfEncoder.CuSymbols
import Pahole.BtfEncoder.Datasecs
import Pahole.BtfEncoder.ElfFunctions
import Pahole.BtfEncoder.EmittedFuncs
import Pahole.BtfEncoder.Encode
import Pahole.BtfEncoder.EncodeCu
import Pahole.BtfEncoder.EncodeTag
import Pahole.BtfEncoder.ErrorReports
import Pahole.BtfEncoder.FuncStateArray
import Pahole.BtfEncoder.FunctionTable
import Pahole.BtfEncoder.IdAgreement
import Pahole.BtfEncoder.InlineSites
import Pahole.BtfEncoder.LocParams
import Pahole.BtfEncoder.MatchedTypes
import Pahole.BtfEncoder.SaveFunc
import Pahole.BtfEncoder.SavedFuncs
import Pahole.BtfEncoder.SavedFuncsScript
import Pahole.BtfEncoder.SavedNames
import Pahole.BtfEncoder.SavedPrototypes
import Pahole.BtfEncoder.State
import Pahole.BtfEncoder.TypeShapes
import Pahole.BtfEncoder.TypesMatch
import Pahole.BtfLoader.ArrayDimensions
import Pahole.BtfLoader.CuRoundTrip
import Pahole.BtfLoader.DeclTags
import Pahole.BtfLoader.Enumerations
import Pahole.BtfLoader.InferAlignment
import Pahole.BtfLoader.LoadTypes
import Pahole.Codiff.AccountCus
import Pahole.Codiff.DiffStruct
import Pahole.CtfLoader.Sections
import Pahole.CtfLoader.SwappedSections
import Pahole.Dutil.Strlist
import Pahole.Dutil.StrlistLoad
import Pahole.DwarfLoader.AltPartialUnits
import Pahole.DwarfLoader.BitfieldOffsets
import Pahole.DwarfLoader.CusList
import Pahole.DwarfLoader.FunctionChains
import Pahole.DwarfLoader.HashBits
import Pahole.DwarfLoader.HashTags
import Pahole.DwarfLoader.JobQueue
import Pahole.DwarfLoader.LoadModule
import Pahole.DwarfLoader.ParameterLocations
import Pahole.DwarfLoader.QueueOrder
import Pahole.DwarfLoader.QueueProgress
import Pahole.DwarfLoader.QueueWakeups
import Pahole.DwarfLoader.SortByOffset
import Pahole.DwarfLoader.TypeLookup
import Pahole.DwarfLoader.TypeTags
import Pahole.Dwarves.BiggestMember
import Pahole.Dwarves.Cu
import Pahole.Dwarves.EnumeratorPrefix
import Pahole.Dwarves.FixupAlignment
import Pahole.Dwarves.FixupKeeps
import Pahole.Dwarves.FixupLayout
import Pahole.Dwarves.FixupSpacing
import Pahole.Dwarves.FunctionLookup
import Pahole.Dwarves.HoleCounts
import Pahole.Dwarves.Holes
import Pahole.Dwarves.InlineExpansions
import Pahole.Dwarves.Packed
import Pahole.Dwarves.PackedLayout
import Pahole.Dwarves.PtrTable
import Pahole.Dwarves.PtrTableArray
import Pahole.Dwarves.Reorganize
import Pahole.Dwarves.Tag
import Pahole.Dwarves.TypeWalks
import Pahole.DwarvesEmit.DeclaredFirst
import Pahole.DwarvesEmit.DefinedOnce
import Pahole.DwarvesEmit.Emissions
import Pahole.DwarvesFprintf.LevelsRestored
import Pahole.DwarvesFprintf.RecursivityLevel
import Pahole.DwarvesFprintf.TypeLoops
import Pahole.Libctf.Encode
import Pahole.Libctf.Load
import Pahole.Libctf.RoundTrip
import Pahole.Pahole.ClassNames
import Pahole.Pahole.HeaderPaths
import Pahole.Pahole.Prettify
import Pahole.Pahole.RawValues
import Pahole.Pahole.RecordFraming
import Pahole.Pahole.SortOrders
import Pahole.Pahole.SortOutput
import Pahole.Pahole.SortedOnce
import Pahole.Pahole.TypeEnums
import Pahole.Pfunct.FindFunction
import Pahole.Rbtree.Erase
import Pahole.Rbtree.EraseColor
import Pahole.Rbtree.Functions
import Pahole.Rbtree.InsertColor
import Pahole.Rbtree.Nodes
import Pahole.Rbtree.Strlist
import Pahole.Rbtree.Structures
import Pahole.Rbtree.Walk
import Pahole.Support.BinarySearch
import Pahole.Support.Bracketed
import Pahole.Support.ByteOrder
import Pahole.Support.ByteStream
import Pahole.Support.CommonPrefix
import Pahole.Support.CutShort
import Pahole.Support.Delimited
import Pahole.Support.EndToEnd
import Pahole.Support.ExchangeSort
import Pahole.Support.FallibleTable
import Pahole.Support.FirstBiggest
import Pahole.Support.Following
import Pahole.Support.Inheritance
import Pahole.Support.InsertionOrder
import Pahole.Support.KeyRuns
import Pahole.Support.KeyedTrees
import Pahole.Support.KeyedUpdates
import Pahole.Support.Layout
import Pahole.Support.Marking
import Pahole.Support.MatchedSums
import Pahole.Support.MergeSort
import Pahole.Support.Qsort
import Pahole.Support.RedBlack
import Pahole.Support.RefinedOrder
import Pahole.Support.SearchTree
import Pahole.Support.SignedBits
import Pahole.Support.Success
import Pahole.Support.Transition
import Pahole.Support.TreeLookup
import Pahole.Support.Walks
import Pahole.Support.Workers
