import Affix.Foundation.CInt
import Affix.Foundation.Bytes
import Affix.Foundation.Memory
import Affix.Foundation.Utf8
import Affix.Model.Text
import Affix.Model.TypeObject
import Affix.Foundation.Numeral
import Affix.Foundation.Layout
import Affix.Interface.Decl
import Affix.Interface.CLayout
import Affix.Analysis.Placement
import Affix.Analysis.StructLayout
import Affix.Model.Halt
import Affix.Model.Aggregate
import Affix.Analysis.WellBuilt
import Affix.Analysis.AggregateDescriptor
import Affix.Foundation.Float
import Affix.Model.Perl
import Affix.Foundation.Exec
import Affix.Model.Heap
import Affix.Model.Marshal
import Affix.Model.Dyncall
import Affix.Model.Trigger
import Affix.Interface.CTypes
import Affix.Analysis.Calls
import Affix.Analysis.IntegerRoundTrip
import Affix.Analysis.PushedArguments
import Affix.Model.Callback
import Affix.Analysis.CallbackNumbers
import Affix.Analysis.CallbackSignature
import Affix.Model.Itanium
import Affix.Interface.CxxSymbol
import Affix.Analysis.Mangling
import Affix.Model.Library
import Affix.Foundation.Run
import Affix.Analysis.LibraryHolders
import Affix.Model.CallTree
import Affix.Interface.SharedMachine
import Affix.Analysis.NestedCalls
import Affix.Analysis.ResultCell
import Affix.Model.Pointer
import Affix.Analysis.RecordRoundTrip
import Affix.Analysis.StringRoundTrip
import Affix.Analysis.PointerArguments
import Affix.Foundation.Regions
import Affix.Interface.Nested
import Affix.Analysis.FieldRanges
import Affix.Model.Offsetof
import Affix.Interface.FieldPath
import Affix.Analysis.PathOffsets
import Affix.Analysis.ArrayRoundTrip
import Affix.Interface.Conversion
import Affix.Analysis.ScalarPaths
import Affix.Interface.Callable
import Affix.Analysis.FunctionPointers
import Affix.Model.Pin
import Affix.Interface.Binding
import Affix.Analysis.Pinning
import Affix.Model.TypeHeap
import Affix.Interface.TypeUse
import Affix.Analysis.StoredMembers
import Affix.Analysis.SharedTypes
import Affix.Model.SharedArguments
import Affix.Interface.PrivateCopy
import Affix.Analysis.SharedArguments
import Affix.Interface.FieldImage
import Affix.Analysis.ScalarFields
import Affix.Analysis.StructImage
import Affix.Foundation.Arithmetic
import Affix.Analysis.Increment
import Affix.Interface.CEnum
import Affix.Analysis.EnumExpressions
import Affix.Analysis.EnumValues
import Affix.Analysis.CharEnumeration
import Affix.Model.Typedef
import Affix.Interface.TypeName
import Affix.Analysis.TypeNames
import Affix.Analysis.UnionElements
import Affix.Analysis.ArgumentStack
import Affix.Analysis.CopiedScalars
import Affix.Analysis.LibrarySearch
import Affix.Analysis.MangledNames
import Affix.Analysis.NativeAttributes
import Affix.Analysis.WideStrings
import Affix.Analysis.ArrayBounds
import Affix.Analysis.AggregateReturn
import Affix.Analysis.CallThrough
import Affix.Analysis.Classification
import Affix.Analysis.InPlace
import Affix.Analysis.PinnedFields
import Affix.Analysis.StructsByValue
import Affix.Analysis.PerlToPerl
