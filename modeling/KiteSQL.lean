import KiteSQL.Lib.LexCode
import KiteSQL.Lib.Endian
import KiteSQL.Lib.ByteReader
import KiteSQL.Lib.FloatBits
import KiteSQL.Lib.Scientific
import KiteSQL.Types.Decimal
import KiteSQL.Types.LogicalType
import KiteSQL.Types.Value
import KiteSQL.Types.Typing
import KiteSQL.Expression.Operator
import KiteSQL.Errors
import KiteSQL.Types.MemComparable
import KiteSQL.Types.StringCode
import KiteSQL.Types.DecimalDigits
import KiteSQL.Types.DecimalCode
import KiteSQL.Types.KeyOrder
import KiteSQL.Types.KeyDecode
import KiteSQL.Serdes.DataValue
import KiteSQL.Serdes.StableHash
import KiteSQL.Storage.TableCodec
import KiteSQL.Types.Time
import KiteSQL.Lib.Bitmap
import KiteSQL.Lib.Iterate
import KiteSQL.Lib.Slice
import KiteSQL.Types.Padding
import KiteSQL.Lib.Wildcard
import KiteSQL.Lib.Truth
import KiteSQL.Lib.MachineInt
import KiteSQL.Types.CommonType
import KiteSQL.Types.Evaluator.Like
import KiteSQL.Types.Evaluator.LikeMatch
import KiteSQL.Types.Evaluator.Numeric
import KiteSQL.Types.Evaluator.Typed
import KiteSQL.Types.Evaluator.Binary
import KiteSQL.Types.Evaluator.Defined
import KiteSQL.Types.Evaluator.Rows
import KiteSQL.Types.Evaluator.Order
import KiteSQL.Types.Evaluator.Unary
import KiteSQL.Types.Evaluator.Exact
import KiteSQL.Types.Serialize
import KiteSQL.Types.Tuple
import KiteSQL.Catalog.Table
import KiteSQL.Storage.Transaction
import KiteSQL.Storage.TableScan
import KiteSQL.Storage.IndexIter
import KiteSQL.Storage.IndexScan
import KiteSQL.Lib.IndexedRows
import KiteSQL.Lib.Region
import KiteSQL.Lib.Stateful
import KiteSQL.Types.KeyEq
import KiteSQL.Types.Cast
import KiteSQL.Storage.IndexedTable
import KiteSQL.Execution.Dml
import KiteSQL.Execution.RowWrites
import KiteSQL.Storage.RowKeys
import KiteSQL.Execution.Assign
import KiteSQL.Execution.RowSound
import KiteSQL.Execution.InsertExact
import KiteSQL.Execution.UpdateExact
import KiteSQL.Execution.Frame
import KiteSQL.Execution.DmlExact
import KiteSQL.Execution.Overwrite
import KiteSQL.Execution.Constraints
import KiteSQL.Execution.Copy
import KiteSQL.Execution.UpdateRows
import KiteSQL.Storage.Refusals
import KiteSQL.Execution.FailedInsert
import KiteSQL.Execution.CharKeys
import KiteSQL.Lib.Batches
import KiteSQL.Lib.KeyRange
import KiteSQL.Catalog.Alter
import KiteSQL.Storage.Metadata
import KiteSQL.Storage.Schema
import KiteSQL.Storage.RemoveRange
import KiteSQL.Lib.Traverse
import KiteSQL.Storage.KeyFamilies
import KiteSQL.Storage.CatalogRuns
import KiteSQL.Lib.Join
import KiteSQL.Planner.Plan
import KiteSQL.Optimizer.PushdownLimit
import KiteSQL.Lib.KeyedMap
import KiteSQL.Types.ValueEq
import KiteSQL.Execution.HashJoin
import KiteSQL.Execution.HashJoinProbe
import KiteSQL.Execution.HashJoinOuter
import KiteSQL.Execution.HashJoinRows
import KiteSQL.Storage.Backends
import KiteSQL.Lib.Runs
import KiteSQL.Storage.RocksDb
import KiteSQL.Storage.RocksTransaction
import KiteSQL.Storage.Isolation
import KiteSQL.Storage.Conflicts
import KiteSQL.Expression.Syntax
import KiteSQL.Expression.Eval
import KiteSQL.Expression.Between
import KiteSQL.Expression.Range
import KiteSQL.Expression.RangeDetacher
import KiteSQL.Execution.PreparedScan
import KiteSQL.Expression.SingleRange
import KiteSQL.Types.SortKeys
import KiteSQL.Planner.Sort
import KiteSQL.Execution.HashJoinOuterRows
import KiteSQL.Execution.RowBitmap
import KiteSQL.Execution.NestedLoopJoin
import KiteSQL.Execution.NestedLoopRows
import KiteSQL.Execution.NestedLoopKeys
import KiteSQL.Execution.PlanRows
import KiteSQL.Lib.StableSort
import KiteSQL.Planner.SortCode
import KiteSQL.Execution.TopK
import KiteSQL.Execution.Spill
import KiteSQL.Execution.SpillSegments
import KiteSQL.Execution.RecursiveCte
import KiteSQL.Execution.RecursiveCteRows
import KiteSQL.Lib.Grouping
import KiteSQL.Execution.Aggregate
import KiteSQL.Execution.StreamAgg
import KiteSQL.Execution.StreamAggRows
import KiteSQL.Execution.SimpleAgg
import KiteSQL.Optimizer.MinMaxTopK
import KiteSQL.Lib.Matching
import KiteSQL.Execution.SetMembership
import KiteSQL.Execution.MarkApply
import KiteSQL.Execution.MarkApplyRows
import KiteSQL.Expression.Columns
import KiteSQL.Types.Evaluator.TimeArith
import KiteSQL.Expression.SubString
import KiteSQL.Lib.Cut
import KiteSQL.Expression.RangeSet
import KiteSQL.Types.Evaluator.Stored
import KiteSQL.Expression.DetachExact
import KiteSQL.Optimizer.Core.CmSketch
import KiteSQL.Optimizer.Core.CmStorage
import KiteSQL.Expression.Position
import KiteSQL.Types.PartialOrder
import KiteSQL.Expression.PrefixBounds
import KiteSQL.Expression.PrefixRange
import KiteSQL.Lib.Compactor
import KiteSQL.Optimizer.Core.KllSketch
import KiteSQL.Optimizer.CoveredScan
import KiteSQL.Optimizer.CombineOperators
import KiteSQL.Expression.Equality
