import LiteOLAP.ForStd.BitStream
import LiteOLAP.ForStd.Bytes
import LiteOLAP.ForStd.Chain
import LiteOLAP.ForStd.EState
import LiteOLAP.ForStd.Ensures
import LiteOLAP.ForStd.Except
import LiteOLAP.ForStd.Float
import LiteOLAP.ForStd.KeyMap
import LiteOLAP.ForStd.Kleene
import LiteOLAP.ForStd.List
import LiteOLAP.ForStd.Outcomes
import LiteOLAP.ForStd.Recency
import LiteOLAP.ForStd.SortedMap
import LiteOLAP.ForStd.StableSort
import LiteOLAP.ForStd.WorkPool
import LiteOLAP.Native.Ast
import LiteOLAP.Native.Binder
import LiteOLAP.Native.BufferPool
import LiteOLAP.Native.Catalog
import LiteOLAP.Native.ColumnScan
import LiteOLAP.Native.ColumnStream
import LiteOLAP.Native.DB
import LiteOLAP.Native.DataChunk
import LiteOLAP.Native.DiskManager
import LiteOLAP.Native.Encoding
import LiteOLAP.Native.Expression
import LiteOLAP.Native.HashAggregate
import LiteOLAP.Native.HashJoin
import LiteOLAP.Native.Lexer
import LiteOLAP.Native.Operator
import LiteOLAP.Native.PagedStream
import LiteOLAP.Native.Parser
import LiteOLAP.Native.Planner
import LiteOLAP.Native.RowOperators
import LiteOLAP.Native.Schema
import LiteOLAP.Native.Value
import LiteOLAP.Native.VectorBuffers
import LiteOLAP.Spec.AccumulatorCorrect
import LiteOLAP.Spec.BitPackingCorrect
import LiteOLAP.Spec.BufferPoolCorrect
import LiteOLAP.Spec.BufferPoolLinked
import LiteOLAP.Spec.CatalogChainCorrect
import LiteOLAP.Spec.CatalogCodecCorrect
import LiteOLAP.Spec.CatalogGrowth
import LiteOLAP.Spec.ColumnRoundtrip
import LiteOLAP.Spec.ColumnScanCorrect
import LiteOLAP.Spec.ColumnStreamCorrect
import LiteOLAP.Spec.ConjunctsCorrect
import LiteOLAP.Spec.DBInvariant
import LiteOLAP.Spec.DiskRules
import LiteOLAP.Spec.EncodingChoice
import LiteOLAP.Spec.EncodingCorrect
import LiteOLAP.Spec.FastPathCorrect
import LiteOLAP.Spec.FlushCorrect
import LiteOLAP.Spec.FullFile
import LiteOLAP.Spec.HashAggregateCorrect
import LiteOLAP.Spec.HashJoinCorrect
import LiteOLAP.Spec.InferenceCorrect
import LiteOLAP.Spec.InsertCorrect
import LiteOLAP.Spec.InterruptedPersist
import LiteOLAP.Spec.JoinKeyCorrect
import LiteOLAP.Spec.KeyStringCorrect
import LiteOLAP.Spec.LexerCorrect
import LiteOLAP.Spec.LifetimeCorrect
import LiteOLAP.Spec.LiteralsCorrect
import LiteOLAP.Spec.LruCorrect
import LiteOLAP.Spec.MalformedCorrect
import LiteOLAP.Spec.NamedRows
import LiteOLAP.Spec.OperatorCorrect
import LiteOLAP.Spec.OrderByCorrect
import LiteOLAP.Spec.PagedStreamCorrect
import LiteOLAP.Spec.PagedStreamRoundtrip
import LiteOLAP.Spec.ParserCorrect
import LiteOLAP.Spec.ParserSafe
import LiteOLAP.Spec.PendingCorrect
import LiteOLAP.Spec.PlainJoin
import LiteOLAP.Spec.PlainPlan
import LiteOLAP.Spec.PlanMeaning
import LiteOLAP.Spec.PlanScans
import LiteOLAP.Spec.PlanSchemas
import LiteOLAP.Spec.PlanShape
import LiteOLAP.Spec.PlanSound
import LiteOLAP.Spec.PoolRules
import LiteOLAP.Spec.PrintCorrect
import LiteOLAP.Spec.QueryCorrect
import LiteOLAP.Spec.Renaming
import LiteOLAP.Spec.RowEvalCorrect
import LiteOLAP.Spec.RowGroupCorrect
import LiteOLAP.Spec.ScanNames
import LiteOLAP.Spec.ScanSafe
import LiteOLAP.Spec.SelectCorrect
import LiteOLAP.Spec.Session
import LiteOLAP.Spec.StatementEffects
import LiteOLAP.Spec.StatementPrint
import LiteOLAP.Spec.StatementsCorrect
import LiteOLAP.Spec.StatementsWritten
import LiteOLAP.Spec.StreamRows
import LiteOLAP.Spec.TableContents
import LiteOLAP.Spec.ThreeValuedCorrect
import LiteOLAP.Spec.VectorBuffersCorrect
import LiteOLAP.Spec.WideScan
import LiteOLAP.Spec.WorkerFaults
import LiteOLAP.Spec.ZonePushdown
