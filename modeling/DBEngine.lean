import DBEngine.Lib.ByteBuffer
import DBEngine.Lib.PagedProgram
import DBEngine.Lib.FlatStore
import DBEngine.Lib.PinDiscipline
import DBEngine.Lib.FlatFrames
import DBEngine.Lib.ProgramTriples
import DBEngine.Lib.Runs
import DBEngine.Lib.Generator
import DBEngine.Lib.Binary64
import DBEngine.Lib.Selection
import DBEngine.Python
import DBEngine.Numerals
import DBEngine.Storage.DiskManager
import DBEngine.Buffer.LruKReplacer
import DBEngine.Buffer.LruKOrder
import DBEngine.Buffer.BufferPool
import DBEngine.Buffer.PoolInvariant
import DBEngine.Buffer.PoolStates
import DBEngine.Buffer.PoolRefinement
import DBEngine.Buffer.Durability
import DBEngine.Buffer.Clients
import DBEngine.Buffer.PoolPrograms
import DBEngine.Storage.Page
import DBEngine.Storage.PageLayout
import DBEngine.Storage.PageHistory
import DBEngine.Storage.DirectoryPage
import DBEngine.Storage.DirectoryHistory
import DBEngine.Storage.HeapFile
import DBEngine.Storage.HeapLayout
import DBEngine.Storage.HeapHistory
import DBEngine.Storage.HeapMap
import DBEngine.Storage.HeapFailures
import DBEngine.Storage.SpilledPages
import DBEngine.Index.BTreePage
import DBEngine.Index.BTreePageLayout
import DBEngine.Index.BPlusTree
import DBEngine.Index.BTree
import DBEngine.Index.BTreeShape
import DBEngine.Index.BTreeNodes
import DBEngine.Index.BTreeRep
import DBEngine.Index.BTreeWrites
import DBEngine.Index.BTreeInsert
import DBEngine.Index.BTreeGrowth
import DBEngine.Index.IndexHistory
import DBEngine.Index.IndexCount
import DBEngine.Index.IndexShape
import DBEngine.Index.BTreeOrder
import DBEngine.Index.IndexSearch
import DBEngine.Index.BTreeSeparators
import DBEngine.Index.SearchTree
import DBEngine.Index.IndexRange
import DBEngine.Index.PinBalance
import DBEngine.Catalog.Value
import DBEngine.Catalog.Schema
import DBEngine.Catalog.RowCodec
import DBEngine.Catalog.Coercion
import DBEngine.Catalog.Table
import DBEngine.Catalog.TableRows
import DBEngine.Catalog.StoredTable
import DBEngine.Catalog.RowsFile
import DBEngine.Catalog.TableHistory
import DBEngine.Catalog.FailedRows
import DBEngine.Catalog.IndexedRows
import DBEngine.Catalog.StoredCatalog
import DBEngine.Catalog.CatalogHistory
import DBEngine.Catalog.TableFiles
import DBEngine.Catalog.DatabaseFiles
import DBEngine.Catalog.DatabaseHistory
import DBEngine.Execution.Expressions
import DBEngine.Execution.Logical
import DBEngine.Execution.LogicalPlanner
import DBEngine.Execution.InsertedRows
import DBEngine.Execution.InsertStatements
import DBEngine.Execution.QueryOptimizer
import DBEngine.Execution.Operators
import DBEngine.Execution.Denotation
import DBEngine.Execution.Pushdown
import DBEngine.Execution.PhysicalPlanner
import DBEngine.Execution.JoinSchemas
import DBEngine.Execution.ScanRows
import DBEngine.Execution.IndexSelection
import DBEngine.Execution.IntegerBounds
import DBEngine.Execution.SelectedRows
import DBEngine.Execution.JoinOperators
import DBEngine.Execution.JoinRows
import DBEngine.Execution.EquiJoins
import DBEngine.Execution.RowTypes
import DBEngine.Execution.DeletedRows
import DBEngine.Execution.ExactRanges
import DBEngine.Execution.QueryAnswers
import DBEngine.Execution.StoredStatements
import DBEngine.Execution.StatementFiles
import DBEngine.Execution.StatementHistory
import DBEngine.Execution.TableText
import DBEngine.Execution.QuietStatements
