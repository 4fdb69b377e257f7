import RadixDb.Registry.Abort
import RadixDb.Registry.Cutoff
import RadixDb.Registry.RowWaits
import RadixDb.Db.HandOver
import RadixDb.Db.KeyExclusion
import RadixDb.Index.BTreeAnswers
import RadixDb.Index.OrderedLossless
import RadixDb.Index.RangeAdapter
import RadixDb.Data.ColumnSafe
import RadixDb.Index.ExactScan
import RadixDb.Cache.Semantic
import RadixDb.Catalog.Staging
import RadixDb.Mutation.FastPath
import RadixDb.Wal.AutoDdl
import RadixDb.Value.Arithmetic
