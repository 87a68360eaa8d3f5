import MySQL.Mysys.QueuesRuns
import MySQL.Mysys.ThrLock.Wakeups
import MySQL.Mysys.ThrLock.Deadlock
import MySQL.Sql.MyDecimal
import MySQL.Mysys.HashRuns
import MySQL.Sql.Time
import MySQL.Strings.CtypeMb
import MySQL.Strings.Like
import MySQL.Mysys.TreeRuns
import MySQL.Heap.Duplicates
import MySQL.Sql.NetServ.Compressed
import MySQL.Innobase.Read.Purge
import MySQL.Sql.Filesort.Errors
import MySQL.Sql.Filesort.MergeSort
import MySQL.Innobase.Mem.Runs
import MySQL.Innobase.Index.Runs
import MySQL.Strings.Decimal.Sub
import MySQL.Strings.Decimal.Mul
import MySQL.Strings.Decimal.DivMod
import MySQL.Strings.Decimal.RoundValue
