import GuardRails.Result.Accounting
import GuardRails.Result.AddrInfo
import GuardRails.Result.ArgumentBounds
import GuardRails.Result.Arithmetic
import GuardRails.Result.Atomicity
import GuardRails.Result.Configuration
import GuardRails.Result.Conservation
import GuardRails.Result.CoreFile
import GuardRails.Result.CoreReport
import GuardRails.Result.CyclicWait
import GuardRails.Result.DeadPointer
import GuardRails.Result.DelayQueue
import GuardRails.Result.DelaySearch
import GuardRails.Result.DumpRecords
import GuardRails.Result.ExitReport
import GuardRails.Result.FilteredReport
import GuardRails.Result.HighWater
import GuardRails.Result.IdealHeap
import GuardRails.Result.Isolation
import GuardRails.Result.LeakReport
import GuardRails.Result.LinkedLists
import GuardRails.Result.LockDiscipline
import GuardRails.Result.MetaCorruption
import GuardRails.Result.NoFalseAlarm
import GuardRails.Result.OptionLine
import GuardRails.Result.Overrun
import GuardRails.Result.PartialDump
import GuardRails.Result.Placement
import GuardRails.Result.PoolTiling
import GuardRails.Result.Quarantine
import GuardRails.Result.Realloc
import GuardRails.Result.Refill
import GuardRails.Result.Separation
import GuardRails.Result.Spurious
import GuardRails.Result.Thrift
import GuardRails.Result.TrackerFile
import GuardRails.Result.Nesting
