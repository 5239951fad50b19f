import OsLabs.AccessChecks
import OsLabs.BitmapAllocation
import OsLabs.BitmapModel
import OsLabs.BlockAccounting
import OsLabs.BlockNarrowing
import OsLabs.BoundedLru
import OsLabs.BucketIndex
import OsLabs.Bytes
import OsLabs.CacheInvariant
import OsLabs.CacheMembers
import OsLabs.CacheModel
import OsLabs.CacheRefinement
import OsLabs.CheckedRun
import OsLabs.CleanInodes
import OsLabs.CommandPuts
import OsLabs.ConnectionPool
import OsLabs.ConnectionQueue
import OsLabs.CvSignal
import OsLabs.CvWait
import OsLabs.DecimalText
import OsLabs.DestroyedQueues
import OsLabs.DirMap
import OsLabs.DirModel
import OsLabs.DirOps
import OsLabs.DirectoryMaps
import OsLabs.DirectoryTree
import OsLabs.Dirents
import OsLabs.DirtyParents
import OsLabs.DiskAgreement
import OsLabs.DoublyLinked
import OsLabs.EvictionWait
import OsLabs.FailedCalls
import OsLabs.FailingCommands
import OsLabs.FileHistory
import OsLabs.FileOwnership
import OsLabs.FileRemoval
import OsLabs.FreedStacks
import OsLabs.FsAccounts
import OsLabs.FsCommands
import OsLabs.FsCreation
import OsLabs.FsErrors
import OsLabs.FsFiles
import OsLabs.FsFrames
import OsLabs.FsFreeing
import OsLabs.FsGrowth
import OsLabs.FsImage
import OsLabs.FsMaking
import OsLabs.FsModel
import OsLabs.FsReading
import OsLabs.FsRemoval
import OsLabs.FsSessions
import OsLabs.FsTree
import OsLabs.FsVolume
import OsLabs.FsWalks
import OsLabs.FsWriting
import OsLabs.Holdings
import OsLabs.IndexPool
import OsLabs.InflightQueue
import OsLabs.InodeReferences
import OsLabs.InterruptDiscipline
import OsLabs.LastBlock
import OsLabs.LineCutting
import OsLabs.LineReading
import OsLabs.LinkedQueue
import OsLabs.ListSequences
import OsLabs.LockExclusion
import OsLabs.LockOwnership
import OsLabs.LockWaiters
import OsLabs.QueueFamily
import OsLabs.ReadBounds
import OsLabs.RequestClosing
import OsLabs.RequestHeaders
import OsLabs.RequestModel
import OsLabs.ResponseModel
import OsLabs.ResponseRoundTrip
import OsLabs.RioModel
import OsLabs.RootedTree
import OsLabs.SavedMasks
import OsLabs.Scheduler
import OsLabs.SchedulerHistory
import OsLabs.SchedulerInvariant
import OsLabs.SchedulerRefinement
import OsLabs.SchedulerRun
import OsLabs.SchedulerView
import OsLabs.ServedFiles
import OsLabs.ServerLifetime
import OsLabs.ServerModel
import OsLabs.ServerShutdown
import OsLabs.ThreadConservation
import OsLabs.ThreadKill
import OsLabs.ThreadModel
import OsLabs.ThreadTrace
import OsLabs.ThreadWait
import OsLabs.Transition
import OsLabs.Wlp
import OsLabs.WriteEffects
import OsLabs.WriteReadBack
import OsLabs.WaitLists
import OsLabs.WakeupOrder
import OsLabs.TcbBounds
import OsLabs.TidChecks
import OsLabs.CountingTable
import OsLabs.Tokens
import OsLabs.WordModel
import OsLabs.WordCounts
import OsLabs.MappedArray
import OsLabs.FileStore
import OsLabs.StoreChanges
import OsLabs.StoreRefinement
import OsLabs.HashLists
import OsLabs.InodeHash
import OsLabs.FsExtents
import OsLabs.FsProgress
import OsLabs.FifoTurns
import OsLabs.ReadyOrder
import OsLabs.WorkerProgress
import OsLabs.CommandLine
import OsLabs.CommandScripts
import OsLabs.RequestProgress
import OsLabs.ErrorPages
import OsLabs.WebExchange
import OsLabs.FilesetIndex
import OsLabs.FilesetServed
