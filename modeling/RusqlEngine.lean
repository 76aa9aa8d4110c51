import RusqlEngine.Serializable
import RusqlEngine.WalReplay
import RusqlEngine.UpdateTriggers
import RusqlEngine.Replace
import RusqlEngine.CascadeIntact
import RusqlEngine.QuotedString
import RusqlEngine.DeleteExact
import RusqlEngine.AlterConstraints
import RusqlEngine.AutocommitDurable
import RusqlEngine.SubqueryExact
import RusqlEngine.TemporariesExact
import RusqlEngine.IndexKeysApart
import RusqlEngine.PushdownExact
import RusqlEngine.AutoIncrementFresh
import RusqlEngine.UniqueProbeSound
import RusqlEngine.SharedMutex
import RusqlEngine.HashIndex
import RusqlEngine.Packets
import RusqlEngine.RedoOrder
import RusqlEngine.TableFileExact
import RusqlEngine.ExecuteParamsExact
import RusqlEngine.ExecuteUsingExact
import RusqlEngine.GroupCommit
import RusqlEngine.RedoSync
import RusqlEngine.DeadlockSound
import RusqlEngine.CompositeIndexExact
import RusqlEngine.QueryCacheRuns
import RusqlEngine.BufferPool
import RusqlEngine.LogContents
import RusqlEngine.Partition
import RusqlEngine.FailedLog
import RusqlEngine.SemicolonTokens
import RusqlEngine.ResultRows
import RusqlEngine.OrderRowsExact
import RusqlEngine.AccessPathsExact
import RusqlEngine.JoinChoiceExact
import RusqlEngine.LikeEscape
import RusqlEngine.LikeScan
import RusqlEngine.DecimalTextExact
import RusqlEngine.Interval
import RusqlEngine.SetOperationsExact
import RusqlEngine.FailedUpdate
import RusqlEngine.Multi
import RusqlEngine.MultiAllOrNothing
