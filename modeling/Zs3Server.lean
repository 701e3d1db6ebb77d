import Zs3Server.Cmd.CacheCommit
import Zs3Server.Cmd.CacheDelete
import Zs3Server.Cmd.CacheDriveRun
import Zs3Server.Cmd.CacheEviction
import Zs3Server.Cmd.CacheInvalidate
import Zs3Server.Cmd.CachePurge
import Zs3Server.Cmd.CachePut
import Zs3Server.Cmd.CacheRanges
import Zs3Server.Cmd.CacheScan
import Zs3Server.Cmd.CommonTime
import Zs3Server.Cmd.CompressedRange
import Zs3Server.Cmd.DecryptBlocks
import Zs3Server.Cmd.DelayedLeaf
import Zs3Server.Cmd.EndpointEllipses
import Zs3Server.Cmd.LastMinute
import Zs3Server.Cmd.ListMergePages
import Zs3Server.Cmd.LockFilter
import Zs3Server.Cmd.MergeChannels
import Zs3Server.Cmd.ReplicaCopy
import Zs3Server.Cmd.ReplicationStatus
import Zs3Server.Cmd.ShardWindows
import Zs3Server.Cmd.StreamingBitrot
import Zs3Server.Cmd.WritebackPut
import Zs3Server.Etag.Parse
import Zs3Server.Gateway.BatchLoop
import Zs3Server.Gateway.CancelChannel
import Zs3Server.Gateway.ChunkEnd
import Zs3Server.Gateway.DeleteBucket
import Zs3Server.Gateway.MultipartETag
import Zs3Server.Gateway.MultipartSize
import Zs3Server.Gateway.ObjectName
import Zs3Server.Gateway.PutMultiple
import Zs3Server.Gateway.RangeServe
import Zs3Server.Gateway.UploadId
import Zs3Server.Hash.Reader
import Zs3Server.Lifecycle.ActiveRules
import Zs3Server.Lifecycle.PredictExpiry
import Zs3Server.Replication.ActionableRules
import Zs3Server.S3Select.Analysis
import Zs3Server.S3Select.LikeNode
import Zs3Server.S3Select.RecordTransform
import Zs3Server.S3Select.Timestamp
