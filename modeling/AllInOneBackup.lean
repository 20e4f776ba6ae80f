import AllInOneBackup.Cloud123.DownloadQueue.Isolation
import AllInOneBackup.Cloud123.Library.RoundTrip
import AllInOneBackup.Cloud123.Library.Runs
import AllInOneBackup.Cloud123.OfflineSlots
import AllInOneBackup.Cloud123.OfflineWait.Ends
import AllInOneBackup.Cloud123.TaskQueue.Unique
import AllInOneBackup.Concurrency.Pool
import AllInOneBackup.Data.ByteBuffer
import AllInOneBackup.Data.Bytes
import AllInOneBackup.Data.Chunked
import AllInOneBackup.Data.SelfCopy
import AllInOneBackup.Kurigram.Crypto.Ctr
import AllInOneBackup.Kurigram.Crypto.FakeTls.Digest
import AllInOneBackup.Kurigram.Crypto.Ige
import AllInOneBackup.Kurigram.Crypto.Mtproto
import AllInOneBackup.Kurigram.Crypto.Prime
import AllInOneBackup.Kurigram.FileIds.Unique
import AllInOneBackup.Kurigram.FileIds.WebLocation
import AllInOneBackup.Kurigram.Parser.QuoteOrder
import AllInOneBackup.Kurigram.Raw.Core
import AllInOneBackup.Kurigram.Raw.Vector
import AllInOneBackup.Kurigram.Session.Acks
import AllInOneBackup.Kurigram.Session.DroppedAcks
import AllInOneBackup.Kurigram.Session.MsgFactory
import AllInOneBackup.Kurigram.Session.MsgIds
import AllInOneBackup.Kurigram.Session.Stopping
import AllInOneBackup.Kurigram.Transport.FakeTlsRecords
import AllInOneBackup.Kurigram.Transport.Obfuscated2
import AllInOneBackup.Kurigram.Transport.Tcp
import AllInOneBackup.Kurigram.WebProxy.Carrier
import AllInOneBackup.Kurigram.WebProxy.Downlink
import AllInOneBackup.Kurigram.WebProxy.Frames
import AllInOneBackup.Kurigram.WebProxy.Uplink
import AllInOneBackup.LitePan.DirCache.Coherence
import AllInOneBackup.LitePan.DirCache.Creates
import AllInOneBackup.LitePan.FuseReadCache.Accounting
import AllInOneBackup.LitePan.FuseReadCache.Invalidation
import AllInOneBackup.LitePan.FuseReadCache.Transparency
import AllInOneBackup.LitePan.LruCache.Recency
import AllInOneBackup.LitePan.Playback.Prefix
import AllInOneBackup.LitePan.Singleflight
import AllInOneBackup.LitePan.Strm.Exclusion
import AllInOneBackup.LitePan.Upload.CrashSafety
import AllInOneBackup.LitePan.Upload.Orphans
import AllInOneBackup.LitePan.Upload.SavedRows
import AllInOneBackup.LitePan.Upload.Slots
import AllInOneBackup.LitePan.Upload.WorkConserving
import AllInOneBackup.Order.ReplayWindow
import AllInOneBackup.P115.Cipher.Cbc
import AllInOneBackup.P115.Cipher.Rsa
import AllInOneBackup.P115.Lz4Ends
import AllInOneBackup.P115.PickcodeConversion
import AllInOneBackup.PanSou.CacheKey
import AllInOneBackup.PanSou.DiskCache.Crash
import AllInOneBackup.PanSou.MainCache.Shrink
import AllInOneBackup.PanSou.TwoLevel.Coherence
import AllInOneBackup.PanSou.TwoLevel.Expiry
import AllInOneBackup.PanSou.WriteManager.LastWins
import AllInOneBackup.Concurrency.Turns
import AllInOneBackup.Data.Slice
import AllInOneBackup.Data.Sweep
import AllInOneBackup.Data.Trim
import AllInOneBackup.LitePan.FuseStaging
import AllInOneBackup.LitePan.Playback.PartRequests
import AllInOneBackup.LitePan.Playback.Range
import AllInOneBackup.LitePan.Playback.RangeLimiter
import AllInOneBackup.LitePan.Playback.RangePipe
import AllInOneBackup.LitePan.Playback.RangeProxy
import AllInOneBackup.LitePan.Playback.Seeker
import AllInOneBackup.LitePan.Playback.WindowFetch
import AllInOneBackup.LitePan.Playback.WindowReader
import AllInOneBackup.LitePan.Strm.Cleanup
import AllInOneBackup.LitePan.Strm.Conflict
import AllInOneBackup.PanSou.WorkerPool
import AllInOneBackup.Cloud123.Library.Reimport
import AllInOneBackup.Concurrency.Marks
import AllInOneBackup.Data.TableSum
import AllInOneBackup.PanSou.AdaptiveConcurrency
import AllInOneBackup.PanSou.DiskCache.Accounting
import AllInOneBackup.PanSou.MainCache.MergeLaws
import AllInOneBackup.PanSou.MemoryCache.Accounting
import AllInOneBackup.PanSou.StaleRemoval
import AllInOneBackup.Data.Search
import AllInOneBackup.PanSou.Links.Clean
import AllInOneBackup.PanSou.Links.Collect
import AllInOneBackup.Cloud123.Pan123.ListFiles
import AllInOneBackup.Cloud123.FolderCleanup.Complete
import AllInOneBackup.Cloud123.Pan115.Aes128
import AllInOneBackup.Cloud123.Pan115.Cbc
import AllInOneBackup.Cloud123.SubmissionRouting.Normalize
import AllInOneBackup.Cloud123.SubmissionRouting.Stable
import AllInOneBackup.Cloud123.Library.Episodes
import AllInOneBackup.Cloud123.Library.NextEpisode
import AllInOneBackup.Cloud123.Library.Duplicates
import AllInOneBackup.Cloud123.Sha1Cloud
import AllInOneBackup.Kurigram.Crypto.Srp
import AllInOneBackup.Kurigram.PackedTexts
import AllInOneBackup.Kurigram.Raw.Containers
import AllInOneBackup.Kurigram.Session.Auth
import AllInOneBackup.Kurigram.Session.AuthAgreement
import AllInOneBackup.Kurigram.Session.Requests
import AllInOneBackup.Cloud123.Library.StreamReader
import AllInOneBackup.Data.FileTree
import AllInOneBackup.LitePan.Strm.Protection
