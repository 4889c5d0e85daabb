import EDRStore.Lib.Index
import EDRStore.Lib.Run
import EDRStore.Lib.AppendLog
import EDRStore.Exit
import EDRStore.Reduction
import EDRStore.InformCache
import EDRStore.Components
import EDRStore.ReadCache
import EDRStore.Storage
import EDRStore.StorageLog
import EDRStore.ContainerLog
import EDRStore.DataWriter
import EDRStore.DataReader
import EDRStore.WriterRun
import EDRStore.SimilarChunk
import EDRStore.CacheMeta
import EDRStore.Client
import EDRStore.Upload
import EDRStore.System
import EDRStore.Lockstep
import EDRStore.Stages
import EDRStore.Records
import EDRStore.Restore
import EDRStore.EndToEnd
import EDRStore.RestorePaths
import EDRStore.Interleaving
import EDRStore.InFlight
import EDRStore.WriterHand
import EDRStore.SharedStore
import EDRStore.AdmitOnce
import EDRStore.IndexOrder
import EDRStore.Overlap
import EDRStore.LoneSession
import EDRStore.Lib.Batch
import EDRStore.Lib.Bytes
import EDRStore.Wire
import EDRStore.Sender
import EDRStore.UploadFraming
import EDRStore.UploadMessages
import EDRStore.CompPad
import EDRStore.DualFp
import EDRStore.Decoder
import EDRStore.RestoreSize
import EDRStore.Chunker
import EDRStore.KeyGen
import EDRStore.Lib.Blocks
import EDRStore.Recipe
import EDRStore.RestoreFraming
import EDRStore.RecipeAlign
import EDRStore.KeyManager
import EDRStore.KeyRace
import EDRStore.Abort
import EDRStore.HandOff
import EDRStore.CacheCounts
import EDRStore.BaseChoice
import EDRStore.CacheSlots
import EDRStore.Eviction
import EDRStore.Chunking
import EDRStore.CompressUtil
import EDRStore.TwoPhaseEnc
import EDRStore.Lib.Gf2
import EDRStore.RabinPoly
import EDRStore.Finesse
import EDRStore.Baseline
import EDRStore.BaselineStore
import EDRStore.InMemDb
import EDRStore.TornIndex
import EDRStore.BlockedMq
import EDRStore.BlockedMqWaits
import EDRStore.SslConn
import EDRStore.Lib.Slots
import EDRStore.ReaderWriterQueue
import EDRStore.QueueLayout
import EDRStore.QueueCapacity
import EDRStore.QueueOrder
import EDRStore.QueueWaits
import EDRStore.BaselineClient
import EDRStore.BaselineSystem
import EDRStore.BaselineEndToEnd
import EDRStore.Lib.KeyedLock
import EDRStore.ServerOptThd
import EDRStore.SessionLocks
import EDRStore.SessionEnds
import EDRStore.RecipeFiles
import EDRStore.Restarts
import EDRStore.CrashConsistency
