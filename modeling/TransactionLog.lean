import TransactionLog.Lib.Channel
import TransactionLog.Lib.Bytes
import TransactionLog.Lib.Framing
import TransactionLog.Lib.Output
import TransactionLog.Message.Limits
import TransactionLog.Pool.ObjectPool
import TransactionLog.Clustering.ClusterMembership
import TransactionLog.Clustering.EstablishedConfiguration
import TransactionLog.Storage.Operations
import TransactionLog.Storage.Names
import TransactionLog.Storage.Publication
import TransactionLog.Storage.Removal
import TransactionLog.Storage.Establishment
import TransactionLog.Storage.AtomicFile
import TransactionLog.Storage.ClusteringConfiguration
import TransactionLog.Record.Corruption
import TransactionLog.Record.ReaderBuffers
import TransactionLog.Record.Append
import TransactionLog.Streams.FileRanges
import TransactionLog.Streams.RecordStarts
import TransactionLog.Streams.IndexFileValidator
import TransactionLog.Streams.Exhaustion
import TransactionLog.Streams.ReadFailure
import TransactionLog.Streams.HistoryRecovery
import TransactionLog.Streams.Sessions
import TransactionLog.Streams.Service
import TransactionLog.Streams.Node
import TransactionLog.Streams.Refinement
import TransactionLog.Streams.HistoricalReads
import TransactionLog.Streams.CheckpointProgress
import TransactionLog.Record.Transfer
