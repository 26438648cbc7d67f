import BackedData.Logic.Outcome
import BackedData.Logic.Ranges
import BackedData.Logic.Slices
import BackedData.Logic.Trace
import BackedData.Logic.Runs
import BackedData.Logic.Simulation
import BackedData.Logic.Buffer
import BackedData.Logic.SizeHint
import BackedData.Logic.Buffered
import BackedData.Logic.Delimited
import BackedData.Logic.DelimitedLoss
import BackedData.Entry.Basic
import BackedData.Entry.Spec
import BackedData.Entry.Session
import BackedData.Entry.Migrate
import BackedData.Array.Basic
import BackedData.Array.Lookup
import BackedData.Array.Resize
import BackedData.Array.Build
import BackedData.Array.Iter
import BackedData.Array.Residency
import BackedData.Utils.AsyncOnceLock
import BackedData.Utils.OnceAgreement
import BackedData.Utils.OnceQueue
import BackedData.Entry.SharedLoad
import BackedData.Adapters.AsyncWrite
import BackedData.Adapters.AsyncWriteFlush
import BackedData.Adapters.FlushCycles
import BackedData.Adapters.Wakeups
import BackedData.Adapters.PendingCount
import BackedData.Adapters.Delivery
import BackedData.Adapters.WriteLoop
import BackedData.Adapters.AsyncRead
import BackedData.Adapters.ReadExchange
import BackedData.Disks.Mmap
import BackedData.Disks.MmapSpec
import BackedData.Disks.MmapSessions
import BackedData.Disks.MmapFaults
import BackedData.Disks.MmapGuards
import BackedData.Disks.MmapWritten
import BackedData.Disks.Encrypted
import BackedData.Disks.EncryptedStore
import BackedData.Disks.AsyncEncrypted
import BackedData.Disks.EncryptedReuse
import BackedData.Disks.SecretVec
import BackedData.Disks.Network
import BackedData.Directory.Basic
import BackedData.Directory.Disks
import BackedData.Directory.DisksSpec
import BackedData.Directory.Append
import BackedData.Directory.Grow
import BackedData.Directory.Reroot
import BackedData.Directory.RerootErrors
import BackedData.Directory.SaveLoad
import BackedData.Directory.Clones
import BackedData.Directory.Branches
import BackedData.Directory.Cleanup
import BackedData.Directory.Shared
import BackedData.Directory.Reopen
import BackedData.Array.IterMut
import BackedData.Array.IterMutDurable
import BackedData.Array.IterMutAligned
import BackedData.Array.FutIter
import BackedData.Array.Hints
import BackedData.Array.AsyncBuild
import BackedData.Array.SecretKeys
import BackedData.Formats.Csv
import BackedData.Formats.CsvDialects
import BackedData.Formats.CsvRoundTrip
import BackedData.Adapters.ReadWakeups
import BackedData.Adapters.Shutdown
import BackedData.Adapters.EncodeThrough
import BackedData.Adapters.DecodeThrough
import BackedData.Adapters.Pipeline
import BackedData.Array.ConcurrentGet
import BackedData.Utils.OnceProgress
