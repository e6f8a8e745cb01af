import FileStorage.Accounting
import FileStorage.CriticalSection
import FileStorage.Exclusion
import FileStorage.FileCount
import FileStorage.Graceful
import FileStorage.Lifetime
import FileStorage.Ownership
import FileStorage.Quota
import FileStorage.Retirement
import FileStorage.Rounds
import FileStorage.Shutdown
import FileStorage.Waiting
import FileStorage.Channel
import FileStorage.Worker
import FileStorage.Interleaving
import FileStorage.Threads
import FileStorage.Refusals
import FileStorage.Phrases
import FileStorage.Connections
import FileStorage.OpenedFiles
import FileStorage.Turns
import FileStorage.CreateAndLock
import FileStorage.Malformed
import FileStorage.Link
import FileStorage.Appending
import FileStorage.Tables
import FileStorage.Passes
import FileStorage.Removal
import FileStorage.Granting
import FileStorage.Expulsion
import FileStorage.Copies
import FileStorage.ReadN
import FileStorage.Commuting
import FileStorage.Realpath
import FileStorage.Survival
import FileStorage.Durability
import FileStorage.Custody
import FileStorage.Disposal
import FileStorage.Buckets
import FileStorage.Chain
import FileStorage.LinkedList
import FileStorage.Positions
import FileStorage.Directory
import FileStorage.CStrings
import FileStorage.Configuration
import FileStorage.Options
import FileStorage.Saving
import FileStorage.Delivery
import FileStorage.Frames
import FileStorage.Lockstep
import FileStorage.Atomic
import FileStorage.Serializing
import FileStorage.Consistency
import FileStorage.ClientMain
import FileStorage.Receipts
import FileStorage.Preemption
import FileStorage.Logger
