import RemoteTable.CStrings
import RemoteTable.Memory
import RemoteTable.Runs
import RemoteTable.FirstMatch
import RemoteTable.Entry
import RemoteTable.ListOps
import RemoteTable.ListRuns
import RemoteTable.ListOrder
import RemoteTable.ListShape
import RemoteTable.Table
import RemoteTable.TableRuns
import RemoteTable.Commute
import RemoteTable.TableMap
import RemoteTable.TableCount
import RemoteTable.ClientStub
import RemoteTable.Ownership
import RemoteTable.ListMemory
import RemoteTable.TableMemory
import RemoteTable.ListImage
import RemoteTable.TableImage
import RemoteTable.Erasure
import RemoteTable.Isolation
import RemoteTable.ListEffects
import RemoteTable.Buckets
import RemoteTable.ByteBlocks
import RemoteTable.MessageIO
import RemoteTable.ReadLoop
import RemoteTable.ReadAll
import RemoteTable.Network
import RemoteTable.Framing
import RemoteTable.Receiving
import RemoteTable.Truncation
import RemoteTable.Ending
import RemoteTable.Skeleton
import RemoteTable.Server
import RemoteTable.Replies
import RemoteTable.Session
import RemoteTable.PutEffects
import RemoteTable.Comparisons
import RemoteTable.TableDestroy
import RemoteTable.Ledger
import RemoteTable.WriteAll
import RemoteTable.Interrupts
import RemoteTable.ReadBuffer
import RemoteTable.KeyListing
import RemoteTable.CLibrary
import RemoteTable.Client
import RemoteTable.Dispatch
import RemoteTable.ClientInput
import RemoteTable.Connect
import RemoteTable.Serving
import RemoteTable.Progress
import RemoteTable.Clients
import RemoteTable.ServiceMap
import RemoteTable.Safety
import RemoteTable.Footprint
import RemoteTable.Misses
import RemoteTable.Delivery
import RemoteTable.KeyArrays
import RemoteTable.EntryPool
import RemoteTable.Script
import RemoteTable.Descriptors
import RemoteTable.Lifetime
import RemoteTable.Disconnect
import RemoteTable.Shards
import RemoteTable.Independence
import RemoteTable.RemoveLast
