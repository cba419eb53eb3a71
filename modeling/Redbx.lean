import Redbx.Allocator.TornLayout
import Redbx.Allocator.Hashes
import Redbx.Allocator.Addresses
import Redbx.PageStore.CrashSafety
import Redbx.PageStore.TransactionIds
import Redbx.Btree.Splits
import Redbx.Types.DateTime
import Redbx.PageStore.LruCache
import Redbx.Btree.LeafOffsets
import Redbx.Btree.ExtractIf
import Redbx.Reclaim.Partition
import Redbx.Reclaim.Persistent
import Redbx.Open.Password
import Redbx.Open.CreateFile
import Redbx.Secrecy.Disk
import Redbx.Secrecy.Keys
import Redbx.Types.Derive
import Redbx.Tables.Namespace
import Redbx.Tables.Definitions
import Redbx.Tables.Stats
import Redbx.Btree.StoredKeys
