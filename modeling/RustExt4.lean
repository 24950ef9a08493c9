import RustExt4.Lib.IntervalMap
import RustExt4.Lib.LeBytes
import RustExt4.Lib.TableCrc
import RustExt4.Utils
import RustExt4.Types
import RustExt4.Block.Buddy
import RustExt4.Block.BuddyInv
import RustExt4.Block.BuddyRuns
import RustExt4.Inode.Raw
import RustExt4.Transaction.Event
import RustExt4.Transaction.Bitmap
import RustExt4.Block.Allocator
import RustExt4.Transaction.BlockRuns
import RustExt4.Transaction.BlockSafety
import RustExt4.Directory.Block
import RustExt4.Directory.BlockFill
import RustExt4.Directory.BlockRuns
import RustExt4.Directory.HTree.Node
import RustExt4.Directory.HTree.Cursor
import RustExt4.Directory.HTree.Find
import RustExt4.Directory.HTree.Lookup
import RustExt4.Directory.HTree.Split
import RustExt4.Block.GroupRange
import RustExt4.Cache
import RustExt4.Inode.Allocator
import RustExt4.Inode.AllocatorRuns
import RustExt4.Inode.Extent.Append
import RustExt4.Inode.Extent.Allocating
import RustExt4.Inode.Extent.Prealloc
import RustExt4.Inode.Extent.Cached
import RustExt4.Lib.LinkedMap
import RustExt4.Superblock.OrphanList
import RustExt4.Transaction.InodeOps
import RustExt4.Transaction.Records
import RustExt4.Transaction.Checksum
import RustExt4.Transaction.Batch
import RustExt4.Transaction.Counters
import RustExt4.Directory.Tree
import RustExt4.Directory.TreeRuns
import RustExt4.Block.BuildBuddy
import RustExt4.Config
import RustExt4.Format.Fill
import RustExt4.Format.Layout
import RustExt4.Format.Completes
import RustExt4.Format.Marks
import RustExt4.Format.LazyInit
import RustExt4.Format.Sizes
import RustExt4.Crc
import RustExt4.Inode.Fields
import RustExt4.Inode.Extent.Insertion
import RustExt4.Inode.AllocatorThreads
import RustExt4.Synchronizations.RwLock
import RustExt4.Synchronizations.TicketLock
import RustExt4.Inode.Extent.Halting
import RustExt4.Inode.Extent.Hint
import RustExt4.Inode.Extent.Malformed
import RustExt4.Inode.Extent.Grow
import RustExt4.Inode.Extent.Removal
import RustExt4.Inode.Extent.Truncation
import RustExt4.Lib.Coalesce
import RustExt4.File.Write
import RustExt4.File.Read
import RustExt4.File.Truncate
import RustExt4.Inode.Extent.Recording
import RustExt4.File.Session
import RustExt4.Directory.Listing
import RustExt4.Directory.HTree.Listing
import RustExt4.Directory.HTree.Insert
import RustExt4.Directory.HTree.Placement
import RustExt4.Directory.HTree.SplitPoint
import RustExt4.Directory.Operations
import RustExt4.Directory.Linear
import RustExt4.Directory.Rename
import RustExt4.Directory.Removal
import RustExt4.Directory.Creation
import RustExt4.Directory.TreeSchemes
import RustExt4.Directory.Scan
import RustExt4.Superblock.Fields
import RustExt4.Transaction.Descriptor
import RustExt4.Superblock.DescriptorBlock
import RustExt4.Hasher.Overflow
import RustExt4.Directory.LegacyLinear
import RustExt4.Superblock.Sparse
import RustExt4.Transaction.InodeTable
