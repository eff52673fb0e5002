import Edfs.Network.TreeSync
import Edfs.Network.Round
import Edfs.Network.FetchCompletion
import Edfs.Network.FetchTables
import Edfs.Filesystem.Tree.Causality
import Edfs.Fuse.Handle
import Edfs.Fuse.OpenFileRuns
import Edfs.Fuse.ConcurrentWrites
import Edfs.Fuse.Gateway
import Edfs.Fuse.UnlinkedFile
import Edfs.Fuse.Snapshot
import Edfs.Fuse.DirectoryPages
import Edfs.Network.Placement
import Edfs.Network.NetworkBridge
import Edfs.Network.ClusterCopies
import Edfs.Network.ClusterReads
import Edfs.Filesystem.Recency
import Edfs.Filesystem.Prefetch
import Edfs.Filesystem.Moving
import Edfs.Filesystem.Sizes
import Edfs.Filesystem.Merging
import Edfs.Filesystem.Reachability
import Edfs.Filesystem.Names
import Edfs.Filesystem.Arithmetic
import Edfs.Reference
