import BeTree.Lib.OrdMap
import BeTree.Lib.Prog
import BeTree.Tree.Message
import BeTree.Tree.Node
import BeTree.Tree.Split
import BeTree.Tree.Flush
import BeTree.Tree.Read
import BeTree.Tree.Betree
import BeTree.Proof.Meaning
import BeTree.Proof.Apply
import BeTree.Proof.Invariant
import BeTree.Proof.Split
import BeTree.Proof.Pieces
import BeTree.Proof.Replace
import BeTree.Proof.Flush
import BeTree.Proof.Query
import BeTree.Proof.Upsert
import BeTree.Proof.Shape
import BeTree.Proof.Next
import BeTree.Proof.Listing
import BeTree.Proof.Scan
import BeTree.Proof.Size
import BeTree.Proof.Amortize
import BeTree.Lib.Checked
import BeTree.Lib.Dict
import BeTree.Swap.SwapSpace
import BeTree.Swap.Consistent
import BeTree.System.Environment
import BeTree.System.Accounting
import BeTree.Swap.Exact
import BeTree.Codec.Field
import BeTree.Swap.Runs
import BeTree.Codec.FKey
import BeTree.Codec.NodeText
import BeTree.Net.EvictNode
import BeTree.Lib.MemPool
import BeTree.Net.Transport
import BeTree.System.Cluster
import BeTree.System.SharedStore
import BeTree.Net.Matching
import BeTree.Net.Progress
import BeTree.Swap.Operations
import BeTree.Swap.Transparent
import BeTree.System.Footprint
import BeTree.System.DirtyChild
import BeTree.Codec.KeyOrder
import BeTree.System.ReadOnly
import BeTree.Proof.Enumerate
import BeTree.Proof.Session
import BeTree.Proof.ChildSize
import BeTree.Lib.StdString
import BeTree.Net.Configuration
import BeTree.Net.Session
import BeTree.Proof.Merge
import BeTree.Proof.MergeMeaning
import BeTree.Proof.Rename
import BeTree.Proof.Mirror
import BeTree.Proof.Terminate
import BeTree.System.CacheSize
import BeTree.Lib.Refine
import BeTree.Pointer.Shadow
import BeTree.Pointer.Tracks
import BeTree.Pointer.Node
import BeTree.Pointer.Owned
import BeTree.Pointer.Shallow
import BeTree.Pointer.Cells
import BeTree.Pointer.Split
import BeTree.Pointer.Flush
import BeTree.Pointer.Read
import BeTree.Pointer.Betree
import BeTree.Pointer.Session
import BeTree.System.Persistence
import BeTree.Pointer.Contents
import BeTree.Proof.Height
