import DbToy.BPlusTree
import DbToy.BtreeNode
import DbToy.CheckValid
import DbToy.CheckedRuns
import DbToy.CheckedTrees
import DbToy.Command
import DbToy.Dictionary
import DbToy.Endings
import DbToy.Engines
import DbToy.File
import DbToy.FirstRows
import DbToy.InsertFrame
import DbToy.InsertLines
import DbToy.InternalNode
import DbToy.InternalSpec
import DbToy.Interrupted
import DbToy.KilledShells
import DbToy.KilledTables
import DbToy.LeafNode
import DbToy.LeafSpec
import DbToy.Lib.Alternating
import DbToy.Lib.Asked
import DbToy.Lib.Bytes
import DbToy.Lib.Edge
import DbToy.Lib.Extremes
import DbToy.Lib.Interface
import DbToy.Lib.Istream
import DbToy.Lib.LevelOrder
import DbToy.Lib.Levels
import DbToy.Lib.MapVal
import DbToy.Lib.Occupancy
import DbToy.Lib.Odometer
import DbToy.Lib.Protocol
import DbToy.Lib.Rooted
import DbToy.Lib.Runs
import DbToy.Lib.SearchTree
import DbToy.Lib.Slots
import DbToy.Lib.Subtrees
import DbToy.Lib.Visited
import DbToy.Listing
import DbToy.Main
import DbToy.NodeInserts
import DbToy.NodeSplits
import DbToy.NodeTests
import DbToy.OpenedFiles
import DbToy.OtherLoads
import DbToy.Page
import DbToy.PageCache
import DbToy.PageCount
import DbToy.PageFields
import DbToy.PageMap
import DbToy.PageRequests
import DbToy.PageTable
import DbToy.Pager
import DbToy.PagerFile
import DbToy.PagerRuns
import DbToy.PagesInMemory
import DbToy.Params
import DbToy.PrintKeys
import DbToy.Recovery
import DbToy.RootFlag
import DbToy.RowsInAnyOrder
import DbToy.RowsInOrder
import DbToy.SavedCells
import DbToy.SavedFile
import DbToy.SessionRuns
import DbToy.Sessions
import DbToy.ShellRuns
import DbToy.TableBounds
import DbToy.TableEngine
import DbToy.TableSessions
import DbToy.TreeFind
import DbToy.TreeImage
import DbToy.TreeInsert
import DbToy.TreeLinks
import DbToy.TreeOnPages
import DbToy.TreeOpen
import DbToy.TreeRefinement
import DbToy.TreeRoot
import DbToy.TreeShape
import DbToy.TreeVisit
import DbToy.Uninitialised
import DbToy.UserInfo
import DbToy.WellFormedTrees
