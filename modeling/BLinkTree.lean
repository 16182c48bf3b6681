import BLinkTree.Latched.Sequential
import BLinkTree.Absent
import BLinkTree.Keys
import BLinkTree.Latched.Structure
import BLinkTree.Latched.Upgrades
import BLinkTree.Latched.Readers
import BLinkTree.Optimistic.Sequential
import BLinkTree.Optimistic.Reads
import BLinkTree.Tbb.Sequential
import BLinkTree.Tbb.Separators
import BLinkTree.Tbb.Covering
import BLinkTree.Balance
import BLinkTree.OptimisticLock
import BLinkTree.EpochManager
import BLinkTree.MPSCQueue
import BLinkTree.Benchmark.GenerateYcsb
import BLinkTree.Benchmark.Execution
import BLinkTree.Routing
import BLinkTree.Benchmark.CoreConfiguration
import BLinkTree.SplitNodes
import BLinkTree.Benchmark.Schedule
import BLinkTree.Reclamation
import BLinkTree.Occupancy
import BLinkTree.Latched.NodePath
import BLinkTree.ConsistencyChecker
import BLinkTree.Diagnostics
import BLinkTree.Soundness
import BLinkTree.Tbb.Lookup
import BLinkTree.Checked.Insert
import BLinkTree.Lib.Coupling
import BLinkTree.Lib.Hierarchy
import BLinkTree.Olc.Node
import BLinkTree.Olc.Tree
import BLinkTree.Olc.Structure
import BLinkTree.Olc.Program
import BLinkTree.Olc.Linearizable
import BLinkTree.Olc.Sequential
import BLinkTree.Olc.Shape
import BLinkTree.Olc.Occupancy
import BLinkTree.Bw.Splits
