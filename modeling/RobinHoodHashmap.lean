import RobinHoodHashmap.Lanes
import RobinHoodHashmap.Execution
import RobinHoodHashmap.Geometry
import RobinHoodHashmap.Header
import RobinHoodHashmap.Hashmap
import RobinHoodHashmap.Selection
import RobinHoodHashmap.Scan
import RobinHoodHashmap.Contents
import RobinHoodHashmap.Invariant
import RobinHoodHashmap.Rehash
import RobinHoodHashmap.CallDepth
import RobinHoodHashmap.Levels
import RobinHoodHashmap.Growth
import RobinHoodHashmap.Operations
import RobinHoodHashmap.Run
import RobinHoodHashmap.FiniteMap
import RobinHoodHashmap.Representation
import RobinHoodHashmap.Capacity
import RobinHoodHashmap.Shape
import RobinHoodHashmap.Expansion
import RobinHoodHashmap.Places
import RobinHoodHashmap.Exhaustion
import RobinHoodHashmap.Order
import RobinHoodHashmap.DeadCells
import RobinHoodHashmap.CHeap
import RobinHoodHashmap.Layout
import RobinHoodHashmap.Bytes
import RobinHoodHashmap.Addresses
import RobinHoodHashmap.Objects
import RobinHoodHashmap.Assignment
import RobinHoodHashmap.Moves
import RobinHoodHashmap.Agreement
import RobinHoodHashmap.Embedding
import RobinHoodHashmap.Ledger
import RobinHoodHashmap.Lifecycle
import RobinHoodHashmap.HighWater
import RobinHoodHashmap.Dense
import RobinHoodHashmap.Client
import RobinHoodHashmap.Clients
import RobinHoodHashmap.Harness
import RobinHoodHashmap.Probes
import RobinHoodHashmap.Positional
import RobinHoodHashmap.Int128
import RobinHoodHashmap.Scaling
import RobinHoodHashmap.Sfc64
import RobinHoodHashmap.Benchmarks
import RobinHoodHashmap.Blocks
