import Lockout.Lib.DepthFirst
import Lockout.Lib.Postorder
import Lockout.Lib.BreadthFirst
import Lockout.Lib.Transition
import Lockout.Lib.Interprocedural
import Lockout.Lib.Tabulation
import Lockout.Lib.Restriction
import Lockout.Lib.TextStream
import Lockout.Lib.Numerals
import Lockout.Lib.Editing
import Lockout.Lib.Regex
import Lockout.Lib.Renumbering
import Lockout.Lib.RedBlackTree
import Lockout.Lib.PriorityQueue
import Lockout.LockTracer.Graph
import Lockout.LockTracer.Threads
import Lockout.LockTracer.Components
import Lockout.LockTracer.StrongComponents
import Lockout.LockTracer.Events
import Lockout.LockTracer.Monotone
import Lockout.LockTracer.CycleSearch
import Lockout.LockTracer.LastLock
import Lockout.LockTracer.Balance
import Lockout.LockTracer.Waiting
import Lockout.LockTracer.Variant
import Lockout.LockTracer.Hooks
import Lockout.LockTracer.Refinement
import Lockout.LockTracer.Holding
import Lockout.LockTracer.Storage
import Lockout.LockTracer.Saving
import Lockout.LockTracer.Pointers
import Lockout.Strator.Program
import Lockout.Strator.State
import Lockout.Strator.Resolution
import Lockout.Strator.Wrappers
import Lockout.Strator.Traverse
import Lockout.Strator.Effects
import Lockout.Strator.Paths
import Lockout.Strator.Termination
import Lockout.Strator.Exact
import Lockout.Strator.Tasks
import Lockout.Strator.VisitOrder
import Lockout.Strator.FoundPaths
import Lockout.Strator.Frames
import Lockout.Strator.Summaries
import Lockout.Strator.Coverage
import Lockout.Strator.ThreadCreation
import Lockout.Strator.Mutexes
import Lockout.Strator.Multithreaded
import Lockout.Strator.Propagation
import Lockout.Strator.Races
import Lockout.Strator.Territories
import Lockout.Strator.Isolation
import Lockout.Strator.Workers
import Lockout.Strator.Merging
import Lockout.Strator.TaskQueue
import Lockout.Strator.Reports
import Lockout.Strator.RaceFile
import Lockout.Strator.Comparison
import Lockout.Strator.Outcomes
import Lockout.Strator.Recursion
import Lockout.Strator.Actuals
import Lockout.Instrumentation.Locations
import Lockout.Instrumentation.Passes
import Lockout.Instrumentation.Execution
import Lockout.Instrumentation.Insertion
import Lockout.Andersens.Objects
import Lockout.Andersens.Slots
import Lockout.Andersens.Uses
import Lockout.Andersens.Solver
import Lockout.Andersens.Progress
import Lockout.Andersens.Unification
import Lockout.Andersens.Growth
import Lockout.Andersens.Cycles
import Lockout.Andersens.Propagation
import Lockout.Andersens.Settling
import Lockout.Andersens.Termination
import Lockout.Andersens.Preparation
import Lockout.Andersens.Solution
import Lockout.Andersens.Assertions
import Lockout.Andersens.Runs
