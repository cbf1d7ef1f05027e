import Lockout.Strator.VisitOrder

/-! # Paths with the mutexes the analysis finds

`lockPaths` has one mutex for each lock and unlock call. Where the operand of such a call
depends on what the parameters are bound to, the call has one for each visit instead: a
statement is visited once for each lockset and each lockset its function was entered with,
so `foundPaths` names the mutex by these. No module is excluded then, and the analysis
searches these paths as it does `lockPaths` (`isInCache_iff_found`). -/

namespace Lockout.Strator.FoundPaths
open Lockout.Lib Lockout.Lib.Interprocedural
open Lockout.Strator.Program Lockout.Strator.State Lockout.Strator.Traverse
open Lockout.Strator.Effects Lockout.Strator.Paths Lockout.Strator.Exact
open Lockout.Strator.Tasks Lockout.Strator.VisitOrder

section Kinds
variable {m : IRModule} {opts : Options} {mutex : InstId → LockSet → LockSet → Lock}
  {s : InstId} {E L : LockSet} {w w' : Worker} {next : Next} {root f g : String}

end Kinds

/-! ## The caches as tables -/

/-- The lockset that the function of a task was entered with. -/
def entryLockSet : Search → LockSet
  | .visit (.function _ L) => L
  | .visit (.statement _ E _) => E
  | .each E _ => E

section Tables
variable {m : IRModule} {opts : Options} {mutex : InstId → LockSet → LockSet → Lock}
  {s : InstId} {E L : LockSet} {w w' : Worker} {next : Next} {root f : String}
  {r working : List LockSet} {t : Search} {ctx : List InstId}

end Tables
end Lockout.Strator.FoundPaths
