import Mathlib.Data.Finset.Basic
import Hyperplane.Types.Account

/-! Pending updates, one for each pubkey. -/
namespace Hyperplane

structure PendingUpdate where
  slot : UInt64
  writeVersion : UInt64
  location : AccountLocation
  deriving DecidableEq

structure UpdateReducer where
  pendingUpdates : Std.TreeMap Pubkey PendingUpdate := ∅
  flushedCount : UInt64 := 0
  dedupCount : UInt64 := 0
  flushThreshold : Nat := 10000

namespace UpdateReducer

/-- Whether an update was pending already, and the reducer that keeps the
higher write version of the two. -/
def addUpdate (reducer : UpdateReducer) (pubkey : Pubkey) (slot writeVersion : UInt64)
    (location : AccountLocation) : Bool × UpdateReducer :=
  let isDedup := reducer.pendingUpdates.contains pubkey
  let counted := { reducer with
    dedupCount := if isDedup then reducer.dedupCount + 1 else reducer.dedupCount }
  let shouldUpdate := match reducer.pendingUpdates[pubkey]? with
    | some existing => decide (existing.writeVersion < writeVersion)
    | none => true
  if shouldUpdate then
    (isDedup, { counted with
      pendingUpdates := counted.pendingUpdates.insert pubkey ⟨slot, writeVersion, location⟩ })
  else (isDedup, counted)

end UpdateReducer

end Hyperplane
