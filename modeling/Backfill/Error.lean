/-!
What can go wrong: errors that a caller is told about, and faults that break an evaluation off.
-/

namespace Backfill

/-- Deterministic partition of the series. -/
abbrev Shard := Nat

/-- An error says what failed and why; `why` is in the words of whoever noticed it. -/
inductive Error where
  | invalidState (why : String)
  | invariantViolated (why : String)
  | internal (why : String)
  | topology (shard : Shard) (why : String)
  | session (why : String)
  | peerFetch (why : String)
  | persist (why : String)
  | commitLog (why : String)
  | corruptSegment (why : String)
  | inputOutput (why : String)
  | serialization (why : String)
  | validation (why : String)
  deriving DecidableEq, Repr

namespace Error

def message : Error → String
  | invalidState why => s!"invalid state: {why}"
  | invariantViolated why => s!"invariant violated: {why}"
  | internal why => s!"internal error: {why}"
  | topology shard why => s!"topology error for shard {shard}: {why}"
  | session why => s!"admin session unavailable: {why}"
  | peerFetch why => s!"peer fetch failed: {why}"
  | persist why => s!"persist failed: {why}"
  | commitLog why => s!"commit log read failed: {why}"
  | corruptSegment why => s!"corrupt segment: {why}"
  | inputOutput why => s!"I/O error: {why}"
  | serialization why => s!"serialization error: {why}"
  | validation why => s!"validation error: {why}"

/-- Fatal errors abort a whole read. -/
def isFatal : Error → Bool
  | session _ | topology _ _ | invariantViolated _ | invalidState _ => true
  | _ => false

end Error

/-- Why an evaluation has no value at all. -/
inductive Fault where
  /-- A date left the years that the clock can tell. -/
  | dateOverflow
  /-- Time was to be cut into windows of length zero. -/
  | zeroWindow
  /-- Something outside broke off in the middle of a call. -/
  | collaborator
  deriving DecidableEq, Repr

/-- How a whole read can end without a result. -/
inductive Failure where
  | error (e : Error)
  | fault (f : Fault)
  deriving DecidableEq, Repr

/-- What a call to something outside comes back with. -/
inductive Reply (α : Type) where
  | ok (a : α)
  | error (e : Error)
  /-- The call broke off and took its caller down. -/
  | crash
  deriving DecidableEq, Repr

end Backfill
