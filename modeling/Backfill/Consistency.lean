import Backfill.Error

/-!
How many replicas must answer before a read is trusted.
-/

namespace Backfill

inductive Consistency where
  | none
  | one
  | unstrictMajority
  | majority
  | unstrictAll
  | all
  deriving DecidableEq, Repr

namespace Consistency

instance : Inhabited Consistency := ⟨majority⟩

def levels : List Consistency := [none, one, unstrictMajority, majority, unstrictAll, all]

def name : Consistency → String
  | none => "none"
  | one => "one"
  | unstrictMajority => "unstrict_majority"
  | majority => "majority"
  | unstrictAll => "unstrict_all"
  | all => "all"

/-- The case of ASCII letters does not matter. -/
def ofName (s : String) : Except Error Consistency :=
  let s := s.map Char.toLower
  match levels.find? (·.name = s) with
  | some l => .ok l
  | Option.none => .error (.validation s!"unknown read consistency level: {s}")

/-- The unstrict levels would like their quorum but settle for a single answer. -/
def achieved (level : Consistency) (majoritySize peers successes : Nat) : Bool :=
  match level with
  | all => successes = peers
  | majority => majoritySize ≤ successes
  | one | unstrictMajority | unstrictAll => 0 < successes
  | none => true

end Consistency

end Backfill
