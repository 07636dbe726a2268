import Backfill.Bytes
import Backfill.Error

/-!
The names and values that describe a series.
-/

namespace Backfill

structure Tags where
  pairs : List (Bytes × Bytes)
  deriving DecidableEq, Repr

namespace Tags

def empty : Tags := ⟨[]⟩

/-- By name, then by value. -/
def pairLe (a b : Bytes × Bytes) : Bool := a.1 < b.1 || (a.1 = b.1 && a.2 ≤ b.2)

/-- Puts the pairs in order. -/
def ofList (pairs : List (Bytes × Bytes)) : Tags := ⟨pairs.mergeSort pairLe⟩

def isEmpty (t : Tags) : Bool := t.pairs.isEmpty

/-- Every name has a byte. -/
def Named (t : Tags) : Prop := ∀ p ∈ t.pairs, p.1 ≠ []

instance (t : Tags) : Decidable t.Named := inferInstanceAs (Decidable (∀ p ∈ t.pairs, p.1 ≠ []))

def validate (t : Tags) : Except Error Unit :=
  if t.Named then .ok () else .error (.validation "tag name must not be empty")

end Tags

end Backfill
