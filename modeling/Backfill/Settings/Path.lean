import Backfill.Instant
import Backfill.Json

/-!
Keys that lead into a tree of settings: names after dots, and numbers in brackets.
-/

namespace Backfill.Tree

/-- From a table to one of its entries, or from an array to one of its items. -/
inductive Step where
  | entry (name : String)
  | item (index : Int)
  deriving DecidableEq, Repr

namespace Step

def isNameCharacter (c : Char) : Bool := c.isAlphanum || c ∈ [' ', '_', '-']

def entry? (cs : List Char) : Option Step :=
  if cs ≠ [] ∧ cs.all isNameCharacter then some (.entry (String.ofList cs)) else none

def isSpace (c : Char) : Bool := c = ' ' || c = '\t'

/-- What follows an opening bracket. -/
def item? (cs : List Char) : Option Step :=
  let (negative, cs) := match cs.dropWhile isSpace with
    | '-' :: r => (true, r)
    | r => (false, r)
  let ds := cs.takeWhile Char.isDigit
  let n := Json.signed negative (ofDigits ds)
  if ds ≠ [] ∧ (cs.drop ds.length).dropWhile isSpace = [']'] ∧ FitsWord n then some (.item n)
  else none

/-- A name and the numbers after it. -/
def part? (cs : List Char) : Option (List Step) :=
  match piecesAt '[' cs with
  | [] => none
  | name :: numbers => do some ((← entry? name) :: (← numbers.mapM item?))

end Step

/-- A key that cannot be read as a path is a name as it stands. -/
def path (key : String) : List Step :=
  (((piecesAt '.' key.toList).mapM Step.part?).map List.flatten).getD [.entry key]

end Backfill.Tree
