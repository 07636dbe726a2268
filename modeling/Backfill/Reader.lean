/-!
Reading text from the front.
-/

namespace Backfill

/-- A reader takes what it can from the front and gives the rest back. -/
abbrev Reader (α : Type) := List Char → Option (α × List Char)

def digitValue (c : Char) : Nat := c.toNat - '0'.toNat

def ofDigits (cs : List Char) : Nat := cs.foldl (fun n c => 10 * n + digitValue c) 0

/-- The pieces between the marks, one more than there are marks. -/
def piecesAt (mark : Char) : List Char → List (List Char)
  | [] => [[]]
  | c :: r =>
    if c = mark then [] :: piecesAt mark r
    else match piecesAt mark r with
      | [] => [[c]]
      | p :: ps => (c :: p) :: ps

end Backfill
