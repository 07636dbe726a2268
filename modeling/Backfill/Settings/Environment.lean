import Backfill.Settings.Tree

/-!
Environment variables as settings. A variable names a place in the tree, and its text stands for a
flag or a number if it reads as one.
-/

namespace Backfill.Environment

/-- The part before the place. -/
def mark : List Char := "tsnode__".toList

/-- Two underscores lead into a table. -/
def dotted : List Char → List Char
  | '_' :: '_' :: r => '.' :: dotted r
  | c :: r => c :: dotted r
  | [] => []

def place (name : String) : Option String :=
  let cs := (Tree.folded name).toList
  if mark.isPrefixOf cs then some (String.ofList (dotted (cs.drop mark.length))) else none

def sign : List Char → Bool × List Char
  | '-' :: r => (true, r)
  | '+' :: r => (false, r)
  | r => (false, r)

def integer (cs : List Char) : Option Int :=
  let (negative, r) := sign cs
  if r ≠ [] ∧ r.all Char.isDigit then some (Json.signed negative (ofDigits r)) else none

def digits (cs : List Char) : List Char × List Char := cs.span Char.isDigit

/-- Digits may be missing before the point or after it. -/
def decimal (cs : List Char) : Option Double :=
  let (negative, r) := sign cs
  let word := (String.ofList r).map Char.toLower
  if word ∈ ["inf", "infinity"] then some (.infinite negative)
  else if word = "nan" then some .nan
  else
    let (w, r) := digits r
    let (f, r) := match r with
      | '.' :: r => digits r
      | r => ([], r)
    let power := match r with
      | [] => some 0
      | e :: r => if e.toLower = 'e' then integer r else none
    if w ++ f = [] then none
    else power.map fun e =>
      Double.ofDecimal (Json.signed negative (ofDigits (w ++ f))) (e - f.length)

def value (s : String) : Tree :=
  let word := s.map Char.toLower
  if word = "true" then .bool true
  else if word = "false" then .bool false
  else
    match integer s.toList with
    | some n => if FitsWord n then .int n else .double (.ofDecimal n 0)
    | none => (decimal s.toList).elim (.text s) .double

def layer (env : List (String × String)) : List (String × Tree) :=
  env.filterMap fun v => (place v.1).map (·, value v.2)

end Backfill.Environment
