import Backfill.Double
import Backfill.Settings.Path

/-!
Settings before they are read for what they mean: a tree that is put together from layers.
-/

namespace Backfill

inductive Tree where
  | null
  | bool (b : Bool)
  | int (n : Int)
  | double (d : Double)
  | text (s : String)
  | array (items : List Tree)
  | table (entries : List (String × Tree))
  deriving Inhabited, Repr

namespace Tree

/-- Only tables have entries. -/
def entries : Tree → List (String × Tree)
  | table es => es
  | _ => []

/-- Only arrays have items. -/
def items : Tree → List Tree
  | array vs => vs
  | _ => []

def get? (t : Tree) (k : String) : Option Tree := t.entries.lookup k

/-- Anything that is not a table becomes one. -/
def put (t : Tree) (k : String) (v : Tree) : Tree :=
  table <|
    if (t.get? k).isSome then t.entries.map fun e => if e.1 = k then (k, v) else e
    else t.entries ++ [(k, v)]

/-- Anything that is not an array becomes one, and items that are missing before the place are
null. -/
def putItem (t : Tree) (n : Nat) (v : Tree) : Tree :=
  array <|
    if n < t.items.length then t.items.set n v
    else t.items ++ List.replicate (n - t.items.length) null ++ [v]

/-- Besides the letters of ASCII, only the sign for Kelvin has one of them as its lower case. -/
def lowerCase (c : Char) : Char := if c = '\u212a' then 'k' else c.toLower

def folded (name : String) : String := String.ofList (name.toList.map lowerCase)

mutual

/-- Tables are merged, under names in lower case, and anything else replaces what was there. What is
inside an array keeps its names. -/
def overlay : Tree → Option Tree → Tree
  | table es, under => overlayEach es (under.getD (table []))
  | v, _ => v

def overlayEach : List (String × Tree) → Tree → Tree
  | [], t => t
  | (k, v) :: r, t => overlayEach r (t.put (folded k) (overlay v (t.get? (folded k))))

end

/-- More items than can be held. -/
def tooMany : Int := 4294967296

/-- Where an item stands in an array of that length. Negative numbers count from the end, and there
is nothing before the first item. -/
def position (length : Nat) (index : Int) : Option Nat :=
  let n := if index < 0 then length + index else index
  if 0 ≤ n ∧ n < tooMany then some n.toNat else none

/-- What stands on the way to the place becomes a table or an array. Only the last entry of a path
is merged with what was there. -/
def set (t v : Tree) : (path : List Step) → Option Tree
  | [] => some v
  | [.entry k] => some (overlayEach [(k, v)] t)
  | .entry k :: r => (((t.get? (folded k)).getD null).set v r).map (t.put (folded k))
  | .item i :: r => do
    let n ← position t.items.length i
    some (t.putItem n (← ((t.items[n]?).getD null).set v r))

/-- There is no tree when an entry would stand before the first item of an array. -/
def layer (t : Tree) (l : List (String × Tree)) : Option Tree :=
  l.foldlM (fun t e => t.set e.2 (path e.1)) t

def ofNumber (significand exponent : Int) : Option Tree :=
  match Double.ofScientific significand exponent with
  | .infinite _ => none
  | d => some (double d)

/-- A document that is too deep, or that names characters or numbers that do not exist, has no
tree. The last of several members with one name counts. -/
def ofJson? : (depth : Nat) → Json.Value → Option Tree
  | _, .null => some null
  | _, .bool b => some (bool b)
  | _, .int n => if FitsWord n then some (int n) else ofNumber n 0
  | _, .decimal m e => ofNumber m e
  | _, .text s => s.map text
  | 0, .array _ | 0, .object _ => none
  | depth + 1, .array vs => (vs.mapM (ofJson? depth)).map array
  | depth + 1, .object ms =>
    ms.foldlM (fun t m => do some (t.put (← m.1) (← ofJson? depth m.2))) (table [])

def deepest : Nat := 127

/-- Also positional: an array gives the fields in order. -/
def fields (names : List String) : Tree → Option (List (Option Tree))
  | table es => some (names.map fun n => es.lookup n)
  | array vs => some (names.zipIdx.map fun n => vs[n.2]?)
  | _ => none

def yes : List String := ["true", "on", "yes"]

def no : List String := ["false", "off", "no"]

def mostCount : Nat := 18446744073709551615

def bounded (n : Int) : Option Nat := if 0 ≤ n ∧ n ≤ mostCount then some n.toNat else none

def count : Tree → Option Nat
  | bool b => some b.toNat
  | int n => bounded n
  | double d => some (d.toNat mostCount)
  | text s =>
    let word := s.map Char.toLower
    if word ∈ yes then some 1
    else if word ∈ no then some 0
    else
      let cs := match s.toList with
        | '+' :: r => r
        | r => r
      if cs ≠ [] ∧ cs.all Char.isDigit then bounded (ofDigits cs) else none
  | _ => none

def flag : Tree → Option Bool
  | bool b => some b
  | int n => some (n ≠ 0)
  | double d => some (!d.isZero)
  | text s =>
    let word := s.map Char.toLower
    if word ∈ "1" :: yes then some true
    else if word ∈ "0" :: no then some false
    else none
  | _ => none

/-- A table with one entry stands for its name. -/
def choice (names : List String) : Tree → Option String
  | text s | table [(s, _)] => names.find? (· = s.map Char.toLower)
  | _ => none

end Tree

end Backfill
