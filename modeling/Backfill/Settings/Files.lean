import Backfill.Reader

/-!
Finding files of settings. Files lie in one directory or in directories below it, and there are no
directories but those that lead to files.
-/

namespace Backfill.Settings

/-- Texts of files, by where they are. -/
abbrev Files := List (String × String)

/-- Names on the way from the directory down to a place. -/
abbrev Place := List String

namespace Files

def parts (path : String) : List String := (piecesAt '/' path.toList).map String.ofList

/-- Parts that lead nowhere else. -/
def isIdle (part : String) : Bool := part = "" || part = "."

/-- Where a part leads from a place. Nothing lies above the directory of the files. -/
def step (here : Place) (part : String) : Place :=
  if isIdle part then here else if part = ".." then here.dropLast else here ++ [part]

def placeOf (path : String) : Place := (parts path).foldl step []

/-- The directories that the path of a file leads through. -/
def directories (here : Place) : (parts : List String) → List Place
  | [] | [_] => [here]
  | p :: r => here :: directories (step here p) r

def isDirectory (files : Files) (place : Place) : Bool :=
  place.isEmpty || files.any fun f => (directories [] (parts f.1)).contains place

/-- Every part is looked up in a directory, also one that leads nowhere else. Nothing is known of
what lies around the directory of the files. -/
def walk (files : Files) (here : Place) : (parts : List String) → Option Place
  | [] => some here
  | p :: r =>
    if files.isDirectory here ∧ ¬(here = [] ∧ p = "..") then walk files (step here p) r else none

/-- Bytes of a path that can be followed, when the way to the directory of the files takes 16 of the
4095 that there are. -/
def longest : Nat := 4079

/-- Slashes are written between the parts. -/
def bytes (path : List String) : Nat := ("/".intercalate path).utf8ByteSize

/-- The name of the file where the path leads, and its text. A path that is too long leads nowhere,
and of several texts for one place the last one is there. -/
def open? (files : Files) (path : List String) : Option (String × String) := do
  guard (bytes path ≤ longest)
  let place ← files.walk [] path
  let file ← files.reverse.find? (placeOf ·.1 = place)
  some (place.getLastD "", file.2)

/-- A path that ends in the name of a file goes on to the file of that name that holds JSON. -/
def withEnding (path : List String) : Option (List String) :=
  match path.reverse.dropWhile isIdle with
  | [] | ".." :: _ => none
  | name :: r => some ((name ++ ".json") :: r).reverse

/-- A name that is nothing but the ending does not tell what the file holds. -/
def holdsJson (name : String) : Bool :=
  ".json".toList.isSuffixOf name.toList && name ≠ ".json"

/-- A file that is named exactly is not looked for under another name, even if its own name does not
tell that it holds JSON. -/
def find (files : Files) (path : String) : Option String :=
  let way := parts path
  if "/".toList.isPrefixOf path.toList then none
  else
    match files.open? way with
    | some (name, text) => if holdsJson name then some text else none
    | none => ((withEnding way).bind files.open?).map (·.2)

end Files

end Backfill.Settings
