import Backfill.Reader

/-!
JSON text. Values keep what the text says: members stand in the order and as often as they are
written. A number with a fraction or an exponent, or with more digits than 64 bits hold, is kept as
a significand of 64 bits and a power of ten.
-/

namespace Backfill.Json

/-- A text is `none` when it escapes one half of a surrogate pair without the other, so that no
string has its characters. -/
inductive Value where
  | null
  | bool (b : Bool)
  | int (n : Int)
  | decimal (significand exponent : Int)
  | text (s : Option String)
  | array (items : List Value)
  | object (members : List (Option String × Value))
  deriving Inhabited, Repr

/-- A piece of a text: a character as it stands, or the code unit of an escape. -/
inductive Piece where
  | char (c : Char)
  | unit (n : Nat)
  deriving DecidableEq, Repr

def isHigh (n : Nat) : Bool := 0xd800 ≤ n && n < 0xdc00

def isLow (n : Nat) : Bool := 0xdc00 ≤ n && n < 0xe000

/-- Two units that form a pair are one character. -/
def joinPairs : List Piece → Option (List Char)
  | [] => some []
  | .char c :: r => (joinPairs r).map (c :: ·)
  | .unit n :: r =>
    if isHigh n then
      match r with
      | .unit m :: r =>
        if isLow m then
          let c := Char.ofNat (0x10000 + (n - 0xd800) * 0x400 + (m - 0xdc00))
          (joinPairs r).map (c :: ·)
        else none
      | _ => none
    else if isLow n then none
    else (joinPairs r).map (Char.ofNat n :: ·)

def hexValue (c : Char) : Option Nat :=
  if c.isDigit then some (digitValue c)
  else if 'a' ≤ c ∧ c ≤ 'f' then some (c.toNat - 'a'.toNat + 10)
  else if 'A' ≤ c ∧ c ≤ 'F' then some (c.toNat - 'A'.toNat + 10)
  else none

def hexUnit (a b c d : Char) : Option Nat := do
  some (((← hexValue a) * 16 + (← hexValue b)) * 256 + (← hexValue c) * 16 + (← hexValue d))

def escapes : List (Char × Char) :=
  [('"', '"'), ('\\', '\\'), ('/', '/'), ('b', '\x08'), ('f', '\x0c'), ('n', '\n'), ('r', '\r'),
    ('t', '\t')]

/-- Up to the closing quote. -/
def pieces : Reader (List Piece)
  | '"' :: r => some ([], r)
  | '\\' :: 'u' :: a :: b :: c :: d :: r => do
    let n ← hexUnit a b c d
    let (ps, r) ← pieces r
    some (.unit n :: ps, r)
  | '\\' :: e :: r => do
    let c ← escapes.lookup e
    let (ps, r) ← pieces r
    some (.char c :: ps, r)
  | c :: r => if c < ' ' then none else (pieces r).map fun (ps, r) => (.char c :: ps, r)
  | [] => none

def text : Reader (Option String) := fun cs =>
  (pieces cs).map fun (ps, r) => ((joinPairs ps).map String.ofList, r)

/-- At least one digit. -/
def digits : Reader (List Char) := fun cs =>
  let ds := cs.takeWhile Char.isDigit
  if ds.isEmpty then none else some (ds, cs.drop ds.length)

/-- No other digit follows a leading zero. -/
def whole : Reader (List Char)
  | '0' :: r => some (['0'], r)
  | cs => digits cs

def fraction : Reader (List Char)
  | '.' :: r => digits r
  | cs => some ([], cs)

def signed (negative : Bool) (n : Nat) : Int := if negative then -n else n

def exponent : Reader (Option Int) := fun cs =>
  let power (negative : Bool) (r : List Char) := (digits r).map fun (ds, r) =>
    (some (signed negative (ofDigits ds)), r)
  match cs with
  | 'e' :: '-' :: r | 'E' :: '-' :: r => power true r
  | 'e' :: '+' :: r | 'E' :: '+' :: r => power false r
  | 'e' :: r | 'E' :: r => power false r
  | _ => some (none, cs)

/-- The greatest significand, which fills 64 bits. -/
def mostSignificant : Nat := 18446744073709551615

/-- Digits are taken up as long as there is room for them. The rest is given back. -/
def significand (n : Nat) : List Char → Nat × List Char
  | [] => (n, [])
  | c :: r =>
    let m := 10 * n + digitValue c
    if m ≤ mostSignificant then significand m r else (n, c :: r)

/-- There is no negative integer zero, and no integer below those of 64 bits with a sign, so these
count as decimals. Digits of a whole part that have no room still count for its size. -/
def number : Reader Value := fun cs => do
  let (negative, cs) := match cs with
    | '-' :: r => (true, r)
    | r => (false, r)
  let (w, cs) ← whole cs
  let (f, cs) ← fraction cs
  let (e, cs) ← exponent cs
  let (n, left) := significand 0 w
  let (m, leftOfFraction) := significand n f
  let isInteger := f.isEmpty && e.isNone && left.isEmpty &&
    (!negative || m ≠ 0 && m ≤ 9223372036854775808)
  if isInteger then some (.int (signed negative m), cs)
  else
    let shift : Int := left.length - (f.length - leftOfFraction.length : Nat)
    some (.decimal (signed negative m) (e.getD 0 + shift), cs)

def skipBlanks (cs : List Char) : List Char := cs.dropWhile (· ∈ [' ', '\n', '\t', '\r'])

mutual

/-- Every call spends fuel. -/
def value : (fuel : Nat) → Reader Value
  | 0, _ => none
  | fuel + 1, cs =>
    match skipBlanks cs with
    | 'n' :: 'u' :: 'l' :: 'l' :: r => some (.null, r)
    | 't' :: 'r' :: 'u' :: 'e' :: r => some (.bool true, r)
    | 'f' :: 'a' :: 'l' :: 's' :: 'e' :: r => some (.bool false, r)
    | '"' :: r => (text r).map fun (s, r) => (.text s, r)
    | '[' :: r =>
      match skipBlanks r with
      | ']' :: r => some (.array [], r)
      | r => (items fuel r).map fun (vs, r) => (.array vs, r)
    | '\x7b' :: r =>
      match skipBlanks r with
      | '\x7d' :: r => some (.object [], r)
      | r => (members fuel r).map fun (ms, r) => (.object ms, r)
    | r => number r

/-- Up to the closing bracket. -/
def items : (fuel : Nat) → Reader (List Value)
  | 0, _ => none
  | fuel + 1, cs => do
    let (v, cs) ← value fuel cs
    match skipBlanks cs with
    | ']' :: r => some ([v], r)
    | ',' :: r => (items fuel r).map fun (vs, r) => (v :: vs, r)
    | _ => none

/-- Up to the closing brace. -/
def members : (fuel : Nat) → Reader (List (Option String × Value))
  | 0, _ => none
  | fuel + 1, cs =>
    match skipBlanks cs with
    | '"' :: r => do
      let (k, cs) ← text r
      match skipBlanks cs with
      | ':' :: r => do
        let (v, cs) ← value fuel r
        match skipBlanks cs with
        | '\x7d' :: r => some ([(k, v)], r)
        | ',' :: r => (members fuel r).map fun (ms, r) => ((k, v) :: ms, r)
        | _ => none
      | _ => none
    | _ => none

end

/-- The text holds one value and blanks. A character is read by two calls at most, so the fuel
never runs out. -/
def read (s : String) : Option Value := do
  let cs := s.toList
  let (v, cs) ← value (2 * cs.length + 2) cs
  if (skipBlanks cs).isEmpty then some v else none

/-- What a value holds for each of the fields. An object names them, each once at most, and may name
others; an array gives them in order, the last ones not at all if it is short. -/
def fields (names : List String) : Value → Option (List (Option Value))
  | .object ms =>
    if ms.all (fun m => m.1.isSome) ∧ names.all (fun n => ms.countP (·.1 = some n) ≤ 1) then
      some (names.map fun n => (ms.find? (·.1 = some n)).map (·.2))
    else none
  | .array vs =>
    if vs.length ≤ names.length then
      some (vs.map some ++ List.replicate (names.length - vs.length) none)
    else none
  | _ => none

end Backfill.Json
