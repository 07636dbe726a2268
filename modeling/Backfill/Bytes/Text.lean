import Backfill.Bytes

/-!
Byte strings as text. Bytes that are not UTF-8 show as replacement characters: one for every longest
beginning of a character that breaks off, and one for every byte that begins none.
-/

namespace Backfill.Bytes

def replacement : Char := '\ufffd'

/-- For a byte that begins a character of several bytes: how many follow it, and the least and the
greatest byte that may come first among them. -/
def leadClass (b : Nat) : Option (Nat × Nat × Nat) :=
  if 0xc2 ≤ b ∧ b ≤ 0xdf then some (1, 0x80, 0xbf)
  else if b = 0xe0 then some (2, 0xa0, 0xbf)
  else if b = 0xed then some (2, 0x80, 0x9f)
  else if 0xe1 ≤ b ∧ b ≤ 0xef then some (2, 0x80, 0xbf)
  else if b = 0xf0 then some (3, 0x90, 0xbf)
  else if 0xf1 ≤ b ∧ b ≤ 0xf3 then some (3, 0x80, 0xbf)
  else if b = 0xf4 then some (3, 0x80, 0x8f)
  else none

/-- How many of the next `n` bytes carry on a character whose next byte lies in the bounds. -/
def carried : (n lo hi : Nat) → Bytes → Nat
  | n + 1, lo, hi, b :: r =>
    if lo ≤ b.toNat ∧ b.toNat ≤ hi then carried n 0x80 0xbf r + 1 else 0
  | _, _, _, _ => 0

/-- A first byte with `n` bytes after it keeps its low `6 - n` bits. -/
def codePoint (lead n : Nat) (tail : Bytes) : Nat :=
  tail.foldl (fun c b => 64 * c + b.toNat % 64) (lead % (1 <<< (6 - n)))

def chars : Bytes → List Char
  | [] => []
  | b :: r =>
    if b.toNat < 0x80 then Char.ofNat b.toNat :: chars r
    else match leadClass b.toNat with
      | none => replacement :: chars r
      | some (n, lo, hi) =>
        let k := carried n lo hi r
        (if k = n then Char.ofNat (codePoint b.toNat n (r.take n)) else replacement) ::
          chars (r.drop k)
termination_by bs => bs.length
decreasing_by all_goals simp; try omega

def display (bs : Bytes) : String := String.ofList (chars bs)

def ofText (s : String) : Bytes := s.toUTF8.toList

end Backfill.Bytes
