import Backfill.Bytes

/-!
Fixed-width numbers, least significant byte first.
-/

namespace Backfill.LittleEndian

/-- What does not fit into `width` bytes is dropped. -/
def encode : (width : Nat) → Nat → Bytes
  | 0, _ => []
  | w + 1, n => UInt8.ofNat (n % 256) :: encode w (n / 256)

/-- How many numbers fit into `width` bytes. -/
def capacity : (width : Nat) → Nat
  | 0 => 1
  | w + 1 => 256 * capacity w

def decode : Bytes → Nat
  | [] => 0
  | b :: r => b.toNat + 256 * decode r

/-- Two's complement in eight bytes. -/
def encodeWord (n : Int) : Bytes := encode 8 (n % 18446744073709551616).toNat

def decodeWord (bs : Bytes) : Int :=
  let n : Int := decode bs
  if n < 9223372036854775808 then n else n - 18446744073709551616

@[simp] theorem length_encode (w n : Nat) : (encode w n).length = w := by
  induction w generalizing n with
  | zero => rfl
  | succ w ih => simp [encode, ih]

theorem decode_encode (w n : Nat) : decode (encode w n) = n % capacity w := by
  induction w generalizing n with
  | zero => simp [encode, decode, capacity, Nat.mod_one]
  | succ w ih =>
    have hb : (UInt8.ofNat (n % 256)).toNat = n % 256 := by
      rw [UInt8.toNat_ofNat']
      exact Nat.mod_eq_of_lt (Nat.mod_lt _ (by decide))
    rw [encode, decode, ih, hb, capacity, Nat.mod_mul]

theorem encode_decode (bs : Bytes) : encode bs.length (decode bs) = bs := by
  induction bs with
  | nil => rfl
  | cons b r ih =>
    have hb := b.toNat_lt
    have low : (b.toNat + 256 * decode r) % 256 = b.toNat := by omega
    have high : (b.toNat + 256 * decode r) / 256 = decode r := by omega
    simp [encode, decode, low, high, ih]

theorem decode_lt (bs : Bytes) : decode bs < capacity bs.length := by
  induction bs with
  | nil => simp [decode, capacity]
  | cons b r ih =>
    have hb := b.toNat_lt
    rw [decode, List.length_cons, capacity]
    omega

end Backfill.LittleEndian
