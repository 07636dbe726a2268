import Backfill.Block
import Backfill.SortedMap.Lemmas

/-!
Reading what was written: the points come back as they were, save that an annotation without bytes
comes back as none.
-/

namespace Backfill

/-- Without an annotation that has no bytes. -/
def Point.trim (p : Point) : Point :=
  { p with sample := { p.sample with note := p.sample.note.filter (· ≠ []) } }

theorem Precision.ofCode?_code (p : Precision) : ofCode? p.code = some p := by
  cases p <;> rfl

namespace LittleEndian

theorem decode_encode_of_lt {width n : Nat} (h : n < capacity width) :
    decode (encode width n) = n := by
  rw [decode_encode, Nat.mod_eq_of_lt h]

theorem capacity_eight : capacity 8 = 18446744073709551616 := by simp [capacity]

theorem decodeWord_encodeWord {n : Int} (h : FitsWord n) : decodeWord (encodeWord n) = n := by
  obtain ⟨hl, hu⟩ := h
  have bound : (n % 18446744073709551616).toNat < capacity 8 := by
    have := capacity_eight
    omega
  have word := decode_encode_of_lt bound
  unfold decodeWord encodeWord
  simp only [word]
  omega

end LittleEndian

namespace Segment

open LittleEndian

theorem take_append {n : Nat} {a : Bytes} (h : a.length = n) (b : Bytes) :
    take n (a ++ b) = .ok (a, b) := by
  subst h
  rw [take, if_pos (by simp), List.splitAt_eq, List.take_left, List.drop_left]

theorem readAnnotation_append (note rest : Bytes) :
    readAnnotation note.length (note ++ rest) =
      .ok (if note = [] then none else some note, rest) := by
  cases note with
  | nil => rfl
  | cons b note =>
    unfold readAnnotation
    rw [if_neg (by simp), if_pos (by simp), List.take_left, List.drop_left]
    rfl

theorem readPoint_writePoint {p : Point} {bs : Bytes} (h : writePoint p = .ok bs) (rest : Bytes) :
    readPoint (bs ++ rest) = .ok (p.trim, rest) := by
  obtain ⟨time, bits, precision, note⟩ := p
  unfold writePoint at h
  dsimp only at h
  split at h
  · cases h
  · rename_i hfit
    split at h
    · cases h
    · rename_i hnote
      cases h
      have fits : FitsWord time := by simpa using hfit
      have size : decode (encode 4 (note.getD []).length) = (note.getD []).length :=
        decode_encode_of_lt (Nat.lt_of_not_le hnote)
      have value : UInt64.ofNat (decode (encode 8 bits.toNat)) = bits := by
        rw [decode_encode_of_lt bits.toNat_lt, UInt64.ofNat_toNat]
      have code : decode (encode 1 precision.code) = precision.code := by
        cases precision <;> rfl
      simp only [List.append_assoc, readPoint, encodeWord]
      rw [take_append (length_encode ..)]
      simp only [bind, Except.bind]
      rw [take_append (length_encode ..)]
      dsimp only
      rw [take_append (length_encode ..)]
      dsimp only
      rw [code, Precision.ofCode?_code]
      dsimp only
      rw [take_append (length_encode ..)]
      dsimp only
      rw [size, readAnnotation_append]
      have timed : decodeWord (encode 8 (time % 18446744073709551616).toNat) = time :=
        decodeWord_encodeWord fits
      have noted : (if note.getD [] = [] then none else some (note.getD [])) =
          note.filter (· ≠ []) := by
        cases note with
        | none => rfl
        | some note => cases note <;> rfl
      rw [value, timed, noted]
      rfl

theorem readPoints_writePoints {points : List Point} {bs : Bytes}
    (h : writePoints points = .ok bs) (rest : Bytes) :
    readPoints points.length (bs ++ rest) = .ok (points.map Point.trim) := by
  induction points generalizing bs with
  | nil => rfl
  | cons p points ih =>
    simp only [writePoints, bind, Except.bind] at h
    cases hp : writePoint p with
    | error e =>
      rw [hp] at h
      cases h
    | ok b =>
      cases hps : writePoints points with
      | error e =>
        rw [hp, hps] at h
        cases h
      | ok bs' =>
        rw [hp, hps] at h
        cases h
        rw [List.append_assoc, List.length_cons, readPoints, readPoint_writePoint hp]
        simp only [bind, Except.bind]
        rw [ih hps]
        rfl

/-- Whatever comes after the last point. -/
theorem read_write {points : List Point} {bs : Bytes} (h : write points = .ok bs) (rest : Bytes) :
    read (bs ++ rest) = .ok (points.map Point.trim) := by
  unfold write at h
  split at h
  · cases h
  · rename_i hcount
    cases hw : writePoints points with
    | error e =>
      rw [hw] at h
      cases h
    | ok body =>
      rw [hw] at h
      cases h
      have count : decode (encode 4 points.length) = points.length :=
        decode_encode_of_lt (Nat.lt_of_not_le hcount)
      have long : ¬ (magic ++ encode 4 version ++ encode 4 points.length ++ body ++ rest).length <
          headerSize := by
        simp [magic, headerSize]
        omega
      unfold read
      rw [header, if_neg long]
      simp only [List.append_assoc]
      rw [take_append (show magic.length = 4 from rfl)]
      simp only [bind, Except.bind, ne_eq, not_true_eq_false, ↓reduceIte]
      rw [take_append (length_encode ..)]
      dsimp only
      rw [if_neg (by simp [decode_encode_of_lt, version, capacity]), take_append (length_encode ..)]
      dsimp only
      rw [count, readPoints_writePoints hw]

end Segment

/-- A block decodes to what it was made of. -/
theorem Block.points_encode {points : List Point} {b : Block} (h : encode points = .ok b)
    (start : Instant) : b.points start = .ok ((Point.normalize points).map Point.trim) := by
  unfold encode at h
  cases hw : Segment.write (Point.normalize points) with
  | error e =>
    rw [hw] at h
    cases h
  | ok bs =>
    rw [hw] at h
    cases h
    have same : Checksum.ofBytes (ofBytes bs).bytes = (ofBytes bs).checksum := rfl
    rw [Block.points, same]
    simp only [ne_eq, not_true_eq_false, ↓reduceIte]
    have read := Segment.read_write hw []
    rw [List.append_nil] at read
    exact read

end Backfill
