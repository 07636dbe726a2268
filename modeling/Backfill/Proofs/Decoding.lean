import Backfill.Proofs.Encoding
import Backfill.Proofs.Folds

/-!
Which bytes are read: those that begin with what is written for some points, and no others. A
segment that was cut anywhere is noticed, and what comes after the last point is not looked at.
-/

namespace Backfill

theorem Precision.code_of_ofCode? {n : Nat} {p : Precision} (h : ofCode? n = some p) :
    p.code = n := by
  simpa using List.find?_some h

theorem Point.trim_eq_self {p : Point} : p.trim = p ↔ p.sample.note ≠ some [] := by
  obtain ⟨time, bits, precision, note⟩ := p
  cases note with
  | none => simp [trim]
  | some note => cases note <;> simp [trim]

namespace LittleEndian

theorem encode_decode_of_length {width : Nat} {bs : Bytes} (h : bs.length = width) :
    encode width (decode bs) = bs := by
  rw [← h, encode_decode]

theorem fitsWord_decodeWord {bs : Bytes} (h : bs.length = 8) : FitsWord (decodeWord bs) := by
  have bound := decode_lt bs
  rw [h, capacity_eight] at bound
  unfold decodeWord FitsWord
  dsimp only
  split <;> omega

theorem encodeWord_decodeWord {bs : Bytes} (h : bs.length = 8) :
    encodeWord (decodeWord bs) = bs := by
  have bound := decode_lt bs
  rw [h, capacity_eight] at bound
  have word : (decodeWord bs % 18446744073709551616).toNat = decode bs := by
    unfold decodeWord
    dsimp only
    split <;> omega
  rw [encodeWord, word, encode_decode_of_length h]

end LittleEndian

namespace Segment

open LittleEndian

theorem decode_lt_wordLimit {bs : Bytes} (h : bs.length = 4) : decode bs < wordLimit := by
  have bound := decode_lt bs
  rwa [h] at bound

theorem take_eq_ok {n : Nat} {bs a rest : Bytes} :
    take n bs = .ok (a, rest) ↔ a.length = n ∧ bs = a ++ rest := by
  constructor
  · intro h
    unfold take at h
    split at h
    · rename_i enough
      simp only [List.splitAt_eq, Except.ok.injEq, Prod.mk.injEq] at h
      obtain ⟨rfl, rfl⟩ := h
      simp [enough]
    · cases h
  · intro h
    obtain ⟨size, rfl⟩ := h
    exact take_append size rest

theorem readAnnotation_eq_ok {size : Nat} {bs rest : Bytes} {note : Option Bytes}
    (h : readAnnotation size bs = .ok (note, rest)) :
    note ≠ some [] ∧ (note.getD []).length = size ∧ bs = note.getD [] ++ rest := by
  unfold readAnnotation at h
  split at h
  · rename_i none
    cases h
    simp [none]
  · rename_i some
    split at h
    · rename_i enough
      cases h
      refine ⟨fun empty => ?_, by simp [enough], by simp⟩
      have size := congrArg List.length (Option.some.inj empty)
      simp only [List.length_take, List.length_nil] at size
      omega
    · cases h

/-- A point that is read is written as the bytes that were read for it. -/
theorem readPoint_eq_ok {bs rest : Bytes} {p : Point} (h : readPoint bs = .ok (p, rest)) :
    p.sample.note ≠ some [] ∧ ∃ b, writePoint p = .ok b ∧ bs = b ++ rest := by
  unfold readPoint at h
  obtain ⟨⟨time, _⟩, hTime, h⟩ := bind_eq_ok.mp h
  obtain ⟨⟨value, _⟩, hValue, h⟩ := bind_eq_ok.mp h
  obtain ⟨⟨unit, _⟩, hUnit, h⟩ := bind_eq_ok.mp h
  dsimp only at hValue hUnit h
  split at h
  · rename_i precision known
    obtain ⟨⟨size, _⟩, hSize, h⟩ := bind_eq_ok.mp h
    obtain ⟨⟨note, _⟩, hNote, h⟩ := bind_eq_ok.mp h
    dsimp only at hNote h
    simp only [pure, Except.pure, Except.ok.injEq, Prod.mk.injEq] at h
    obtain ⟨rfl, rfl⟩ := h
    obtain ⟨timeSize, rfl⟩ := take_eq_ok.mp hTime
    obtain ⟨valueSize, rfl⟩ := take_eq_ok.mp hValue
    obtain ⟨unitSize, rfl⟩ := take_eq_ok.mp hUnit
    obtain ⟨sizeSize, rfl⟩ := take_eq_ok.mp hSize
    obtain ⟨present, noteSize, rfl⟩ := readAnnotation_eq_ok hNote
    have short := decode_lt_wordLimit sizeSize
    have bits : decode value < UInt64.size := by
      have := decode_lt value
      rwa [valueSize, capacity_eight] at this
    refine ⟨present, time ++ value ++ unit ++ size ++ note.getD [], ?_, by simp⟩
    unfold writePoint
    dsimp only
    rw [if_neg (not_not_intro (fitsWord_decodeWord timeSize)), if_neg (by omega),
      encodeWord_decodeWord timeSize, UInt64.toNat_ofNat_of_lt' bits,
      Precision.code_of_ofCode? known, noteSize, encode_decode_of_length valueSize,
      encode_decode_of_length unitSize, encode_decode_of_length sizeSize]
  · cases h

theorem readPoints_eq_ok {count : Nat} {bs : Bytes} {points : List Point}
    (h : readPoints count bs = .ok points) :
    points.length = count ∧ (∀ p ∈ points, p.sample.note ≠ some []) ∧
      ∃ body rest, writePoints points = .ok body ∧ bs = body ++ rest := by
  induction count generalizing bs points with
  | zero =>
    cases h
    exact ⟨rfl, by simp, [], bs, rfl, rfl⟩
  | succ count ih =>
    rw [readPoints] at h
    obtain ⟨⟨p, _⟩, first, h⟩ := bind_eq_ok.mp h
    obtain ⟨others, later, h⟩ := bind_eq_ok.mp h
    cases h
    obtain ⟨present, b, written, rfl⟩ := readPoint_eq_ok first
    obtain ⟨size, presents, body, rest, writtens, rfl⟩ := ih later
    refine ⟨by simp [size], ?_, b ++ body, rest, ?_, by simp⟩
    · simpa using ⟨present, presents⟩
    · rw [writePoints, written, writtens]
      rfl

/-- Bytes that are not too few are told by what is where the header should be. -/
theorem read_headed {found v count : Bytes} (foundSize : found.length = 4) (vSize : v.length = 4)
    (countSize : count.length = 4) (rest : Bytes) :
    read (found ++ (v ++ (count ++ rest))) =
      if found ≠ magic then .error .invalidMagic
      else if decode v ≠ version then .error (.unsupportedVersion (decode v))
      else readPoints (decode count) rest := by
  have long : ¬ (found ++ (v ++ (count ++ rest))).length < headerSize := by
    simp [headerSize, foundSize, vSize, countSize]
    omega
  unfold read
  rw [if_neg long]
  simp only [take_append foundSize, take_append vSize, take_append countSize, bind, Except.bind]

theorem exists_header {bs : Bytes} (h : ¬ bs.length < headerSize) :
    ∃ found v count rest : Bytes, found.length = 4 ∧ v.length = 4 ∧ count.length = 4 ∧
      bs = found ++ (v ++ (count ++ rest)) := by
  simp only [headerSize] at h
  refine ⟨bs.take 4, (bs.drop 4).take 4, (bs.drop 8).take 4, bs.drop 12, ?_, ?_, ?_, ?_⟩
  · simp
    omega
  · simp
    omega
  · simp
    omega
  · have second : bs.drop 8 = (bs.drop 4).drop 4 := by rw [List.drop_drop]
    have third : bs.drop 12 = (bs.drop 8).drop 4 := by rw [List.drop_drop]
    rw [third, List.take_append_drop, second, List.take_append_drop, List.take_append_drop]

/-- The bytes begin with what is written for the points. No annotation is there without bytes. -/
structure Begins (points : List Point) (bs : Bytes) : Prop where
  present : ∀ p ∈ points, p.sample.note ≠ some []
  written : ∃ front, write points = .ok front ∧ front <+: bs

theorem begins_of_read {bs : Bytes} {points : List Point} (h : read bs = .ok points) :
    Begins points bs := by
  by_cases long : bs.length < headerSize
  · rw [read, if_pos long] at h
    cases h
  · obtain ⟨found, v, count, rest, foundSize, vSize, countSize, rfl⟩ := exists_header long
    rw [read_headed foundSize vSize countSize] at h
    split at h
    · cases h
    · rename_i known
      split at h
      · cases h
      · rename_i current
        obtain ⟨size, present, body, rest, written, rfl⟩ := readPoints_eq_ok h
        have few := decode_lt_wordLimit countSize
        refine ⟨present, found ++ v ++ count ++ body, ?_, rest, by simp⟩
        rw [write, if_neg (by omega), written, header, size, ← Decidable.not_not.mp known,
          ← Decidable.not_not.mp current, encode_decode_of_length vSize,
          encode_decode_of_length countSize]
        rfl

theorem read_of_begins {bs : Bytes} {points : List Point} (h : Begins points bs) :
    read bs = .ok points := by
  obtain ⟨present, front, written, rest, rfl⟩ := h
  have same : points.map Point.trim = points :=
    (List.map_congr_left fun p hp => Point.trim_eq_self.mpr (present p hp)).trans points.map_id'
  rw [read_write written rest, same]

/-- The bytes ended before it could be told what they are. -/
def Corruption.isShort : Corruption → Bool
  | tooSmall _ | truncated | annotationOverrun => true
  | invalidMagic | unsupportedVersion _ | invalidPrecision _ | checksumMismatch .. => false

theorem take_error {n : Nat} {bs : Bytes} {c : Corruption} (h : take n bs = .error c) :
    c.isShort = true := by
  unfold take at h
  split at h
  · cases h
  · cases h
    rfl

theorem readAnnotation_error {size : Nat} {bs : Bytes} {c : Corruption}
    (h : readAnnotation size bs = .error c) : c.isShort = true := by
  unfold readAnnotation at h
  repeat' split at h
  all_goals cases h
  rfl

/-- More bytes change nothing about a point with bytes in it that are wrong. -/
theorem readPoint_error_append {bs : Bytes} {c : Corruption} (h : readPoint bs = .error c)
    (wrong : c.isShort = false) (more : Bytes) : readPoint (bs ++ more) = .error c := by
  have enough {n : Nat} {bs : Bytes} : take n bs ≠ .error c := by
    intro short
    rw [take_error short] at wrong
    cases wrong
  unfold readPoint at h
  obtain ⟨⟨time, _⟩, hTime, h⟩ := (bind_eq_error.mp h).resolve_left enough
  obtain ⟨⟨value, _⟩, hValue, h⟩ := (bind_eq_error.mp h).resolve_left enough
  obtain ⟨⟨unit, _⟩, hUnit, h⟩ := (bind_eq_error.mp h).resolve_left enough
  dsimp only at hValue hUnit h
  split at h
  · obtain ⟨_, _, h⟩ := (bind_eq_error.mp h).resolve_left enough
    rcases bind_eq_error.mp h with h | ⟨_, _, h⟩
    · rw [readAnnotation_error h] at wrong
      cases wrong
    · cases h
  · rename_i unknown
    cases h
    obtain ⟨timeSize, rfl⟩ := take_eq_ok.mp hTime
    obtain ⟨valueSize, rfl⟩ := take_eq_ok.mp hValue
    obtain ⟨unitSize, rfl⟩ := take_eq_ok.mp hUnit
    simp only [readPoint, List.append_assoc, take_append timeSize, take_append valueSize,
      take_append unitSize, bind, Except.bind]

theorem readPoints_error_append {count : Nat} {bs : Bytes} {c : Corruption}
    (h : readPoints count bs = .error c) (wrong : c.isShort = false) (more : Bytes) :
    readPoints count (bs ++ more) = .error c := by
  induction count generalizing bs with
  | zero => cases h
  | succ count ih =>
    rw [readPoints] at h ⊢
    rcases bind_eq_error.mp h with h | ⟨⟨p, _⟩, first, h⟩
    · rw [readPoint_error_append h wrong]
      rfl
    · rcases bind_eq_error.mp h with later | ⟨_, _, h⟩
      · obtain ⟨_, b, written, rfl⟩ := readPoint_eq_ok first
        rw [List.append_assoc, readPoint_writePoint written]
        dsimp only [bind, Except.bind]
        rw [ih later]
      · cases h

theorem read_error_append {bs : Bytes} {c : Corruption} (h : read bs = .error c)
    (wrong : c.isShort = false) (more : Bytes) : read (bs ++ more) = .error c := by
  by_cases long : bs.length < headerSize
  · rw [read, if_pos long] at h
    cases h
    cases wrong
  · obtain ⟨found, v, count, rest, foundSize, vSize, countSize, rfl⟩ := exists_header long
    simp only [List.append_assoc, read_headed foundSize vSize countSize] at h ⊢
    split
    · rename_i strange
      rwa [if_pos strange] at h
    · rename_i known
      rw [if_neg known] at h
      split
      · rename_i other
        rwa [if_pos other] at h
      · rename_i current
        rw [if_neg current] at h
        exact readPoints_error_append h wrong more

theorem read_eq_ok_iff {bs : Bytes} {points : List Point} :
    read bs = .ok points ↔ Begins points bs :=
  ⟨begins_of_read, read_of_begins⟩

/-- One point with an annotation of one byte, and two bytes that are not looked at. -/
example :
    (read ([0x54, 0x53, 0x42, 0x4b, 1, 0, 0, 0, 1, 0, 0, 0] ++ [5, 0, 0, 0, 0, 0, 0, 0] ++
      [0, 0, 0, 0, 0, 0, 0xf0, 0x3f] ++ [4] ++ [1, 0, 0, 0] ++ [7] ++ [9, 9])).toOption =
        some [⟨5, ⟨0x3ff0000000000000, .nanosecond, some [7]⟩⟩] := by
  decide +kernel

theorem Begins.append {points : List Point} {bs : Bytes} (h : Begins points bs) (more : Bytes) :
    Begins points (bs ++ more) := by
  obtain ⟨front, written, begun⟩ := h.written
  exact ⟨h.present, front, written, begun.trans (List.prefix_append bs more)⟩

/-- What is left when a segment is cut begins with no segment. -/
theorem not_begins_cut {points others : List Point} {bs cut : Bytes} (h : write points = .ok bs)
    (shorter : cut <+: bs) (ne : cut ≠ bs) : ¬ Begins others cut := by
  intro begins
  obtain ⟨front, written, begun⟩ := begins.written
  obtain ⟨rest, whole⟩ := shorter
  have read₁ : read bs = .ok others := whole ▸ read_of_begins (begins.append rest)
  have read₂ := read_write h []
  rw [List.append_nil, read₁, Except.ok.injEq] at read₂
  -- the points read are those written, so `front` is all of `bs`
  rw [read₂, write_map_trim, h, Except.ok.injEq] at written
  subst written
  exact ne (List.IsPrefix.eq_of_length_le ⟨rest, whole⟩ begun.length_le)

theorem read_rejects {bs : Bytes} (h : ∀ points, ¬ Begins points bs) :
    ∃ c why, read bs = .error c ∧ c.toError = .corruptSegment why := by
  cases outcome : read bs with
  | ok points => exact absurd (begins_of_read outcome) (h points)
  | error c => exact ⟨c, c.message, rfl, rfl⟩

end Segment

end Backfill
