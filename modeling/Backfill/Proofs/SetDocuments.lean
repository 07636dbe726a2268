import Backfill.Proofs.Sweeps
import Backfill.Proofs.TimeTexts
import Backfill.TimeSet.Json

/-!
Sets of times as documents. Every list of intervals between times that a clock shows has a document
and is read back from it as it was, so a set that is read need not be canonical. Intervals can be
taken away from all such sets. They can be put into the sweepable ones, and the instants decide
equality for the canonical ones.
-/

namespace Backfill

namespace Json

/-- Stands for itself in a text. -/
def Plain (c : Char) : Prop := c ≠ '"' ∧ c ≠ '\\' ∧ ¬ c < ' '

instance (c : Char) : Decidable (Plain c) := inferInstanceAs (Decidable (_ ∧ _))

theorem pieces_plain {cs : List Char} (h : ∀ c ∈ cs, Plain c) (r : List Char) :
    pieces (cs ++ '"' :: r) = some (cs.map .char, r) := by
  induction cs with
  | nil => rfl
  | cons c cs ih =>
    obtain ⟨quote, escape, control⟩ := h c List.mem_cons_self
    rw [List.cons_append, pieces, ih fun d hd => h d (List.mem_cons_of_mem _ hd), if_neg control]
    · rfl
    -- the clauses before the last do not apply to `c`
    · exact quote
    · exact fun _ _ _ _ _ same _ => escape same
    · exact fun _ _ same _ => escape same

theorem joinPairs_chars (cs : List Char) : joinPairs (cs.map .char) = some cs := by
  induction cs with
  | nil => rfl
  | cons c cs ih => rw [List.map_cons, joinPairs, ih, Option.map_some]

theorem text_plain {cs : List Char} (h : ∀ c ∈ cs, Plain c) (r : List Char) :
    text (cs ++ '"' :: r) = some (some (String.ofList cs), r) := by
  rw [text, pieces_plain h]
  simp only [Option.map_some, joinPairs_chars]

/-- A text in quotes. -/
def quoted (cs : List Char) : List Char := '"' :: (cs ++ ['"'])

theorem quoted_append (cs r : List Char) : quoted cs ++ r = '"' :: (cs ++ '"' :: r) := by
  simp [quoted]

theorem skipBlanks_mark {c : Char} (h : c ∉ [' ', '\n', '\t', '\r']) (r : List Char) :
    skipBlanks (c :: r) = c :: r := by
  rw [skipBlanks, List.dropWhile_cons, if_neg fun blank => h (of_decide_eq_true blank)]

theorem value_quoted {cs : List Char} (h : ∀ c ∈ cs, Plain c) (fuel : Nat) (r : List Char) :
    value (fuel + 1) (quoted cs ++ r) = some (.text (some (String.ofList cs)), r) := by
  rw [quoted_append, value]
  simp (disch := decide) only [skipBlanks_mark, text_plain h, Option.map_some]

/-- A member of an object is its key, a colon and its value. -/
theorem members_last (key : List Char) (h : ∀ c ∈ key, Plain c) {v : Value} {fuel : Nat}
    {cs r : List Char} (hv : value fuel cs = some (v, '\x7d' :: r)) :
    members (fuel + 1) (quoted key ++ ':' :: cs) = some ([(some (String.ofList key), v)], r) := by
  rw [quoted_append, members]
  simp (disch := decide) only [skipBlanks_mark, text_plain h, Option.bind_eq_bind,
    Option.bind_some, hv]

theorem members_more (key : List Char) (h : ∀ c ∈ key, Plain c) {v : Value} {fuel : Nat}
    {cs r r' : List Char} {ms : List (Option String × Value)}
    (hv : value fuel cs = some (v, ',' :: r)) (hms : members fuel r = some (ms, r')) :
    members (fuel + 1) (quoted key ++ ':' :: cs) =
      some ((some (String.ofList key), v) :: ms, r') := by
  rw [quoted_append, members]
  simp (disch := decide) only [skipBlanks_mark, text_plain h, Option.bind_eq_bind,
    Option.bind_some, hv, hms, Option.map_some]

/-- An object with a member begins with its key. -/
theorem value_object {fuel : Nat} {key cs r : List Char} {ms : List (Option String × Value)}
    (h : members fuel (quoted key ++ cs) = some (ms, r)) :
    value (fuel + 1) ('\x7b' :: (quoted key ++ cs)) = some (.object ms, r) := by
  rw [quoted_append] at h ⊢
  rw [value]
  simp (disch := decide) only [skipBlanks_mark]
  exact congrArg (Option.map _) h

theorem plain_of_isDigit {c : Char} (h : c.isDigit = true) : Plain c := by
  refine ⟨Timestamp.ne_of_isDigit h rfl, Timestamp.ne_of_isDigit h rfl, fun control => ?_⟩
  have low := (Timestamp.isDigit_iff.mp h).1
  have high : c.toNat < 32 := control
  omega

end Json

namespace Timestamp

theorem plain_paddedDigits {width n : Nat} : ∀ c ∈ paddedDigits width n, Json.Plain c :=
  fun _ h => Json.plain_of_isDigit (isDigit_of_mem_paddedDigits h)

theorem plain_writeYear (y : Int) : ∀ c ∈ (writeYear y).toList, Json.Plain c := by
  rw [toList_writeYear]
  split
  · exact plain_paddedDigits
  · refine List.forall_mem_cons.mpr ⟨?_, plain_paddedDigits⟩
    split <;> decide

theorem plain_writeFraction (n : Nat) : ∀ c ∈ (writeFraction n).toList, Json.Plain c := by
  have point (width k : Nat) : ∀ c ∈ ("." ++ padded width k).toList, Json.Plain c := by
    rw [String.toList_append, toList_padded]
    exact List.forall_mem_cons.mpr ⟨(by decide : Json.Plain '.'), plain_paddedDigits⟩
  rw [writeFraction]
  split
  · exact fun _ h => absurd h List.not_mem_nil
  · split
    · exact point 3 _
    · split
      · exact point 6 _
      · exact point 9 _

/-- There is nothing in a time that a text would have to escape. -/
theorem plain_briefClock (c : ClockTime) : ∀ d ∈ (briefClock c).toList, Json.Plain d := by
  have text := toList_briefClock c
  dsimp only at text
  rw [text]
  simp only [List.forall_mem_append, List.forall_mem_cons]
  exact ⟨plain_writeYear _, by decide, plain_paddedDigits, by decide, plain_paddedDigits,
    by decide, plain_paddedDigits, by decide, plain_paddedDigits, by decide, plain_paddedDigits,
    plain_writeFraction _, by decide, fun _ h => absurd h List.not_mem_nil⟩

end Timestamp

namespace Interval

open Json Timestamp

/-- What the document of an interval holds. -/
def toValue (r : Interval) : Value :=
  .object [(some "start", .text (some (briefClock r.start))),
    (some "end", .text (some (briefClock r.stop)))]

def clockToJson : Interval → String := jsonWith briefClock

theorem toList_clockToJson (r : Interval) : r.clockToJson.toList =
    '\x7b' :: (quoted "start".toList ++ ':' :: (quoted (briefClock r.start).toList ++ ',' ::
      (quoted "end".toList ++ ':' :: (quoted (briefClock r.stop).toList ++ ['\x7d'])))) := by
  simp [clockToJson, jsonWith, quoted]

theorem value_clockToJson (r : Interval) (fuel : Nat) (rest : List Char) :
    value (fuel + 4) (r.clockToJson.toList ++ rest) = some (r.toValue, rest) := by
  have stop := members_last "end".toList (by simp [Plain])
    (value_quoted (plain_briefClock r.stop) fuel ('\x7d' :: rest))
  have start := members_more "start".toList (by simp [Plain])
    (value_quoted (plain_briefClock r.start) (fuel + 1) _) stop
  have whole := value_object start
  simp only [String.ofList_toList] at whole
  rw [toList_clockToJson]
  simpa only [List.cons_append, List.append_assoc, List.nil_append, toValue] using whole

theorem ofJson?_toValue {r : Interval} (start : Tellable r.start) (stop : Tellable r.stop) :
    ofJson? r.toValue = some r := by
  have fields : Json.fields ["start", "end"] r.toValue =
      some ([r.start, r.stop].map fun c => some (.text (some (briefClock c)))) := rfl
  rw [ofJson?, fields]
  simp only [List.map_cons, List.map_nil, read_briefClock start, read_briefClock stop,
    Option.bind_eq_bind, Option.bind_some]

theorem tellable_of_ofJson? {v : Value} {r : Interval} (h : ofJson? v = some r) :
    Tellable r.start ∧ Tellable r.stop := by
  rw [ofJson?] at h
  split at h
  · simp only [Option.bind_eq_bind, Option.bind_eq_some_iff] at h
    obtain ⟨start, readStart, stop, readStop, eq⟩ := h
    cases eq
    exact ⟨tellable_of_read readStart, tellable_of_read readStop⟩
  · cases h

end Interval

namespace TimeSet

open Json

/-- Every end of an interval is a time that a clock shows. -/
def Tellable (s : TimeSet) : Prop :=
  ∀ r ∈ s.intervals, Timestamp.Tellable r.start ∧ Timestamp.Tellable r.stop

/-- The times that the list names. -/
def ends (s : TimeSet) : List ClockTime := s.intervals.flatMap fun r => [r.start, r.stop]

theorem Tellable.ends {s : TimeSet} (h : s.Tellable) {t : ClockTime} (ht : t ∈ s.ends) :
    Timestamp.Tellable t := by
  obtain ⟨r, hr, ht⟩ := List.mem_flatMap.mp ht
  simp only [List.mem_cons, List.not_mem_nil, or_false] at ht
  rcases ht with rfl | rfl
  · exact (h r hr).1
  · exact (h r hr).2

/-- The documents of intervals with commas between them. -/
def listed (l : List Interval) : List Char :=
  [','].intercalate (l.map fun r => r.clockToJson.toList)

theorem listed_cons_cons (r q : Interval) (l : List Interval) :
    listed (r :: q :: l) = r.clockToJson.toList ++ ',' :: listed (q :: l) := by
  simp [listed, List.intercalate]

theorem listed_singleton (r : Interval) : listed [r] = r.clockToJson.toList := by
  simp [listed, List.intercalate]

theorem items_listed (r : Interval) (l : List Interval) {fuel : Nat} (hf : l.length + 5 ≤ fuel)
    (rest : List Char) :
    items fuel (listed (r :: l) ++ ']' :: rest) = some ((r :: l).map Interval.toValue, rest) := by
  obtain ⟨fuel, rfl⟩ := Nat.exists_eq_add_of_le' (by omega : 5 ≤ fuel)
  induction l generalizing r fuel with
  | nil =>
    rw [listed_singleton, items]
    simp (disch := decide) only [Interval.value_clockToJson, Option.bind_eq_bind,
      Option.bind_some, skipBlanks_mark, List.map_cons, List.map_nil]
  | cons q l ih =>
    rw [List.length_cons] at hf
    obtain ⟨fuel, rfl⟩ := Nat.exists_eq_add_of_le' (by omega : 1 ≤ fuel)
    have more := ih q fuel (by omega)
    rw [listed_cons_cons, List.append_assoc, List.cons_append, items]
    simp (disch := decide) only [Interval.value_clockToJson, Option.bind_eq_bind,
      Option.bind_some, skipBlanks_mark, more, Option.map_some, List.map_cons]

theorem toList_clockToJson (s : TimeSet) : s.clockToJson.toList =
    '\x7b' :: (quoted "ranges".toList ++ ':' :: '[' :: (listed s.intervals ++ [']', '\x7d'])) := by
  simp [clockToJson, jsonWith, quoted, listed, Function.comp_def, Interval.clockToJson]

/-- There is a comma between any two. -/
theorem length_le_listed (l : List Interval) : l.length ≤ (listed l).length + 1 := by
  induction l with
  | nil => exact Nat.zero_le _
  | cons r l ih =>
    cases l with
    | nil => exact Nat.le_add_left 1 _
    | cons q l =>
      rw [listed_cons_cons]
      simp only [List.length_append, List.length_cons] at ih ⊢
      omega

theorem value_listed (l : List Interval) {fuel : Nat} (hf : l.length + 5 ≤ fuel)
    (rest : List Char) :
    value (fuel + 1) ('[' :: (listed l ++ ']' :: rest)) =
      some (.array (l.map Interval.toValue), rest) := by
  cases l with
  | nil =>
    rw [value]
    rfl
  | cons r l =>
    obtain ⟨cs, brace⟩ : ∃ cs, listed (r :: l) = '\x7b' :: cs := by
      cases l with
      | nil => exact ⟨_, (listed_singleton r).trans r.toList_clockToJson⟩
      | cons q l => exact ⟨_, (listed_cons_cons r q l).trans (by rw [r.toList_clockToJson]; rfl)⟩
    rw [List.length_cons] at hf
    have read := items_listed r l (by omega : l.length + 5 ≤ fuel) rest
    rw [brace, List.cons_append] at read ⊢
    rw [value]
    simp (disch := decide) only [skipBlanks_mark]
    exact congrArg (Option.map _) read

theorem read_clockToJson (s : TimeSet) : Json.read s.clockToJson =
    some (.object [(some "ranges", .array (s.intervals.map Interval.toValue))]) := by
  have length := congrArg List.length s.toList_clockToJson
  have commas := length_le_listed s.intervals
  simp only [List.length_cons, List.length_append, List.length_nil] at length
  obtain ⟨fuel, spent, enough⟩ : ∃ fuel, 2 * s.clockToJson.toList.length + 2 = fuel + 1 + 1 + 1 ∧
      s.intervals.length + 5 ≤ fuel := ⟨2 * s.clockToJson.toList.length - 1, by omega, by omega⟩
  have ranges := value_listed s.intervals enough ['\x7d']
  have whole := value_object (members_last "ranges".toList (by simp [Plain]) ranges)
  rw [String.ofList_toList, ← toList_clockToJson] at whole
  simp only [Json.read, spent, whole, Option.bind_eq_bind, Option.bind_some]
  rfl

theorem mapM_toValue {l : List Interval} (h : Tellable ⟨l⟩) :
    (l.map Interval.toValue).mapM Interval.ofJson? = some l := by
  induction l with
  | nil => rfl
  | cons r l ih =>
    obtain ⟨start, stop⟩ := h r List.mem_cons_self
    rw [List.map_cons, List.mapM_cons, Interval.ofJson?_toValue start stop,
      ih fun q hq => h q (List.mem_cons_of_mem _ hq)]
    rfl

/-- A set is read back from its document as it was, whatever its intervals are. -/
theorem ofJson?_clockToJson {s : TimeSet} (h : s.Tellable) : ofJson? s.clockToJson = some s := by
  have fields : Json.fields ["ranges"]
      (.object [(some "ranges", .array (s.intervals.map Interval.toValue))]) =
      some [some (.array (s.intervals.map Interval.toValue))] := rfl
  simp only [ofJson?, read_clockToJson, fields, Option.bind_eq_bind, Option.bind_some,
    mapM_toValue h]

theorem tellable_of_mapM {vs : List Value} {l : List Interval}
    (h : vs.mapM Interval.ofJson? = some l) : Tellable ⟨l⟩ := by
  induction vs generalizing l with
  | nil =>
    cases h
    exact fun _ hr => absurd hr List.not_mem_nil
  | cons v vs ih =>
    simp only [List.mapM_cons, Option.bind_eq_bind, Option.bind_eq_some_iff] at h
    obtain ⟨r, first, l, rest, eq⟩ := h
    cases eq
    exact List.forall_mem_cons.mpr ⟨Interval.tellable_of_ofJson? first, ih rest⟩

theorem tellable_of_ofJson? {text : String} {s : TimeSet} (h : ofJson? text = some s) :
    s.Tellable := by
  simp only [ofJson?, Option.bind_eq_bind, Option.bind_eq_some_iff] at h
  obtain ⟨v, _, h⟩ := h
  split at h
  · rename_i vs _
    obtain ⟨l, read, eq⟩ := Option.bind_eq_some_iff.mp h
    cases eq
    exact tellable_of_mapM read
  · cases h

/-- Every list of times that a clock shows has a document. Its order is not looked at, nor whether
intervals are empty or inverted, overlap or touch. -/
theorem tellable_iff {s : TimeSet} : s.Tellable ↔ ∃ text, ofJson? text = some s := by
  constructor
  · intro h
    exact ⟨_, ofJson?_clockToJson h⟩
  · intro h
    obtain ⟨text, h⟩ := h
    exact tellable_of_ofJson? h

/-- What is certain of a set that was read from a document. -/
structure Decoded (s : TimeSet) : Prop where
  /-- It is held as its document lists it. -/
  again : ofJson? s.clockToJson = some s
  /-- Its document could have listed the same times in any other way: in another order, and with
  empty, inverted, overlapping or touching intervals. -/
  unchecked : ∀ l : List Interval, (∀ r ∈ l, r.start ∈ s.ends ∧ r.stop ∈ s.ends) →
    ∃ text, ofJson? text = some ⟨l⟩
  remove : ∀ r t, t ∈ s.remove r ↔ t ∈ s ∧ t ∉ r
  add_within : ∀ r t, t ∈ s.add r → t ∈ s ∨ t ∈ r
  add_self : ∀ r : Interval, ∀ t ∈ r, t ∈ s.add r
  /-- Every interval can be added without a loss just when the list is sweepable. -/
  add : s.Sweepable ↔ ∀ r t, t ∈ s.add r ↔ t ∈ s ∨ t ∈ r
  edits : s.Orderly → ∀ (edits : List Edit) (t : Instant),
    t ∈ edits.foldl Edit.apply s ↔ edits.foldl (Edit.holds t) (t ∈ s)
  canonical : s.Canonical → ∀ edits : List Edit, (edits.foldl Edit.apply s).Canonical
  /-- The instants tell whether it is equal to a set that was made, just when the list is
  canonical. -/
  eq : s.Canonical ↔ ∀ b : TimeSet, b.Made → (s = b ↔ ∀ t, t ∈ s ↔ t ∈ b)

theorem ofJson?_decoded {text : String} {s : TimeSet} (h : ofJson? text = some s) : Decoded s where
  again := ofJson?_clockToJson (tellable_of_ofJson? h)
  unchecked l hl := by
    have told := tellable_of_ofJson? h
    exact tellable_iff.mp fun r hr => ⟨told.ends (hl r hr).1, told.ends (hl r hr).2⟩
  remove _ _ := mem_remove
  add_within _ _ := mem_of_mem_add
  add_self _ _ := mem_add_self
  add := sweepable_iff
  edits orderly edits _ := orderly.mem_edits edits
  canonical h edits := h.edits edits
  eq := canonical_iff

/-- One interval ends in the leap second that the next one, written for another zone, starts in. -/
theorem ofJson?_decoded_touching :
    let text := "\x7b\"ranges\":[" ++
      "\x7b\"start\":\"2016-12-31T22:00:00Z\",\"end\":\"2016-12-31T23:59:60Z\"\x7d," ++
      "\x7b\"start\":\"2017-01-01T00:59:60+01:00\",\"end\":\"2017-01-01T01:00:00Z\"\x7d]\x7d"
    let leap := ClockTime.ofParts 1483228799 1000000000
    let s : TimeSet := ⟨[⟨ClockTime.ofParts 1483221600 0, leap⟩,
      ⟨leap, ClockTime.ofParts 1483232400 0⟩]⟩
    ofJson? text = some s ∧ Decoded s ∧ s.Orderly ∧ ¬ s.Canonical := by
  intro text leap s
  have read : ofJson? text = some s := by decide +kernel
  refine ⟨read, ofJson?_decoded read, ⟨by decide, sweepable_of_ascending (by decide)⟩, fun h => ?_⟩
  exact absurd h.separated (by decide)

/-- Two overlapping intervals, the later one first. What is placed before the later one still takes
up the earlier one, and loses what only that one holds. The set that was made of the same instants
does not equal the one that was read. -/
theorem ofJson?_loses :
    let text := "\x7b\"ranges\":[" ++
      "\x7b\"start\":\"1970-01-01T00:00:10Z\",\"end\":\"1970-01-01T00:00:20Z\"\x7d," ++
      "\x7b\"start\":\"1970-01-01T00:00:03Z\",\"end\":\"1970-01-01T00:00:12Z\"\x7d]\x7d"
    let second (n : Int) : ClockTime := .ofParts n 0
    let s : TimeSet := ⟨[⟨second 10, second 20⟩, ⟨second 3, second 12⟩]⟩
    let made : TimeSet := .ofInterval ⟨second 3, second 20⟩
    ofJson? text = some s ∧ ¬ s.Canonical ∧
      (second 7 ∈ s ∧ second 7 ∉ s.add ⟨second 0, second 5⟩) ∧
      (∀ t, t ∈ s ↔ t ∈ made) ∧ s ≠ made := by
  intro text second s made
  have read : ofJson? text = some s := by decide +kernel
  refine ⟨read, fun h => absurd h.separated (by decide), by decide, fun t => ?_, by decide⟩
  have whole (n : Int) : second n = n * 2000000000 := Int.add_zero _
  have none : t ∉ TimeSet.mk [] := not_mem_empty t
  rw [mem_ofInterval, mem_cons, mem_cons, or_iff_left none]
  simp only [Interval.mem_mk, whole]
  lia

end TimeSet

end Backfill
