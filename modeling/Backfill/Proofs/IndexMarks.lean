import Backfill.Proofs.Folds
import Backfill.Proofs.Recovery
import Backfill.Proofs.Slices

/-!
An index seen block by block: what is marked as indexed in each, and which documents it holds. Marks
that are cut along the windows of the index account for all that was asked for and is not missing.
-/

namespace Backfill

namespace Index

/-- An empty one where there is none. -/
def block (i : Index) (start : Instant) : IndexBlock := (i.blocks.get? start).getD .empty

def marks (i : Index) (start : Instant) : Coverage := (i.block start).fulfilled

/-- The tags that a series is indexed with. -/
def document? (i : Index) (start : Instant) (id : SeriesId) : Option Tags :=
  (i.block start).documents.get? id

/-- The marks of every block are canonical. -/
def Canonical (i : Index) : Prop := ∀ start, (i.marks start).Canonical

variable {i j : Index} {start other : Instant} {id : SeriesId}

theorem holds_eq (i : Index) (start : Instant) (id : SeriesId) :
    i.holds start id = (i.document? start id).isSome := by
  rw [holds, document?, block]
  cases i.blocks.get? start with
  | none => rfl
  | some b => rfl

@[simp] theorem block_empty (start : Instant) : empty.block start = .empty := rfl

@[simp] theorem marks_empty (start : Instant) : empty.marks start = .empty := rfl

@[simp] theorem document?_empty (start : Instant) (id : SeriesId) :
    empty.document? start id = none := rfl

theorem Canonical.empty : Index.empty.Canonical := fun _ => Coverage.Canonical.empty

theorem block_touch (i : Index) (start other : Instant) :
    (i.touch start).block other = i.block other := by
  rw [block, touch, SortedMap.get?_update]
  split
  · rename_i here
    rw [here]
    rfl
  · rfl

theorem block_insert (i : Index) (start other : Instant) (id : SeriesId) (tags : Tags) :
    (i.insert start id tags).block other =
      if other = start then (i.block start).insert id tags else i.block other := by
  rw [block, insert, SortedMap.get?_update]
  split <;> rfl

@[simp] theorem marks_touch (i : Index) (start other : Instant) :
    (i.touch start).marks other = i.marks other := by
  rw [marks, block_touch, marks]

@[simp] theorem document?_touch (i : Index) (start other : Instant) (id : SeriesId) :
    (i.touch start).document? other id = i.document? other id := by
  rw [document?, block_touch, document?]

@[simp] theorem marks_insert (i : Index) (start other : Instant) (id : SeriesId) (tags : Tags) :
    (i.insert start id tags).marks other = i.marks other := by
  rw [marks, block_insert, marks]
  split
  · rename_i here
    rw [here]
    rfl
  · rfl

/-- Only the first document of a series goes into a block. -/
theorem document?_insert (i : Index) (start other : Instant) (id name : SeriesId) (tags : Tags) :
    (i.insert start id tags).document? other name =
      if other = start ∧ name = id then some ((i.document? start id).getD tags)
      else i.document? other name := by
  rw [document?, block_insert]
  by_cases here : other = start
  · rw [if_pos here, IndexBlock.insert, SortedMap.insertNew, SortedMap.get?_alter]
    by_cases same : name = id
    · rw [if_pos same, if_pos ⟨here, same⟩]
      rfl
    · rw [if_neg same, if_neg fun h => same h.2, here]
      rfl
  · rw [if_neg here, if_neg fun h => here h.1]
    rfl

theorem contains_update (blocks : SortedMap Instant IndexBlock) (start other : Instant)
    (f : IndexBlock → IndexBlock) : (blocks.update start .empty f).contains other = true ↔
      blocks.contains other = true ∨ other = start := by
  rw [SortedMap.contains, SortedMap.get?_update]
  split
  · rename_i here
    simp [here]
  · rename_i elsewhere
    simp [elsewhere, SortedMap.contains]

theorem contains_touch (i : Index) (start other : Instant) :
    (i.touch start).blocks.contains other = true ↔
      i.blocks.contains other = true ∨ other = start := contains_update ..

theorem contains_insert (i : Index) (start other : Instant) (id : SeriesId) (tags : Tags) :
    (i.insert start id tags).blocks.contains other = true ↔
      i.blocks.contains other = true ∨ other = start := contains_update ..

theorem contains_mark (i : Index) (start other : Instant) (done : Coverage) :
    (i.mark start done).blocks.contains other = true ↔
      i.blocks.contains other = true ∨ other = start := contains_update ..

theorem contains_of_holds (h : i.holds start id = true) : i.blocks.contains start = true := by
  rw [holds] at h
  rw [SortedMap.contains]
  cases hb : i.blocks.get? start with
  | none => simp [hb] at h
  | some b => rfl

/-- An index is made up of its blocks, each with its marks and documents. -/
theorem ext_views
    (blocks : ∀ start, i.blocks.contains start = true ↔ j.blocks.contains start = true)
    (marks : ∀ start, i.marks start = j.marks start)
    (documents : ∀ start id, i.document? start id = j.document? start id) : i = j := by
  have view (i : Index) (start : Instant) : i.blocks.get? start =
      if i.blocks.contains start = true then some (i.block start) else none := by
    rw [SortedMap.contains, block]
    cases i.blocks.get? start <;> rfl
  refine congrArg Index.mk ?_
  ext1 start
  have block : i.block start = j.block start := by
    have same : (i.block start).documents = (j.block start).documents := by
      ext1 id
      exact documents start id
    have mk := congr (congrArg IndexBlock.mk same) (marks start)
    exact mk
  simp only [view, blocks, block]

theorem block_mark (i : Index) (start other : Instant) (done : Coverage) :
    (i.mark start done).block other =
      if other = start then { i.block start with fulfilled := (i.marks start).union done }
      else i.block other := by
  rw [block, mark, SortedMap.get?_update]
  split <;> rfl

@[simp] theorem document?_mark (i : Index) (start other : Instant) (done : Coverage)
    (id : SeriesId) : (i.mark start done).document? other id = i.document? other id := by
  rw [document?, block_mark, document?]
  split
  · rename_i here
    rw [here]
  · rfl

theorem marks_mark (i : Index) (start other : Instant) (done : Coverage) :
    (i.mark start done).marks other =
      if other = start then (i.marks start).union done else i.marks other := by
  rw [marks, block_mark]
  split <;> rfl

theorem Canonical.mark (h : i.Canonical) (start : Instant) (done : Coverage) :
    (i.mark start done).Canonical := by
  intro other
  rw [marks_mark]
  split
  · exact (h start).union done
  · exact h other

theorem mem_marks_mark (h : i.Canonical) {done : Coverage} {p : Shard × Instant} :
    p ∈ (i.mark start done).marks other ↔ p ∈ i.marks other ∨ other = start ∧ p ∈ done := by
  rw [marks_mark]
  split
  · rename_i here
    rw [Coverage.mem_union (h start), here]
    simp
  · rename_i elsewhere
    simp [elsewhere]

theorem block_merge (i j : Index) (start : Instant) :
    (i.merge j).block start = (j.blocks.get? start).elim (i.block start) fun new =>
      (i.blocks.get? start).elim new (·.merge new) := by
  rw [block, block, merge, SortedMap.get?_unionWith]
  cases j.blocks.get? start with
  | none => rfl
  | some new => cases i.blocks.get? start <;> rfl

theorem Canonical.merge (hi : i.Canonical) (hj : j.Canonical) : (i.merge j).Canonical := by
  intro start
  have here := hi start
  have there := hj start
  rw [marks, block] at here there
  rw [marks, block_merge]
  cases hb : j.blocks.get? start with
  | none => exact hi start
  | some new =>
    cases hc : i.blocks.get? start with
    | none =>
      rw [hb] at there
      exact there
    | some old =>
      rw [hc] at here
      exact here.union _

theorem mem_marks_merge (h : i.Canonical) {p : Shard × Instant} :
    p ∈ (i.merge j).marks start ↔ p ∈ i.marks start ∨ p ∈ j.marks start := by
  have here := h start
  rw [marks, block] at here
  rw [marks, block_merge, marks, marks, block, block]
  cases j.blocks.get? start with
  | none => simp [IndexBlock.empty]
  | some new =>
    cases hc : i.blocks.get? start with
    | none => simp [IndexBlock.empty]
    | some old =>
      rw [hc] at here
      exact Coverage.mem_union here

theorem document?_merge (i j : Index) (start : Instant) (id : SeriesId) :
    (i.merge j).document? start id = (i.document? start id).or (j.document? start id) := by
  rw [document?, document?, document?, block_merge, block, block]
  cases j.blocks.get? start with
  | none => exact Option.or_none.symm
  | some new =>
    cases i.blocks.get? start with
    | none => rfl
    | some old =>
      simp only [Option.elim_some, Option.getD_some, IndexBlock.merge, SortedMap.get?_unionWith]
      cases new.documents.get? id with
      | none => exact Option.or_none.symm
      | some tags => cases old.documents.get? id <;> rfl

end Index

namespace RecoveredIndex

/-- What was asked for is marked in the blocks of its windows, or missing, and never both. This is
about instants, which a clock shows away from leap seconds. -/
structure Partitions (f : RecoveredIndex) (asked : Coverage) (size : Duration) : Prop where
  missing_asked : ∀ p ∈ f.missing, p ∈ asked
  marked_iff : ∀ p, (∃ start, p ∈ f.index.marks start) ↔ p ∈ asked ∧ p ∉ f.missing
  placed : ∀ start shard, ∀ q ∈ ((f.index.marks start).get shard).intervals,
    start ≤ q.start ∧ q.stop ≤ start + size ∧ ∀ t ∈ q, Instant.windowStart t size = .ok start

/-- It is enough that each instant is marked in the block of its own window, if at all. -/
theorem Partitions.of_marks {f : RecoveredIndex} {asked : Coverage} {size : Duration}
    (hs : 0 < size) (hw : FitsWord size) (fits : asked.FitsWords) (canonical : f.index.Canonical)
    (missing : ∀ p ∈ f.missing, p ∈ asked)
    (marked : ∀ start p, p ∈ f.index.marks start ↔
      (p ∈ asked ∧ p ∉ f.missing) ∧ p.2.floor size = start) : f.Partitions asked size := by
  refine ⟨missing, fun p => ?_, fun start shard q hq => ?_⟩
  · constructor
    · intro h
      obtain ⟨start, hp⟩ := h
      exact ((marked start p).mp hp).1
    · intro h
      exact ⟨p.2.floor size, (marked _ p).mpr ⟨h, rfl⟩⟩
  · have inhabited := (canonical start shard).inhabited q hq
    have within : ∀ t ∈ q, (shard, t) ∈ asked ∧ t.floor size = start := by
      intro t ht
      have here : (shard, t) ∈ f.index.marks start := ⟨q, hq, ht⟩
      obtain ⟨⟨ha, _⟩, eq⟩ := (marked start (shard, t)).mp here
      exact ⟨ha, eq⟩
    -- both ends are in the window since the first and the last instant are
    have first := (within q.start ⟨Int.le_refl _, inhabited⟩).2
    have last := (within (q.stop - 1) ⟨by lia, by lia⟩).2
    have low := Instant.floor_le hs q.start
    have high := Instant.lt_floor_add hs (q.stop - 1)
    refine ⟨by lia, by lia, fun t ht => ?_⟩
    obtain ⟨ha, eq⟩ := within t ht
    rw [Instant.windowStart_eq hs hw ((fits shard).of_mem ha), eq]

/-- All that was asked for is missing. -/
theorem Partitions.unread {asked : Coverage} {size : Duration} :
    Partitions ⟨.empty, asked⟩ asked size := by
  refine ⟨fun p hp => hp, fun p => ?_, fun start shard q hq => ?_⟩
  · simp
  · rw [Index.marks_empty, Coverage.get_empty] at hq
    cases hq

end RecoveredIndex

end Backfill
