import Backfill.Proofs.IndexMarks
import Backfill.Proofs.NamespaceReads

/-!
The index side of a replay. Restored snapshots bring nothing to the index; an entry of the log
enters its series or, where that cannot be indexed, leaves the index block missing; and in the end
what was asked for and is not missing is marked.
-/

namespace Backfill

namespace Index

theorem touch_of_holds {i : Index} {start : Instant} {id : SeriesId}
    (held : i.holds start id = true) : i.touch start = i := by
  rw [touch]
  refine congrArg Index.mk ?_
  ext1 other
  rw [SortedMap.get?_update]
  split
  · rename_i here
    subst here
    cases hb : i.blocks.get? other with
    | none => simp [holds, hb] at held
    | some b => rfl
  · rfl

theorem insert_touch (i : Index) (start : Instant) (id : SeriesId) (tags : Tags) :
    (i.touch start).insert start id tags = i.insert start id tags := by
  rw [insert, touch, insert]
  refine congrArg Index.mk ?_
  ext1 other
  by_cases here : other = start
  · simp [here]
  · simp [here]

end Index

theorem Interval.ofStart_ok {start : Instant} {size : Duration} {block : Interval}
    (h : ofStart start size = .ok block) : block = ⟨start, start + size⟩ := by
  obtain ⟨stop, shifted, rfl⟩ := map_eq_ok.mp h
  rw [Instant.shift] at shifted
  split at shifted
  · cases shifted
    rfl
  · cases shifted

namespace RecoveredIndex

variable {f f' : RecoveredIndex} {asked : Coverage} {size : Duration} {e : LogEntry}
  {start : Instant}

/-- What an entry that is asked for makes of the index: nothing where its series is in the block
already; otherwise the series is entered, or its block is missing. -/
inductive Step (asked : Coverage) (size : Duration) (e : LogEntry) (start : Instant)
    (f : RecoveredIndex) : RecoveredIndex → Prop
  | known (held : f.index.holds start e.id = true) : Step asked size e start f f
  | entered (fresh : f.index.holds start e.id = false)
      (valid : Document.validate e.id e.tags = .ok ()) :
      Step asked size e start f ⟨f.index.insert start e.id e.tags, f.missing⟩
  | refused (fresh : f.index.holds start e.id = false)
      (invalid : Document.validate e.id e.tags ≠ .ok ())
      (told : ∃ block, Interval.ofStart start size = .ok block) :
      Step asked size e start f
        ⟨f.index.touch start,
          f.missing.addSet e.shard ((asked.get e.shard).clip ⟨start, start + size⟩)⟩

/-- What an entry makes of the index, asked for or not. -/
inductive Pass (asked : Coverage) (size : Duration) (e : LogEntry) (f : RecoveredIndex) :
    RecoveredIndex → Prop
  | unasked (out : e.point.time ∉ asked.get e.shard) : Pass asked size e f f
  | asked (ha : e.point.time ∈ asked.get e.shard) {start : Instant} {f' : RecoveredIndex}
      (hstart : Instant.windowStart e.point.time size = .ok start)
      (step : Step asked size e start f f') : Pass asked size e f f'

/-- Nothing is marked yet, and only what was asked for is missing. -/
structure Unmarked (f : RecoveredIndex) (asked : Coverage) : Prop where
  marks : ∀ start, f.index.marks start = .empty
  canonical : f.missing.Canonical
  asked : ∀ p ∈ f.missing, p ∈ asked

theorem unmarked_empty (asked : Coverage) : empty.Unmarked asked :=
  ⟨fun _ => rfl, .empty, fun p h => absurd h (Coverage.not_mem_empty p)⟩

theorem Step.unmarked (step : Step asked size e start f f') (h : f.Unmarked asked) :
    f'.Unmarked asked := by
  cases step with
  | known held => exact h
  | entered fresh valid => exact ⟨fun other => by simp [h.marks], h.canonical, h.asked⟩
  | refused fresh invalid _ =>
    refine ⟨fun other => by simp [h.marks], h.canonical.addSet _ _, fun p hp => ?_⟩
    obtain ⟨shard, t⟩ := p
    rcases (Coverage.mem_addSet h.canonical).mp hp with hp | ⟨here, hp⟩
    · exact h.asked _ hp
    · cases here
      exact (TimeSet.mem_clip.mp hp).1

theorem Pass.unmarked (pass : Pass asked size e f f') (h : f.Unmarked asked) :
    f'.Unmarked asked := by
  cases pass with
  | unasked out => exact h
  | asked ha hstart step => exact step.unmarked h

end RecoveredIndex

namespace Replay

variable {r r' : Replay} {e : LogEntry} {fate : EntryFate}

/-- The index so far, and what is missing of it. -/
def indexed (r : Replay) : RecoveredIndex := ⟨r.index, r.missingIndex⟩

/-- A replay of the same request with the same index. -/
structure SameIndex (r r' : Replay) : Prop where
  request : r'.request = r.request
  indexed : r'.indexed = r.indexed

/-- Restored data is not indexed. -/
theorem SameIndex.lasting (r : Replay) : Lasting (SameIndex r) :=
  ⟨fun _ _ _ h => ⟨h.request, h.indexed⟩, fun _ _ h => ⟨h.request, h.indexed⟩,
    fun _ _ h => ⟨h.request, h.indexed⟩, fun _ _ _ h => ⟨h.request, h.indexed⟩⟩

theorem applyIndex_step (h : r.applyIndex e = .ok r') :
    r'.request = r.request ∧
      ∃ start, Instant.windowStart e.point.time r.indexBlockSize = .ok start ∧
        RecoveredIndex.Step r.indexRanges r.indexBlockSize e start r.indexed r'.indexed := by
  obtain ⟨start, hstart, h⟩ := bind_eq_ok.mp h
  dsimp only at h
  have same : (r.index.touch start).holds start e.id = r.index.holds start e.id := by
    rw [Index.holds_eq, Index.document?_touch, Index.holds_eq]
  rw [same] at h
  split at h
  · rename_i held
    cases h
    rw [Index.touch_of_holds held]
    exact ⟨rfl, start, hstart, .known held⟩
  · rename_i fresh
    have fresh : r.indexed.index.holds start e.id = false := Bool.eq_false_iff.mpr fresh
    split at h
    · rename_i valid
      cases h
      rw [Index.insert_touch]
      exact ⟨rfl, start, hstart, .entered fresh valid⟩
    · rename_i x invalid
      obtain ⟨block, hblock, h⟩ := bind_eq_ok.mp h
      cases h
      have told : ∃ block, Interval.ofStart start r.indexBlockSize = .ok block := ⟨block, hblock⟩
      cases Interval.ofStart_ok hblock
      refine ⟨rfl, start, hstart, .refused fresh (fun valid => ?_) told⟩
      rw [valid] at invalid
      cases invalid

/-- The data part of an entry leaves the index alone. -/
theorem applyData_sameIndex (h : r.applyData e = .ok (r', fate)) : SameIndex r r' := by
  obtain ⟨start, _, h⟩ := bind_eq_ok.mp h
  dsimp only at h
  split at h
  · cases h
    exact ⟨rfl, rfl⟩
  · cases h
    exact ⟨rfl, rfl⟩

theorem apply_indexed (h : r.apply e = .ok (r', fate)) :
    r'.request = r.request ∧
      RecoveredIndex.Pass r.indexRanges r.indexBlockSize e r.indexed r'.indexed := by
  obtain ⟨m, _, index, data⟩ := apply_parts h
  have same : SameIndex m r' := by
    split at data
    · exact applyData_sameIndex data
    · cases data
      exact ⟨rfl, rfl⟩
  rw [same.request, same.indexed]
  split at index
  · rename_i asked
    obtain ⟨request, start, hstart, step⟩ := applyIndex_step index
    exact ⟨request, .asked asked hstart step⟩
  · rename_i unasked
    cases index
    exact ⟨rfl, .unasked unasked⟩

/-- One entry among others, in the terms of the replay that they all started from. -/
theorem indexed_of_applied {s s' : Replay} (request : s.request = r.request)
    (h : (s.apply e).map (·.1) = .ok s') : s'.request = r.request ∧
      RecoveredIndex.Pass r.indexRanges r.indexBlockSize e s.indexed s'.indexed := by
  obtain ⟨⟨m, fate⟩, applied, rfl⟩ := map_eq_ok.mp h
  obtain ⟨request', pass⟩ := apply_indexed applied
  have ranges : s.indexRanges = r.indexRanges := congrArg Request.indexRanges request
  have size : s.indexBlockSize = r.indexBlockSize := congrArg (·.policy.indexBlockSize) request
  rw [ranges, size] at pass
  exact ⟨request'.trans request, pass⟩

theorem applyAll_unmarked {l : List LogEntry} (unmarked : r.indexed.Unmarked r.indexRanges)
    (h : r.applyAll l = .ok r') :
    r'.request = r.request ∧ r'.indexed.Unmarked r.indexRanges := by
  refine foldlM_keeps (P := fun s => s.request = r.request ∧ s.indexed.Unmarked r.indexRanges)
    (fun e _ s s' hs applied => ?_) ⟨rfl, unmarked⟩ h
  obtain ⟨request, pass⟩ := indexed_of_applied hs.1 applied
  exact ⟨request, pass.unmarked hs.2⟩

/-- The windows of one shard, each marked in its block. -/
theorem shardMarks_ok {size : Duration} {shard : Shard} {done : TimeSet} {i : Index}
    (h : shardMarks size shard done = .ok i) :
    (i.Canonical ∧ ∀ start id, i.document? start id = none) ∧
      ∀ start p, p ∈ i.marks start ↔ ∃ v ∈ (done.slices size).entries,
        v.window.start = start ∧ p.1 = shard ∧ p.2 ∈ v.part := by
  obtain ⟨_, _, rfl⟩ := map_eq_ok.mp h
  rw [← List.foldl_reverse]
  obtain ⟨keep, marks⟩ := foldl_adds
    (f := fun (i : Index) (v : TimeSet.Slice) =>
      i.mark v.window.start (Coverage.empty.set shard (.ofInterval v.part)))
    (fun i => i.Canonical ∧ ∀ start id, i.document? start id = none)
    (fun (i : Index) (x : Instant × Shard × Instant) => x.2 ∈ i.marks x.1)
    (fun v x => v.window.start = x.1 ∧ x.2.1 = shard ∧ x.2.2 ∈ v.part)
    (l := (done.slices size).entries.reverse) (fun v _ i hi => by
      refine ⟨⟨hi.1.mark _ _, fun start id => by rw [Index.document?_mark, hi.2]⟩, fun x => ?_⟩
      rw [Index.mem_marks_mark hi.1, Coverage.mem_set_empty, TimeSet.mem_ofInterval,
        eq_comm (a := x.1)])
    (s := .empty) ⟨.empty, fun _ _ => rfl⟩
  refine ⟨keep, fun start p => ?_⟩
  apply (marks (start, p)).trans
  simp

/-- What is done is marked, each instant in the block of its window; no document is lost. -/
theorem finishIndex_ok {missAll : Bool} {f : RecoveredIndex}
    (unmarked : r.indexed.Unmarked r.indexRanges)
    (h : r.finishIndex missAll = .ok f) :
    f.missing = (if missAll then r.missingIndex.union r.indexRanges else r.missingIndex) ∧
      f.index.Canonical ∧
      (∀ start id, f.index.document? start id = r.index.document? start id) ∧
      ∀ start p, p ∈ f.index.marks start ↔ ∃ e ∈ (r.indexRanges.fulfilled f.missing).entries,
        ∃ v ∈ (e.2.slices r.indexBlockSize).entries,
          v.window.start = start ∧ p.1 = e.1 ∧ p.2 ∈ v.part := by
  obtain ⟨index, hindex, h⟩ := bind_eq_ok.mp h
  cases h
  have start : r.index.Canonical := fun start => by
    rw [show r.index.marks start = .empty from unmarked.marks start]
    exact .empty
  obtain ⟨keep, marks⟩ := foldlM_adds
    (fun i : Index => i.Canonical ∧ ∀ start id, i.document? start id = r.index.document? start id)
    (fun (i : Index) (x : Instant × Shard × Instant) => x.2 ∈ i.marks x.1)
    (fun e x => ∃ v ∈ (e.2.slices r.indexBlockSize).entries,
      v.window.start = x.1 ∧ x.2.1 = e.1 ∧ x.2.2 ∈ v.part)
    (fun e _ i i' hi step => by
      obtain ⟨j, hj, rfl⟩ := map_eq_ok.mp step
      obtain ⟨⟨canonical, bare⟩, marks⟩ := shardMarks_ok hj
      refine ⟨⟨hi.1.merge canonical, fun start id => ?_⟩, fun x => ?_⟩
      · rw [Index.document?_merge, bare, Option.or_none, hi.2]
      · rw [Index.mem_marks_merge hi.1, marks])
    ⟨start, fun _ _ => rfl⟩ hindex
  refine ⟨rfl, keep.1, keep.2, fun start p => ?_⟩
  apply (marks (start, p)).trans
  have none : p ∉ r.index.marks start := by
    rw [show r.index.marks start = .empty from unmarked.marks start]
    exact Coverage.not_mem_empty p
  simp [none]

theorem finishIndex_partitions {missAll : Bool} {f : RecoveredIndex}
    (unmarked : r.indexed.Unmarked r.indexRanges) (hs : 0 < r.indexBlockSize)
    (hw : FitsWord r.indexBlockSize) (fits : r.indexRanges.FitsWords)
    (h : r.finishIndex missAll = .ok f) : f.Partitions r.indexRanges r.indexBlockSize := by
  obtain ⟨missing, canonical, _, marks⟩ := finishIndex_ok unmarked h
  refine .of_marks hs hw fits canonical (fun p hp => ?_) fun start p => ?_
  · rw [missing] at hp
    split at hp
    · rcases (Coverage.mem_union unmarked.canonical).mp hp with hp | hp
      · exact unmarked.asked p hp
      · exact hp
    · exact unmarked.asked p hp
  · obtain ⟨shard, t⟩ := p
    have done := fits.diff f.missing
    rw [marks, ← Coverage.mem_fulfilled]
    constructor
    · intro hm
      obtain ⟨e, he, v, hv, rfl, rfl, ht⟩ := hm
      have here := Coverage.get_of_mem_entries he
      have fitsHere : e.2.FitsWords := here ▸ done e.1
      obtain ⟨q, _, within⟩ := TimeSet.exists_within hs hw fitsHere hv
      refine ⟨?_, ?_⟩
      · rw [Coverage.mem_def, here]
        exact (TimeSet.mem_iff_slice hs hw fitsHere).mpr ⟨v, hv, ht⟩
      · rw [within.window_eq ht]
        rfl
    · intro hm
      obtain ⟨ht, rfl⟩ := hm
      obtain ⟨e, he, rfl⟩ := Coverage.exists_entry ht
      have here := Coverage.get_of_mem_entries he
      have fitsHere : e.2.FitsWords := here ▸ done e.1
      rw [Coverage.mem_def, here] at ht
      obtain ⟨v, hv, htv⟩ := (TimeSet.mem_iff_slice hs hw fitsHere).mp ht
      obtain ⟨q, _, within⟩ := TimeSet.exists_within hs hw fitsHere hv
      refine ⟨e, he, v, hv, ?_, rfl, htv⟩
      rw [within.window_eq htv]
      rfl

end Replay

namespace CommitLog

open Replay (SameIndex)

variable {files : Files} {r : Request} {replay replay' : Replay}

/-- What the index of a replay is made from in the end. -/
theorem Replayed.finishIndex {entries : List LogEntry} {missAll : Bool} {f : Recovery}
    (h : Replayed files entries missAll r f) : ∃ done : Replay, done.request = r ∧
      done.indexed.Unmarked done.indexRanges ∧ done.finishIndex missAll = .ok f.index := by
  obtain ⟨seeded, done, data, index, hseeded, hdone, finished, rfl⟩ := h
  have same := (SameIndex.lasting _).restoreAll hseeded ⟨rfl, rfl⟩
  have unmarked : seeded.indexed.Unmarked seeded.indexRanges := by
    rw [same.indexed]
    exact RecoveredIndex.unmarked_empty _
  obtain ⟨request, unmarked⟩ := Replay.applyAll_unmarked unmarked hdone
  obtain ⟨_, hindex⟩ := Replay.finish_eq_ok.mp finished
  refine ⟨done, request.trans same.request, ?_, hindex⟩
  rwa [Replay.indexRanges, ← request] at unmarked

theorem Replayed.partitions {entries : List LogEntry} {missAll : Bool} {f : Recovery}
    (indexed : r.policy.indexed = true) (hw : FitsWord r.policy.indexBlockSize)
    (fits : r.index.ranges.FitsWords) (h : Replayed files entries missAll r f) :
    f.index.Partitions r.index.ranges r.policy.indexBlockSize := by
  obtain ⟨done, terms, unmarked, finished⟩ := h.finishIndex
  have ranges : done.indexRanges = r.index.ranges := by
    simp [Replay.indexRanges, terms, Request.indexRanges, indexed]
  have size : done.indexBlockSize = r.policy.indexBlockSize := by
    rw [Replay.indexBlockSize, terms]
  have parts := Replay.finishIndex_partitions unmarked
    (size ▸ r.policy.indexBlockSize_pos indexed) (size ▸ hw) (ranges ▸ fits) finished
  rw [ranges, size] at parts
  exact parts

theorem read_partitions {o : Options} {requests : List Request} {found : Recoveries}
    (distinct : (requests.map (·.id)).Nodup) (h : (read o requests).outcome = .ok found)
    (hr : r ∈ requests) (indexed : r.policy.indexed = true)
    (hw : FitsWord r.policy.indexBlockSize) (fits : r.index.ranges.FitsWords) :
    ∃ f, found.get? r.id = some f ∧
      f.index.Partitions r.index.ranges r.policy.indexBlockSize := by
  have idle (hi : isIdle r = true) :
      r.recovery.index.Partitions r.index.ranges r.policy.indexBlockSize := by
    have none : r.index.ranges = .empty := by
      unfold isIdle at hi
      have empty := (Bool.and_eq_true_iff.mp hi).2
      rw [Request.indexRanges, if_pos indexed] at empty
      exact Coverage.eq_empty_of_isEmpty empty
    rw [none]
    exact .unread
  cases opens : o.files.entries with
  | ok items =>
    obtain ⟨f, hf, still, live⟩ := read_replayed distinct opens h hr
    refine ⟨f, hf, ?_⟩
    cases hi : isIdle r with
    | true =>
      rw [still hi]
      exact idle hi
    | false => exact (live hi).partitions indexed hw fits
  | error e =>
    refine ⟨_, read_unopened distinct opens h hr, ?_⟩
    split
    · rename_i hi
      exact idle hi
    · have ranges : r.indexRanges = r.index.ranges := by simp [Request.indexRanges, indexed]
      rw [unread, ranges]
      exact .unread

end CommitLog

end Backfill
