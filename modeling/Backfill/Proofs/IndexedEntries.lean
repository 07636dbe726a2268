import Backfill.Proofs.Overflow
import Backfill.Proofs.ReplayIndex

/-!
What can be told of an index that entries of the log went into: which blocks there are, which series
are in them, and what is missing. Each entry adds to it, and once every series has tags of its own,
two indexes of which the same can be told are the same.
-/

namespace Backfill

/-- Something that can be told of an index. -/
inductive IndexFact where
  | block (start : Instant)
  | series (start : Instant) (id : SeriesId)
  | missing (shard : Shard) (t : Instant)

/-- What an entry tells, if it is asked for. -/
def LogEntry.Tells (e : LogEntry) (asked : Coverage) (size : Duration) : IndexFact → Prop
  | .block start => Instant.windowStart e.point.time size = .ok start
  | .series start id => Instant.windowStart e.point.time size = .ok start ∧ id = e.id ∧
      Document.validate e.id e.tags = .ok ()
  | .missing shard t => shard = e.shard ∧ Document.validate e.id e.tags ≠ .ok () ∧
      ∃ start, Instant.windowStart e.point.time size = .ok start ∧
        t ∈ (asked.get e.shard).clip ⟨start, start + size⟩

/-- If the entry cannot be indexed, the clock tells where its index block ends. -/
def LogEntry.OnClock (e : LogEntry) (size : Duration) : Prop :=
  Document.validate e.id e.tags ≠ .ok () → ∀ start,
    Instant.windowStart e.point.time size = .ok start →
      ∃ block, Interval.ofStart start size = .ok block

namespace RecoveredIndex

def Shows (f : RecoveredIndex) : IndexFact → Prop
  | .block start => f.index.blocks.contains start = true
  | .series start id => f.index.holds start id = true
  | .missing shard t => (shard, t) ∈ f.missing

/-- Every document is a valid one, with the tags of its series. -/
def Tagged (f : RecoveredIndex) (tags : SeriesId → Tags) : Prop :=
  ∀ start id found, f.index.document? start id = some found →
    found = tags id ∧ Document.validate id found = .ok ()

variable {f f' : RecoveredIndex} {asked : Coverage} {size : Duration} {e : LogEntry}
  {start : Instant} {tags : SeriesId → Tags}

theorem tagged_empty (tags : SeriesId → Tags) : empty.Tagged tags := fun _ _ _ => nofun

/-- Where the same can be told, there is nothing else that could differ. -/
theorem Unmarked.ext (hf : f.Unmarked asked) (hf' : f'.Unmarked asked) (tagged : f.Tagged tags)
    (tagged' : f'.Tagged tags) (same : ∀ x, f.Shows x ↔ f'.Shows x) : f = f' := by
  have documents (start : Instant) (id : SeriesId) :
      f.index.document? start id = f'.index.document? start id := by
    have held : f.index.holds start id = true ↔ f'.index.holds start id = true :=
      same (.series start id)
    rw [Index.holds_eq, Index.holds_eq] at held
    cases h : f.index.document? start id with
    | none => cases h' : f'.index.document? start id <;> simp_all
    | some a =>
      cases h' : f'.index.document? start id with
      | none => simp [h, h'] at held
      | some b => rw [(tagged _ _ _ h).1, (tagged' _ _ _ h').1]
  have index : f.index = f'.index := Index.ext_views (fun start => same (.block start))
    (fun start => (hf.marks start).trans (hf'.marks start).symm) documents
  have missing : f.missing = f'.missing :=
    hf.canonical.ext hf'.canonical fun p => same (.missing p.1 p.2)
  have mk := congr (congrArg RecoveredIndex.mk index) missing
  exact mk

/-- A series that is held could be indexed. -/
theorem Tagged.valid (tagged : f.Tagged tags) (own : e.tags = tags e.id)
    (held : f.index.holds start e.id = true) : Document.validate e.id e.tags = .ok () := by
  rw [Index.holds_eq] at held
  obtain ⟨found, hfound⟩ := Option.isSome_iff_exists.mp held
  obtain ⟨rfl, valid⟩ := tagged start e.id found hfound
  rw [own]
  exact valid

theorem Step.shows (step : Step asked size e start f f') (canonical : f.missing.Canonical)
    (hstart : Instant.windowStart e.point.time size = .ok start) (tagged : f.Tagged tags)
    (own : e.tags = tags e.id) :
    f'.Tagged tags ∧ ∀ x, f'.Shows x ↔ f.Shows x ∨ e.Tells asked size x := by
  have only (other : Instant) :
      Instant.windowStart e.point.time size = .ok other ↔ other = start := by
    rw [hstart, Except.ok.injEq, eq_comm]
  cases step with
  | known held =>
    -- the entry has nothing to tell that is not told already
    refine ⟨tagged, fun x => ⟨.inl, fun h => ?_⟩⟩
    rcases h with h | h
    · exact h
    · have valid := tagged.valid own held
      cases x with
      | block other =>
        cases (only other).mp h
        exact Index.contains_of_holds held
      | series other id =>
        obtain ⟨h, rfl, _⟩ := h
        cases (only other).mp h
        exact held
      | missing shard t => exact absurd valid h.2.1
  | entered fresh valid =>
    refine ⟨fun other id found h => ?_, fun x => ?_⟩
    · have none : f.index.document? start e.id = none := by
        rw [Index.holds_eq] at fresh
        simpa using fresh
      rw [Index.document?_insert, none] at h
      split at h
      · rename_i here
        cases h
        obtain ⟨_, rfl⟩ := here
        exact ⟨own, valid⟩
      · exact tagged other id found h
    · cases x with
      | block other =>
        apply (Index.contains_insert ..).trans
        exact or_congr Iff.rfl (only other).symm
      | series other id =>
        change Index.holds _ _ _ = true ↔ f.index.holds other id = true ∨ _ ∧ _
        rw [Index.holds_eq, Index.holds_eq, Index.document?_insert, only]
        split
        · rename_i here
          simp [here, valid]
        · rename_i elsewhere
          simp only [valid, and_true, elsewhere, or_false]
      | missing shard t =>
        refine ⟨.inl, fun h => ?_⟩
        rcases h with h | h
        · exact h
        · exact absurd valid h.2.1
  | refused fresh invalid _ =>
    refine ⟨fun other id found h => ?_, fun x => ?_⟩
    · rw [Index.document?_touch] at h
      exact tagged other id found h
    · cases x with
      | block other =>
        apply (Index.contains_touch ..).trans
        exact or_congr Iff.rfl (only other).symm
      | series other id =>
        change Index.holds _ _ _ = true ↔ f.index.holds other id = true ∨ _ ∧ _
        rw [Index.holds_eq, Index.document?_touch, ← Index.holds_eq]
        simp [invalid]
      | missing shard t =>
        apply (Coverage.mem_addSet canonical).trans
        refine or_congr Iff.rfl ?_
        constructor
        · intro h
          exact ⟨h.1, invalid, start, hstart, h.2⟩
        · intro h
          obtain ⟨rfl, _, other, hother, ht⟩ := h
          cases (only other).mp hother
          exact ⟨rfl, ht⟩

theorem Pass.shows (pass : Pass asked size e f f') (canonical : f.missing.Canonical)
    (tagged : f.Tagged tags) (own : e.tags = tags e.id) :
    f'.Tagged tags ∧ ∀ x, f'.Shows x ↔
      f.Shows x ∨ e.point.time ∈ asked.get e.shard ∧ e.Tells asked size x := by
  cases pass with
  | unasked out => exact ⟨tagged, fun x => by simp [out]⟩
  | asked ha hstart step =>
    simp only [ha, true_and]
    exact step.shows canonical hstart tagged own

theorem Pass.onClock (pass : Pass asked size e f f') (tagged : f.Tagged tags)
    (own : e.tags = tags e.id) (ha : e.point.time ∈ asked.get e.shard) : e.OnClock size := by
  intro invalid start hstart
  cases pass with
  | unasked out => exact absurd ha out
  | asked _ hstart' step =>
    rw [hstart] at hstart'
    cases hstart'
    cases step with
    | known held => exact absurd (tagged.valid own held) invalid
    | entered fresh valid => exact absurd valid invalid
    | refused fresh _ told => exact told

end RecoveredIndex

namespace Replay

variable {r r' : Replay} {e : LogEntry} {tags : SeriesId → Tags}

/-- Whether the clock runs out depends on the entry alone. -/
theorem apply_total
    (onClock : e.point.time ∈ r.indexRanges.get e.shard → e.OnClock r.indexBlockSize) :
    ∃ x, r.apply e = .ok x := by
  have data (m : Replay) (fate : EntryFate) : ∃ x,
      (if e.point.time ∈ m.dataRanges.get e.shard then m.applyData e else .ok (m, fate)) =
        .ok x := by
    split
    · obtain ⟨start, hstart⟩ :=
        Instant.windowStart_total e.point.time m.request.policy.blockSize_pos
      have hstart : Instant.windowStart e.point.time m.blockSize = .ok start := hstart
      rw [applyData, hstart]
      dsimp only [bind, Except.bind]
      split
      · exact ⟨_, rfl⟩
      · exact ⟨_, rfl⟩
    · exact ⟨_, rfl⟩
  have index (asked : e.point.time ∈ r.indexRanges.get e.shard) : ∃ m, r.applyIndex e = .ok m := by
    obtain ⟨start, hstart⟩ :=
      Instant.windowStart_total e.point.time (indexBlockSize_pos_of_asked asked)
    rw [applyIndex, hstart]
    dsimp only [bind, Except.bind]
    split
    · exact ⟨_, rfl⟩
    · split
      · exact ⟨_, rfl⟩
      · rename_i x invalid
        obtain ⟨block, hblock⟩ := onClock asked (by simp [invalid]) start hstart
        rw [hblock]
        exact ⟨_, rfl⟩
  unfold apply
  dsimp only
  split
  · rename_i asked
    obtain ⟨m, hm⟩ := index (of_decide_eq_true asked)
    rw [hm]
    exact data m _
  · exact data r _

theorem applyAll_total {l : List LogEntry}
    (onClock : ∀ e ∈ l, e.point.time ∈ r.indexRanges.get e.shard → e.OnClock r.indexBlockSize) :
    ∃ r', r.applyAll l = .ok r' := by
  refine foldlM_total (P := fun s => s.request = r.request) (fun e he s request => ?_) rfl
  have ranges : s.indexRanges = r.indexRanges := congrArg Request.indexRanges request
  have size : s.indexBlockSize = r.indexBlockSize := congrArg (·.policy.indexBlockSize) request
  obtain ⟨⟨s', fate⟩, applied⟩ := s.apply_total (e := e) (by rw [ranges, size]; exact onClock e he)
  refine ⟨s', by rw [applied]; rfl, ?_⟩
  exact (apply_indexed applied).1.trans request

/-- A replay of the same request, with nothing in its index but documents with these tags. -/
structure Tagging (r : Replay) (tags : SeriesId → Tags) (s : Replay) : Prop where
  request : s.request = r.request
  unmarked : s.indexed.Unmarked r.indexRanges
  tagged : s.indexed.Tagged tags

theorem Tagging.applied {s s' : Replay} (h : Tagging r tags s) (own : e.tags = tags e.id)
    (applied : (s.apply e).map (·.1) = .ok s') : Tagging r tags s' ∧
      (∀ x, s'.indexed.Shows x ↔ s.indexed.Shows x ∨ e.point.time ∈ r.indexRanges.get e.shard ∧
        e.Tells r.indexRanges r.indexBlockSize x) ∧
      (e.point.time ∈ r.indexRanges.get e.shard → e.OnClock r.indexBlockSize) := by
  obtain ⟨request, pass⟩ := indexed_of_applied h.request applied
  obtain ⟨tagged, shows⟩ := pass.shows h.unmarked.canonical h.tagged own
  exact ⟨⟨request, pass.unmarked h.unmarked, tagged⟩, shows, pass.onClock h.tagged own⟩

/-- What is told in the end is what was told before and what the entries tell. -/
theorem Tagging.applyAll {l : List LogEntry} (h : Tagging r tags r)
    (own : ∀ e ∈ l, e.tags = tags e.id) (applied : r.applyAll l = .ok r') :
    Tagging r tags r' ∧ ∀ x, r'.indexed.Shows x ↔ r.indexed.Shows x ∨
      ∃ e ∈ l, e.point.time ∈ r.indexRanges.get e.shard ∧
        e.Tells r.indexRanges r.indexBlockSize x :=
  foldlM_adds (Tagging r tags) (fun s x => s.indexed.Shows x)
    (fun e x => e.point.time ∈ r.indexRanges.get e.shard ∧
      e.Tells r.indexRanges r.indexBlockSize x)
    (fun e he _ _ hs step =>
      have after := hs.applied (own e he) step
      ⟨after.1, after.2.1⟩) h applied

/-- Where the whole log could be replayed, the clock can tell it all. -/
theorem Tagging.onClock {l : List LogEntry} (h : Tagging r tags r)
    (own : ∀ e ∈ l, e.tags = tags e.id) (applied : r.applyAll l = .ok r') (he : e ∈ l)
    (asked : e.point.time ∈ r.indexRanges.get e.shard) : e.OnClock r.indexBlockSize :=
  foldlM_reaches (P := Tagging r tags) (Q := fun _ => e.OnClock r.indexBlockSize) he
    (fun b hb _ _ hs step => (hs.applied (own b hb) step).1)
    (fun _ _ hs step => (hs.applied (own e he) step).2.2 asked)
    (fun _ _ _ _ _ told _ => told) h applied

end Replay

end Backfill
