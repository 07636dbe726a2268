import Backfill.Peers.Source
import Backfill.Proofs.DataRead
import Backfill.Proofs.IndexMarks

/-!
What a read of the index from peers marks, and what it leaves missing: an instant is missing when
the metadata of its window was not to be had, or when an entry that cannot be indexed has its data
block there.
-/

namespace Backfill.Peers

/-- As far as the metadata of one namespace goes, the answer to a fetch is always the same, never
that it broke off, and tells of times that fit into words. -/
structure Session.SteadyMetadata (session : Session) (id : NamespaceId) : Prop where
  same : ∀ nth f, f.namespaceId = id → session.metadata nth f = session.metadata 0 f
  calm : ∀ f, f.namespaceId = id → session.metadata 0 f ≠ .crash
  fits : ∀ f l, f.namespaceId = id → session.metadata 0 f = .ok l → ∀ m ∈ l, FitsWord m.start

/-- The entry cannot be indexed, and `t` is in its data block. -/
def BlockMetadata.Spoils (m : BlockMetadata) (p : Policy) (t : Instant) : Prop :=
  Document.validate m.id m.tags ≠ .ok () ∧ t ∈ Interval.around m.start p.blockSize

/-- Why `t` is not indexed although it was asked for. -/
def Session.Unindexed (session : Session) (p : Policy) (f : Fetch) (t : Instant) : Prop :=
  (∃ e, session.metadata 0 f = .error e) ∨
    ∃ l, session.metadata 0 f = .ok l ∧ ∃ m ∈ l, m.Spoils p t

/-- What the windows of an index need to be cut. They start at instants, away from leap seconds. -/
structure IndexFits (p : Policy) : Prop where
  indexed : p.indexed = true
  size : FitsWord p.blockSize
  indexSize : FitsWord p.indexBlockSize

variable {p : Policy}

theorem IndexFits.indexSize_pos (h : IndexFits p) : 0 < p.indexBlockSize :=
  p.indexBlockSize_pos h.indexed

namespace IndexWindow

theorem ofStart_floor {t : Instant} {size : Duration} (hs : 0 < size) (hw : FitsWord size)
    (ht : FitsWord t) : Interval.ofStart (t.floor size) size = .ok (Interval.around t size) :=
  Interval.ofStart_eq (Instant.reaches_floor hs hw ht)

theorem addEntry_ok (fits : IndexFits p) {w : IndexWindow} (canonical : w.lost.Canonical)
    {m : BlockMetadata} (hm : FitsWord m.start) :
    ∃ w', addEntry p w m = .ok w' ∧ (w'.start = w.start ∧ w'.part = w.part) ∧
      w'.lost.Canonical ∧ ∀ t, t ∈ w'.lost ↔ t ∈ w.lost ∨ t ∈ w.part ∧ m.Spoils p t := by
  unfold addEntry
  cases valid : Document.validate m.id m.tags with
  | ok u =>
    dsimp only
    rw [Instant.windowStart_eq fits.indexSize_pos fits.indexSize hm]
    exact ⟨_, rfl, ⟨rfl, rfl⟩, canonical, fun t => by simp [BlockMetadata.Spoils, valid]⟩
  | error e =>
    dsimp only
    rw [Instant.windowStart_eq p.blockSize_pos fits.size hm]
    simp only [bind, Except.bind]
    rw [ofStart_floor p.blockSize_pos fits.size hm]
    refine ⟨_, rfl, ⟨rfl, rfl⟩, ?_, fun t => ?_⟩
    · dsimp only
      cases (Interval.around m.start p.blockSize).intersect w.part with
      | none => exact canonical
      | some common => exact canonical.add common
    · have common := Interval.mem_intersect (a := Interval.around m.start p.blockSize)
        (b := w.part) (t := t)
      dsimp only
      simp only [BlockMetadata.Spoils, valid, ne_eq, reduceCtorEq, not_false_eq_true, true_and]
      rw [and_comm (a := t ∈ w.part), ← common]
      cases (Interval.around m.start p.blockSize).intersect w.part with
      | none => simp
      | some common => simp [TimeSet.mem_add canonical]

theorem ofEntries_ok (fits : IndexFits p) (v : TimeSet.Slice) {l : List BlockMetadata}
    (hl : ∀ m ∈ l, FitsWord m.start) :
    ∃ w, ofEntries p v l = .ok w ∧ (w.start = v.window.start ∧ w.part = v.part) ∧
      ∀ t, t ∈ w.lost ↔ t ∈ v.part ∧ ∃ m ∈ l, m.Spoils p t := by
  have fold (w : IndexWindow) (canonical : w.lost.Canonical) :
      ∃ w', l.foldlM (addEntry p) w = .ok w' ∧ (w'.start = w.start ∧ w'.part = w.part) ∧
        ∀ t, t ∈ w'.lost ↔ t ∈ w.lost ∨ t ∈ w.part ∧ ∃ m ∈ l, m.Spoils p t := by
    induction l generalizing w with
    | nil => exact ⟨w, rfl, ⟨rfl, rfl⟩, fun t => by simp⟩
    | cons m l ih =>
      obtain ⟨next, added, place, canonical', lost⟩ :=
        addEntry_ok fits canonical (hl m List.mem_cons_self)
      obtain ⟨last, rest, place', lost'⟩ :=
        ih (fun n hn => hl n (List.mem_cons_of_mem _ hn)) next canonical'
      refine ⟨last, ?_, ⟨place'.1.trans place.1, place'.2.trans place.2⟩, fun t => ?_⟩
      · rw [List.foldlM_cons, added]
        exact rest
      · rw [lost', lost, place.2]
        simp only [List.mem_cons, exists_eq_or_imp, or_assoc, and_or_left]
  obtain ⟨w, ok, place, lost⟩ := fold ⟨v.window.start, v.part, [], .empty⟩ .empty
  refine ⟨w, ok, place, fun t => ?_⟩
  rw [lost]
  simp

theorem mem_indexed (w : IndexWindow) (t : Instant) : t ∈ w.indexed ↔ t ∈ w.part ∧ t ∉ w.lost := by
  simp [indexed]

end IndexWindow

namespace IndexAction

/-- The action of a shard's worker leaves `q` missing. -/
def Loses (a : Shard × IndexAction) (q : Shard × Instant) : Prop :=
  q.1 = a.1 ∧
    match a.2 with
    | .event _ => False
    | .miss part => q.2 ∈ part
    | .absorb w => q.2 ∈ w.lost

/-- The action of a shard's worker marks `q` in the block at `start`. -/
def Marks (a : Shard × IndexAction) (start : Instant) (q : Shard × Instant) : Prop :=
  q.1 = a.1 ∧
    match a.2 with
    | .absorb w => w.start = start ∧ q.2 ∈ w.indexed
    | _ => False

end IndexAction

theorem IndexWindow.foldl_insert_marks (l : List (Instant × SeriesId × Tags)) (i : Index)
    (start : Instant) :
    (l.foldl (fun i d => i.insert d.1 d.2.1 d.2.2) i).marks start = i.marks start := by
  induction l generalizing i with
  | nil => rfl
  | cons d l ih => rw [List.foldl_cons, ih, Index.marks_insert]

/-- All sets of a result are canonical. -/
structure IndexState.Sound (s : IndexState) : Prop where
  index : s.index.index.Canonical
  missing : s.index.missing.Canonical

namespace IndexState

theorem sound_empty : Sound ⟨.empty, []⟩ := ⟨.empty, .empty⟩

theorem absorb_step {s : IndexState} (h : s.Sound) (shard : Shard) (w : IndexWindow) :
    (s.act (shard, .absorb w)).Sound ∧
      (∀ q, q ∈ (s.act (shard, .absorb w)).index.missing ↔
        q ∈ s.index.missing ∨ q.1 = shard ∧ q.2 ∈ w.lost) ∧
      ∀ start q, q ∈ (s.act (shard, .absorb w)).index.index.marks start ↔
        q ∈ s.index.index.marks start ∨ q.1 = shard ∧ w.start = start ∧ q.2 ∈ w.indexed := by
  have marks := IndexWindow.foldl_insert_marks w.documents s.index.index
  have entered :
      (w.documents.foldl (fun i d => i.insert d.1 d.2.1 d.2.2) s.index.index).Canonical := by
    intro start
    rw [marks]
    exact h.index start
  simp only [act, IndexWindow.absorb]
  cases none : w.indexed.isEmpty with
  | true =>
    have nothing (t : Instant) : t ∉ w.indexed := by
      rw [TimeSet.eq_empty_of_isEmpty none]
      exact TimeSet.not_mem_empty t
    refine ⟨⟨entered, h.missing.addSet _ _⟩, fun q => Coverage.mem_addSet h.missing, ?_⟩
    intro start q
    simp [marks, nothing]
  | false =>
    refine ⟨⟨entered.mark _ _, h.missing.addSet _ _⟩, fun q => Coverage.mem_addSet h.missing, ?_⟩
    intro start q
    simp only [Bool.false_eq_true, ↓reduceIte]
    rw [Index.mem_marks_mark entered, marks, Coverage.mem_addSet .empty]
    simp [eq_comm, and_left_comm]

theorem act_step {s : IndexState} (h : s.Sound) (a : Shard × IndexAction) :
    (s.act a).Sound ∧
      (∀ q, q ∈ (s.act a).index.missing ↔ q ∈ s.index.missing ∨ IndexAction.Loses a q) ∧
      ∀ start q, q ∈ (s.act a).index.index.marks start ↔
        q ∈ s.index.index.marks start ∨ IndexAction.Marks a start q := by
  obtain ⟨shard, action⟩ := a
  cases action with
  | event e =>
    exact ⟨⟨h.index, h.missing⟩, fun q => by simp [act, IndexAction.Loses],
      fun start q => by simp [act, IndexAction.Marks]⟩
  | miss part =>
    refine ⟨⟨h.index, h.missing.add shard part⟩, fun q => Coverage.mem_add h.missing, ?_⟩
    intro start q
    simp [act, RecoveredIndex.addMissing, IndexAction.Marks]
  | absorb w => exact absorb_step h shard w

/-- A whole run of actions. -/
theorem run_steps (l : List (Shard × IndexAction)) :
    (run l).Sound ∧ (∀ q, q ∈ (run l).index.missing ↔ ∃ a ∈ l, IndexAction.Loses a q) ∧
      ∀ start q, q ∈ (run l).index.index.marks start ↔ ∃ a ∈ l, IndexAction.Marks a start q := by
  obtain ⟨sound, missing⟩ := foldl_adds (l := l) Sound (fun s q => q ∈ s.index.missing)
    IndexAction.Loses (fun a _ s h => ⟨(act_step h a).1, (act_step h a).2.1⟩) sound_empty
  obtain ⟨_, marks⟩ := foldl_adds (l := l) Sound
    (fun s (x : Instant × Shard × Instant) => x.2 ∈ s.index.index.marks x.1)
    (fun a x => IndexAction.Marks a x.1 x.2)
    (fun a _ s h => ⟨(act_step h a).1, fun x => (act_step h a).2.2 x.1 x.2⟩) sound_empty
  refine ⟨sound, fun q => ?_, fun start q => ?_⟩
  · apply (missing q).trans
    simp [RecoveredIndex.empty]
  · apply (marks (start, q)).trans
    simp [RecoveredIndex.empty]

end IndexState

namespace IndexWork

/-- What the worker of a shard does about one window. -/
structure Handles (x : IndexWork) (session : Session) (p : Policy) (f : Fetch) (shard : Shard)
    (v : TimeSet.Slice) : Prop where
  outcome : x.outcome = .ok ()
  loses : ∀ t, (∃ a ∈ x.entries, IndexAction.Loses (shard, a) (shard, t)) ↔
    t ∈ v.part ∧ session.Unindexed p f t
  marks : ∀ start t, (∃ a ∈ x.entries, IndexAction.Marks (shard, a) start (shard, t)) ↔
    v.window.start = start ∧ t ∈ v.part ∧ ¬ session.Unindexed p f t

variable {session : Session} {id : NamespaceId} {fetch : Interval → Fetch}

theorem slice_handles (steady : session.SteadyMetadata id) (fits : IndexFits p)
    (own : ∀ w, (fetch w).namespaceId = id) (shard : Shard) (n : Nat) (v : TimeSet.Slice) :
    Handles (slice session p fetch (n, v)) session p (fetch v.window) shard v := by
  simp only [slice, steady.same n _ (own v.window)]
  cases h : session.metadata 0 (fetch v.window) with
  | crash => exact absurd h (steady.calm _ (own v.window))
  | error e =>
    have bad (t : Instant) : session.Unindexed p (fetch v.window) t := .inl ⟨e, h⟩
    refine ⟨rfl, fun t => ?_, fun start t => ?_⟩
    · change (∃ a ∈ [IndexAction.event _, .event _, .miss v.part], _) ↔ _
      simp [IndexAction.Loses, bad]
    · change (∃ a ∈ [IndexAction.event _, .event _, .miss v.part], _) ↔ _
      simp [IndexAction.Marks, bad]
  | ok l =>
    obtain ⟨w, ok, ⟨start_eq, part_eq⟩, lost⟩ := IndexWindow.ofEntries_ok fits v
      (steady.fits _ l (own v.window) h)
    have bad (t : Instant) :
        session.Unindexed p (fetch v.window) t ↔ ∃ m ∈ l, m.Spoils p t := by
      simp [Session.Unindexed, h]
    simp only [ok]
    refine ⟨rfl, fun t => ?_, fun start t => ?_⟩
    · change (∃ a ∈ [IndexAction.event _, .event _, .absorb w], _) ↔ _
      simp [IndexAction.Loses, bad, lost]
    · have clear : t ∈ w.indexed ↔ t ∈ v.part ∧ ¬ ∃ m ∈ l, m.Spoils p t := by
        rw [IndexWindow.mem_indexed, lost, part_eq, not_and]
        exact and_congr_right fun ht => ⟨fun h => h ht, fun h _ => h⟩
      change (∃ a ∈ [IndexAction.event _, .event _, .absorb w], _) ↔ _
      rw [bad, ← clear, ← start_eq]
      simp [IndexAction.Marks]

/-- The worker goes through the slices of what is asked for, in order. -/
theorem shard_eq (steady : session.SteadyMetadata id) (fits : IndexFits p)
    (own : ∀ w, (fetch w).namespaceId = id) {asked : TimeSet} (hf : asked.FitsWords) :
    shard session p fetch asked =
      ⟨(asked.slices p.indexBlockSize).entries.flatMap fun v =>
        (slice session p fetch (0, v)).entries, .ok ()⟩ := by
  have slices := TimeSet.slices_eq fits.indexSize_pos fits.indexSize hf
  have step (n : Nat) (v : TimeSet.Slice) : slice session p fetch (n, v) =
      ⟨(slice session p fetch (0, v)).entries, .ok ()⟩ := by
    have same : slice session p fetch (n, v) = slice session p fetch (0, v) := by
      simp only [slice, steady.same n _ (own v.window)]
    rw [same]
    exact Trail.eq_of_outcome_ok (slice_handles steady fits own 0 0 v).outcome
  rw [shard, TimeSet.foldSlices_eq, slices, Trail.foldOver_count_ok fun n v _ => step n v]
  simp [Trail.bind, Trail.pure]

end IndexWork

variable {t : Tuning} {c : Cluster} {nth : Nat} {r : Request} {session : Session}

theorem indexWork_eq (steady : session.SteadyMetadata r.id) (fits : IndexFits r.policy)
    (words : r.index.ranges.FitsWords) :
    indexWork t session r = r.index.ranges.entries.map fun e =>
      ⟨e.1, e.2, (e.2.slices r.policy.indexBlockSize).entries.flatMap fun v =>
        (IndexWork.slice session r.policy (indexFetch t r e.1) (0, v)).entries, .ok ()⟩ := by
  refine List.map_congr_left fun e he => ?_
  have asked : r.index.ranges.get e.1 = e.2 := Coverage.get_of_mem_entries he
  exact congrArg _ (IndexWork.shard_eq steady fits (fun _ => rfl) (asked ▸ words e.1))

theorem lost_indexWork (steady : session.SteadyMetadata r.id) (fits : IndexFits r.policy)
    (words : r.index.ranges.FitsWords) : ShardWork.lost (indexWork t session r) = .empty := by
  rw [indexWork_eq steady fits words]
  apply lost_eq_empty
  intro w hw
  obtain ⟨e, _, rfl⟩ := List.mem_map.mp hw
  rfl

theorem mem_indexActions (steady : session.SteadyMetadata r.id) (fits : IndexFits r.policy)
    (words : r.index.ranges.FitsWords) {a : Shard × IndexAction} :
    a ∈ (indexWork t session r).flatMap ShardWork.actions ↔
      ∃ e ∈ r.index.ranges.entries, ∃ v ∈ (e.2.slices r.policy.indexBlockSize).entries,
        ∃ b ∈ (IndexWork.slice session r.policy (indexFetch t r e.1) (0, v)).entries,
          (e.1, b) = a := by
  rw [indexWork_eq steady fits words, List.flatMap_map]
  simp only [ShardWork.actions, List.mem_flatMap, List.mem_map]
  constructor
  · intro h
    obtain ⟨e, he, b, ⟨v, hv, hb⟩, eq⟩ := h
    exact ⟨e, he, v, hv, b, hb, eq⟩
  · intro h
    obtain ⟨e, he, v, hv, b, hb, eq⟩ := h
    exact ⟨e, he, b, ⟨v, hv, hb⟩, eq⟩

/-- What the windows do together they do to each instant in the window around it. -/
theorem exists_action_iff (steady : session.SteadyMetadata r.id) (fits : IndexFits r.policy)
    (words : r.index.ranges.FitsWords) {does : Shard × IndexAction → Shard × Instant → Prop}
    (own : ∀ a q, does a q → q.1 = a.1) {P : Shard → Interval → Instant → Prop}
    (window : ∀ shard v x,
      (∃ b ∈ (IndexWork.slice session r.policy (indexFetch t r shard) (0, v)).entries,
        does (shard, b) (shard, x)) ↔ x ∈ v.part ∧ P shard v.window x)
    (q : Shard × Instant) :
    (∃ a ∈ (indexWork t session r).flatMap ShardWork.actions, does a q) ↔
      q ∈ r.index.ranges ∧ P q.1 (Interval.around q.2 r.policy.indexBlockSize) q.2 := by
  obtain ⟨shard, x⟩ := q
  have hs := fits.indexSize_pos
  constructor
  · intro h
    obtain ⟨a, ha, hd⟩ := h
    obtain ⟨e, he, v, hv, b, hb, rfl⟩ := (mem_indexActions steady fits words).mp ha
    have here : shard = e.1 := own _ _ hd
    subst here
    have asked : r.index.ranges.get e.1 = e.2 := Coverage.get_of_mem_entries he
    have fitsHere : e.2.FitsWords := asked ▸ words e.1
    obtain ⟨hx, hh⟩ := (window e.1 v x).mp ⟨b, hb, hd⟩
    obtain ⟨_, _, within⟩ := TimeSet.exists_within hs fits.indexSize fitsHere hv
    rw [within.window_eq hx] at hh
    refine ⟨?_, hh⟩
    rw [Coverage.mem_def, asked]
    exact (TimeSet.mem_iff_slice hs fits.indexSize fitsHere).mpr ⟨v, hv, hx⟩
  · intro h
    obtain ⟨hx, hh⟩ := h
    obtain ⟨e, he, here⟩ := Coverage.exists_entry hx
    dsimp only at here
    subst here
    have asked : r.index.ranges.get e.1 = e.2 := Coverage.get_of_mem_entries he
    have fitsHere : e.2.FitsWords := asked ▸ words e.1
    rw [Coverage.mem_def, asked] at hx
    obtain ⟨v, hv, hx⟩ := (TimeSet.mem_iff_slice hs fits.indexSize fitsHere).mp hx
    obtain ⟨_, _, within⟩ := TimeSet.exists_within hs fits.indexSize fitsHere hv
    rw [← within.window_eq hx] at hh
    obtain ⟨b, hb, hd⟩ := (window e.1 v x).mpr ⟨hx, hh⟩
    exact ⟨(e.1, b), (mem_indexActions steady fits words).mpr ⟨e, he, v, hv, b, hb, rfl⟩, hd⟩

theorem readIndex_ok {f : RecoveredIndex} (hne : r.index.ranges.isEmpty = false)
    (h : (readIndex t c nth r).outcome = .ok f) :
    ∃ session, c.openSession nth = .ok session ∧
      f = (IndexState.run ((indexWork t session r).flatMap ShardWork.actions)).index.addAllMissing
        (ShardWork.lost (indexWork t session r)) := by
  rw [readIndex, if_neg (by simp [hne])] at h
  obtain ⟨_, _, h⟩ := Trail.outcome_bind_eq_ok.mp h
  obtain ⟨session, hs, h⟩ := Trail.outcome_bind_eq_ok.mp h
  obtain ⟨_, _, h⟩ := Trail.outcome_bind_eq_ok.mp h
  cases h
  refine ⟨session, ?_, rfl⟩
  cases ho : c.openSession nth with
  | error e =>
    rw [ho] at hs
    cases hs
  | ok session' =>
    rw [ho] at hs
    cases hs
    rfl

/-- Every instant asked for is marked in the block of its window or missing, and missing just when
there is a reason. -/
theorem readIndex_marks {f : RecoveredIndex} (fits : IndexFits r.policy)
    (words : r.index.ranges.FitsWords) (hne : r.index.ranges.isEmpty = false)
    (steady : ∀ session, c.openSession nth = .ok session → session.SteadyMetadata r.id)
    (h : (readIndex t c nth r).outcome = .ok f) :
    ∃ session, c.openSession nth = .ok session ∧
      let bad (q : Shard × Instant) := session.Unindexed r.policy
        (indexFetch t r q.1 (Interval.around q.2 r.policy.indexBlockSize)) q.2
      f.index.Canonical ∧ (∀ q, q ∈ f.missing ↔ q ∈ r.index.ranges ∧ bad q) ∧
        ∀ start q, q ∈ f.index.marks start ↔ q ∈ r.index.ranges ∧
          q.2.floor r.policy.indexBlockSize = start ∧ ¬ bad q := by
  obtain ⟨session, opened, rfl⟩ := readIndex_ok hne h
  have steady := steady session opened
  have own (shard : Shard) (w : Interval) : (indexFetch t r shard w).namespaceId = r.id := rfl
  have handles (shard : Shard) (v : TimeSet.Slice) :=
    IndexWork.slice_handles steady fits (own shard) shard 0 v
  obtain ⟨sound, missing, marks⟩ :=
    IndexState.run_steps ((indexWork t session r).flatMap ShardWork.actions)
  refine ⟨session, opened, sound.index, fun q => ?_, fun start q => ?_⟩
  · rw [lost_indexWork steady fits words, RecoveredIndex.addAllMissing,
      Coverage.mem_union sound.missing, or_iff_left (Coverage.not_mem_empty q), missing]
    exact exists_action_iff steady fits words (fun _ _ h => h.1)
      (P := fun shard w x => session.Unindexed r.policy (indexFetch t r shard w) x)
      (fun shard v x => (handles shard v).loses x) q
  · apply (marks start q).trans
    exact exists_action_iff steady fits words (fun _ _ h => h.1)
      (P := fun shard w x => w.start = start ∧
        ¬ session.Unindexed r.policy (indexFetch t r shard w) x)
      (fun shard v x => ((handles shard v).marks start x).trans and_left_comm) q

theorem readIndex_partitions {f : RecoveredIndex} (fits : IndexFits r.policy)
    (words : r.index.ranges.FitsWords)
    (steady : ∀ session, c.openSession nth = .ok session → session.SteadyMetadata r.id)
    (h : (readIndex t c nth r).outcome = .ok f) :
    f.Partitions r.index.ranges r.policy.indexBlockSize := by
  cases hne : r.index.ranges.isEmpty with
  | true =>
    rw [readIndex, if_pos hne] at h
    cases h
    rw [Coverage.eq_empty_of_isEmpty hne]
    exact .unread
  | false =>
    obtain ⟨session, _, canonical, missing, marks⟩ := readIndex_marks fits words hne steady h
    refine .of_marks fits.indexSize_pos fits.indexSize words canonical ?_ fun start q => ?_
    · intro q hq
      exact ((missing q).mp hq).1
    · rw [marks, missing, not_and]
      constructor
      · intro hm
        obtain ⟨asked, place, good⟩ := hm
        exact ⟨⟨asked, fun _ => good⟩, place⟩
      · intro hm
        obtain ⟨⟨asked, good⟩, place⟩ := hm
        exact ⟨asked, place, good asked⟩

theorem readDataOf_ok {p p' : Progress} (h : (readDataOf t c p r).outcome = .ok p') :
    ∃ nth data, (readData t c nth r).outcome = .ok data ∧
      p'.2 = p.2.insert r.id { r.recovery with data } := by
  obtain ⟨data, read, h⟩ := Trail.outcome_bind_eq_ok.mp h
  cases h
  exact ⟨p.1, data, read, rfl⟩

theorem readIndexOf_ok {p p' : Progress} (h : (readIndexOf t c p r).outcome = .ok p') :
    ∃ nth index, (readIndex t c nth r).outcome = .ok index ∧
      p'.2 = p.2.modify r.id ({ · with index }) := by
  obtain ⟨index, read, h⟩ := Trail.outcome_bind_eq_ok.mp h
  cases h
  exact ⟨p.1, index, read, rfl⟩

/-- `f` is made up of a read of the data and, where an index is kept, a read of the index. -/
structure ReadOf (t : Tuning) (c : Cluster) (r : Request) (f : Recovery) : Prop where
  terms : f = { r.recovery with data := f.data, index := f.index }
  data : ∃ nth, (readData t c nth r).outcome = .ok f.data
  index : r.policy.indexed = true → ∃ nth, (readIndex t c nth r).outcome = .ok f.index
  unindexed : r.policy.indexed = false → f.index = .empty

/-- Each namespace is read on its own, whatever else is read along with it. -/
theorem read_parts {requests : List Request} {found : Recoveries}
    (distinct : (requests.map (·.id)).Nodup) (h : (read t c requests).outcome = .ok found)
    (hr : r ∈ requests) : ∃ f, found.get? r.id = some f ∧ ReadOf t c r f := by
  have apart : requests.Pairwise (·.id ≠ ·.id) := List.pairwise_map.mp distinct
  obtain ⟨afterData, hdata, h⟩ := Trail.outcome_bind_eq_ok.mp h
  obtain ⟨afterIndex, hindex, h⟩ := Trail.outcome_bind_eq_ok.mp h
  cases h
  rw [Trail.outcome_foldEach] at hdata hindex
  obtain ⟨_, inserted, _⟩ := foldlM_keyed (fun _ => True) Request.id
    (fun (p : Progress) id => p.2.get? id)
    (fun r old new => old = none → ∃ nth data, (readData t c nth r).outcome = .ok data ∧
      new = some { r.recovery with data })
    (fun r _ p p' _ step => by
      obtain ⟨nth, data, read, eq⟩ := readDataOf_ok step
      refine ⟨trivial, fun none => ⟨nth, data, read, ?_⟩, fun id hid => ?_⟩
      · rw [eq, Recoveries.get?_insert, if_pos rfl, none]
        rfl
      · rw [eq, Recoveries.get?_insert, if_neg (Ne.symm hid)])
    apart trivial hdata
  obtain ⟨_, modified, untouched⟩ := foldlM_keyed (fun _ => True) Request.id
    (fun (p : Progress) id => p.2.get? id)
    (fun r old new => ∃ nth index, (readIndex t c nth r).outcome = .ok index ∧
      new = old.map ({ · with index }))
    (fun r _ p p' _ step => by
      obtain ⟨nth, index, read, eq⟩ := readIndexOf_ok step
      refine ⟨trivial, ⟨nth, index, read, ?_⟩, fun id hid => ?_⟩
      · rw [eq, Recoveries.get?_modify, if_pos rfl]
      · rw [eq, Recoveries.get?_modify, if_neg (Ne.symm hid)])
    (Request.distinct_filter distinct _) trivial hindex
  obtain ⟨_, data, hread, held⟩ := inserted r hr rfl
  cases indexed : r.policy.indexed with
  | true =>
    obtain ⟨nth, index, read, last⟩ := modified r (List.mem_filter.mpr ⟨hr, indexed⟩)
    rw [held] at last
    exact ⟨_, last, rfl, ⟨_, hread⟩, fun _ => ⟨nth, read⟩, fun none => by simp [indexed] at none⟩
  | false =>
    have last := untouched r.id (Request.apart_filter distinct hr indexed)
    exact ⟨_, last.trans held, rfl, ⟨_, hread⟩, fun kept => by simp [indexed] at kept,
      fun _ => rfl⟩

end Backfill.Peers
