import Backfill.Proofs.DataActions
import Backfill.Proofs.Slices

/-!
What the worker of one shard does, where answers depend on the call alone and nothing breaks off:
window after window, a failed fetch or a rejected load loses the part of the window that was asked
for, and everything else is handed on.
-/

namespace Backfill

/-- No call to the accumulator breaks off. -/
structure Accumulator.Calm (a : Accumulator) : Prop where
  checkout : ∀ shard id tags, a.checkout shard id tags ≠ .crash
  load : ∀ shard id start b, a.load shard id start b ≠ .crash

/-- Some series cannot be checked out, or some block of one that can is not loaded. -/
inductive Accumulator.Rejects (a : Accumulator) (shard : Shard) (d : ShardData) : Prop
  | checkout (id : SeriesId) (s : Series) (held : d.series.get? id = some s) (e : Error)
      (h : a.checkout shard id s.tags = .error e)
  | load (id : SeriesId) (s : Series) (held : d.series.get? id = some s)
      (out : a.checkout shard id s.tags = .ok ()) (start : Instant) (b : Block)
      (here : s.blocks.get? start = some b) (e : Error) (h : a.load shard id start b = .error e)

namespace Peers

/-- The answer to a fetch is always the same, and never that it broke off. -/
structure Session.SteadyBlocks (session : Session) : Prop where
  same : ∀ nth f, session.blocks nth f = session.blocks 0 f
  calm : ∀ f, session.blocks 0 f ≠ .crash

/-- No fetch breaks off. What is answered may differ from fetch to fetch. -/
def Session.CalmBlocks (session : Session) : Prop := ∀ nth f, session.blocks nth f ≠ .crash

theorem Session.SteadyBlocks.talks {session : Session} (steady : session.SteadyBlocks) :
    session.CalmBlocks := by
  intro nth f
  rw [steady.same]
  exact steady.calm f

def Delivery.Calm : Delivery → Prop
  | .load a => a.Calm
  | .keep | .persist => True

namespace DataWork

/-- The work comes to its end having lost `part` just when `bad` holds, and handed nothing on. -/
structure Loads (x : DataWork) (part : Interval) (bad : Prop) : Prop where
  outcome : x.outcome = .ok ()
  miss : ∀ q, .miss q ∈ x.entries ↔ q = part ∧ bad
  kept : ∀ d, .keep d ∉ x.entries
  flush : ∀ q d, .flush q d ∉ x.entries

theorem Loads.each {α : Type} {f : α → DataWork} {part : Interval} {bad : α → Prop} {l : List α}
    (h : ∀ a ∈ l, (f a).Loads part (bad a)) :
    Loads (Trail.each f l) part (∃ a ∈ l, bad a) := by
  rw [Trail.each_ok fun a ha => Trail.eq_of_outcome_ok (h a ha).outcome]
  refine ⟨rfl, fun q => ?_, fun d hd => ?_, fun q d hd => ?_⟩
  · simp only [List.mem_flatMap]
    constructor
    · intro hx
      obtain ⟨a, ha, hm⟩ := hx
      obtain ⟨hq, hb⟩ := ((h a ha).miss q).mp hm
      exact ⟨hq, a, ha, hb⟩
    · intro hx
      obtain ⟨hq, a, ha, hb⟩ := hx
      exact ⟨a, ha, ((h a ha).miss q).mpr ⟨hq, hb⟩⟩
  · obtain ⟨a, ha, hm⟩ := List.mem_flatMap.mp hd
    exact (h a ha).kept d hm
  · obtain ⟨a, ha, hm⟩ := List.mem_flatMap.mp hd
    exact (h a ha).flush q d hm

theorem Loads.event {x : DataWork} {part : Interval} {bad : Prop} (h : x.Loads part bad)
    (e : Event) : Loads ((Trail.note (.event e)).bind fun _ => x) part bad := by
  refine ⟨h.outcome, fun q => ?_, fun d hd => ?_, fun q d hd => ?_⟩
  · simpa [Trail.bind, Trail.note] using h.miss q
  · simp [Trail.bind, Trail.note, h.kept] at hd
  · simp [Trail.bind, Trail.note, h.flush] at hd

theorem loads_pure (part : Interval) : Loads (.pure ()) part False :=
  ⟨rfl, by simp [Trail.pure], by simp [Trail.pure], by simp [Trail.pure]⟩

theorem loads_miss (part : Interval) : Loads (.note (.miss part)) part True :=
  ⟨rfl, by simp [Trail.note], by simp [Trail.note], by simp [Trail.note]⟩

theorem Loads.congr {x : DataWork} {part : Interval} {bad bad' : Prop} (h : x.Loads part bad)
    (iff : bad ↔ bad') : x.Loads part bad' :=
  ⟨h.outcome, fun q => (h.miss q).trans (and_congr_right fun _ => iff), h.kept, h.flush⟩

theorem loads_loadBlock {a : Accumulator} (calm : a.Calm) (shard : Shard) (part : Interval)
    (id : SeriesId) (b : Instant × Block) :
    (loadBlock a shard part id b).Loads part (∃ e, a.load shard id b.1 b.2 = .error e) := by
  rw [loadBlock]
  refine Loads.event ?_ _
  cases h : a.load shard id b.1 b.2 with
  | ok u => exact (loads_pure part).congr (by simp)
  | error e => exact (loads_miss part).congr (by simp)
  | crash => exact absurd h (calm.load shard id b.1 b.2)

theorem loads_loadSeries {a : Accumulator} (calm : a.Calm) (shard : Shard) (part : Interval)
    (e : SeriesId × Series) :
    (loadSeries a shard part e).Loads part ((∃ x, a.checkout shard e.1 e.2.tags = .error x) ∨
      a.checkout shard e.1 e.2.tags = .ok () ∧
        ∃ b ∈ e.2.blocks.entries, ∃ x, a.load shard e.1 b.1 b.2 = .error x) := by
  rw [loadSeries]
  refine Loads.event ?_ _
  cases h : a.checkout shard e.1 e.2.tags with
  | ok u =>
    exact (Loads.each fun b _ => loads_loadBlock calm shard part e.1 b).congr (by simp)
  | error x => exact (loads_miss part).congr (by simp)
  | crash => exact absurd h (calm.checkout shard e.1 e.2.tags)

theorem loads_data {a : Accumulator} (calm : a.Calm) (shard : Shard) (part : Interval)
    (d : ShardData) :
    (deliver (.load a) shard part d).Loads part (a.Rejects shard d) := by
  refine (Loads.each fun e _ => loads_loadSeries calm shard part e).congr ?_
  constructor
  · intro hm
    obtain ⟨⟨id, s⟩, hs, ⟨e, h⟩ | ⟨out, ⟨start, b⟩, hb, e, h⟩⟩ := hm
    · exact .checkout id s (SortedMap.get?_eq_some_iff.mpr hs) e h
    · exact .load id s (SortedMap.get?_eq_some_iff.mpr hs) out start b
        (SortedMap.get?_eq_some_iff.mpr hb) e h
  · intro hm
    rcases hm with ⟨id, s, held, e, h⟩ | ⟨id, s, held, out, start, b, here, e, h⟩
    · exact ⟨(id, s), SortedMap.get?_eq_some_iff.mp held, .inl ⟨e, h⟩⟩
    · exact ⟨(id, s), SortedMap.get?_eq_some_iff.mp held,
        .inr ⟨out, (start, b), SortedMap.get?_eq_some_iff.mp here, e, h⟩⟩

/-- The fetch failed, or what it brought was rejected. -/
inductive Fails (session : Session) (how : Delivery) (fetch : Interval → Fetch) (shard : Shard)
    (w : Interval) : Prop
  | fetch (e : Error) (h : session.blocks 0 (fetch w) = .error e)
  | load (a : Accumulator) (loads : how = .load a) (d : ShardData)
      (fetched : session.blocks 0 (fetch w) = .ok d) (h : a.Rejects shard d)

/-- What stays in the result of what a fetch brought. -/
def keptOf (how : Delivery) (reply : Reply ShardData) : List ShardData :=
  match how, reply with
  | .keep, .ok d => [d]
  | _, _ => []

/-- What the worker of a shard does about one window. -/
structure Handles (x : DataWork) (session : Session) (how : Delivery) (fetch : Interval → Fetch)
    (shard : Shard) (v : TimeSet.Slice) : Prop where
  outcome : x.outcome = .ok ()
  miss : ∀ q, .miss q ∈ x.entries ↔ q = v.part ∧ Fails session how fetch shard v.window
  flush : ∀ q d, .flush q d ∈ x.entries ↔
    q = v.part ∧ how matches .persist ∧ session.blocks 0 (fetch v.window) = .ok d
  kept : x.entries.filterMap DataAction.kept = keptOf how (session.blocks 0 (fetch v.window))

theorem filterMap_kept {l : List DataAction} (h : ∀ d, .keep d ∉ l) :
    l.filterMap DataAction.kept = [] := by
  rw [List.filterMap_eq_nil_iff]
  intro a ha
  cases a with
  | keep d => exact absurd ha (h d)
  | _ => rfl

theorem slice_handles {session : Session} (steady : session.SteadyBlocks) {how : Delivery}
    (calm : how.Calm) (fetch : Interval → Fetch) (shard : Shard) (n : Nat) (v : TimeSet.Slice) :
    Handles (slice session how fetch shard (n, v)) session how fetch shard v := by
  have entries (x : DataWork) (e e' : Event) :
      ((Trail.note (.event e)).bind fun _ => (Trail.note (.event e')).bind fun _ => x).entries =
        .event e :: .event e' :: x.entries := rfl
  simp only [slice, steady.same n]
  cases h : session.blocks 0 (fetch v.window) with
  | crash => exact absurd h (steady.calm _)
  | error e =>
    have fails : Fails session how fetch shard v.window := .fetch e h
    refine ⟨rfl, fun q => ?_, fun q d => ?_, ?_⟩
    · change DataAction.miss q ∈ [.event _, .event _, .miss v.part] ↔ _
      simp [fails]
    · change DataAction.flush q d ∈ [.event _, .event _, .miss v.part] ↔ _
      simp [h]
    · change List.filterMap _ [DataAction.event _, .event _, .miss v.part] = _
      rw [h]
      cases how <;> rfl
  | ok d =>
    have fails : Fails session how fetch shard v.window ↔
        ∃ a, how = .load a ∧ a.Rejects shard d := by
      constructor
      · intro hm
        rcases hm with ⟨e, h'⟩ | ⟨a, loads, d', h', hr⟩
        · rw [h] at h'
          cases h'
        · rw [h] at h'
          cases h'
          exact ⟨a, loads, hr⟩
      · intro hm
        obtain ⟨a, loads, hr⟩ := hm
        exact .load a loads d h hr
    cases how with
    | keep =>
      refine ⟨rfl, fun q => ?_, fun q d' => ?_, by rw [h]; rfl⟩
      · change DataAction.miss q ∈ [.event _, .event _, .keep d] ↔ _
        simp [fails]
      · change DataAction.flush q d' ∈ [.event _, .event _, .keep d] ↔ _
        simp
    | load a =>
      have loads := loads_data calm shard v.part d
      refine ⟨loads.outcome, fun q => ?_, fun q d' => ?_, ?_⟩
      · simp [entries, loads.miss, fails]
      · simp [entries, loads.flush]
      · exact filterMap_kept fun d' hd => by simp [entries, loads.kept] at hd
    | persist =>
      refine ⟨rfl, fun q => ?_, fun q d' => ?_, by rw [h]; rfl⟩
      · change DataAction.miss q ∈ [.event _, .event _, .flush v.part d] ↔ _
        simp [fails]
      · change DataAction.flush q d' ∈ [.event _, .event _, .flush v.part d] ↔ _
        simp [h, eq_comm]

theorem slice_ends {session : Session} (talks : session.CalmBlocks) {how : Delivery}
    (calm : how.Calm) (fetch : Interval → Fetch) (shard : Shard) (n : Nat) (v : TimeSet.Slice) :
    (slice session how fetch shard (n, v)).outcome = .ok () := by
  unfold slice
  dsimp only
  cases h : session.blocks n (fetch v.window) with
  | crash => exact absurd h (talks n _)
  | error e => rfl
  | ok d =>
    cases how with
    | keep => rfl
    | load a => exact (loads_data calm shard v.part d).outcome
    | persist => rfl

/-- The worker goes through the slices of what is asked for, in order. -/
theorem shard_eq {session : Session} (steady : session.SteadyBlocks) {how : Delivery}
    (calm : how.Calm) (fetch : Interval → Fetch) {size : Duration} (hs : 0 < size)
    (hw : FitsWord size) (s : Shard) {asked : TimeSet} (hf : asked.FitsWords) :
    shard session how fetch size s asked =
      ⟨(asked.slices size).entries.flatMap fun v => (slice session how fetch s (0, v)).entries,
        .ok ()⟩ := by
  have slices := TimeSet.slices_eq hs hw hf
  have step (n : Nat) (v : TimeSet.Slice) : slice session how fetch s (n, v) =
      ⟨(slice session how fetch s (0, v)).entries, .ok ()⟩ := by
    have same : slice session how fetch s (n, v) = slice session how fetch s (0, v) := by
      simp only [slice, steady.same n]
    rw [same]
    exact Trail.eq_of_outcome_ok (slice_handles steady calm fetch s 0 v).outcome
  rw [shard, TimeSet.foldSlices_eq, slices, Trail.foldOver_count_ok fun n v _ => step n v]
  simp [Trail.bind, Trail.pure]

/-- The worker comes to its end, whatever it is answered. -/
theorem shard_calm {session : Session} (talks : session.CalmBlocks) {how : Delivery}
    (calm : how.Calm) (fetch : Interval → Fetch) {size : Duration} (hs : 0 < size)
    (hw : FitsWord size) (s : Shard) {asked : TimeSet} (hf : asked.FitsWords) :
    shard session how fetch size s asked =
      ⟨((asked.slices size).entries.zipIdx).flatMap fun p =>
        (slice session how fetch s (p.2, p.1)).entries, .ok ()⟩ := by
  have walk := Trail.foldEach_counted_eq (f := slice session how fetch s)
    (l := (asked.slices size).entries) 0 fun n v _ => slice_ends talks calm fetch s n v
  rw [shard, TimeSet.foldSlices_eq, TimeSet.slices_eq hs hw hf, Trail.foldOver]
  rw [TimeSet.slices_eq hs hw hf] at walk
  apply (congrArg (fun x => Trail.bind (Trail.bind x _) _) walk).trans
  simp [Trail.bind, Trail.pure, Except.map]

end DataWork

end Peers

end Backfill
