import Backfill.Proofs.PeerDocuments
import Backfill.Proofs.Tiling

/-!
Which windows a read from peers fetches, and how often. A worker walks the intervals asked for, and
in each of them the windows that it meets, in order. So a window is fetched as many times as there
are intervals of the shard that reach into it: once for each, and each time the whole of it.
-/

namespace Backfill

namespace TimeSet

/-- The windows of every interval in turn. -/
def windows (s : TimeSet) (size : Duration) : List Interval :=
  (s.slices size).entries.map (·.window)

/-- How many intervals of the set reach into a window. -/
def meets (s : TimeSet) (w : Interval) : Nat := s.intervals.countP fun r => (w.intersect r).isSome

/-- The windows are those that the set reaches into, each as often as it has intervals there, and in
order. They are in strict order, and each is there once, just when no two intervals meet in one. -/
structure Walked (s : TimeSet) (size : Duration) (windows : List Interval) : Prop where
  aligned : ∀ w ∈ windows, w.Aligned size
  count : ∀ w, w.Aligned size → windows.count w = s.meets w
  ascend : s.Canonical → windows.Pairwise (·.start ≤ ·.start)
  strictly : s.Canonical →
    (windows.Pairwise (·.start < ·.start) ↔ ∀ w, w.Aligned size → s.meets w ≤ 1)

variable {s : TimeSet} {size : Duration}

theorem map_window_slicesOf (size : Duration) (r : Interval) :
    (slicesOf size r).map (·.window) =
      (r.windows size).entries.filter fun w => (w.intersect r).isSome := by
  rw [slicesOf, List.map_filterMap, ← List.filterMap_eq_filter]
  refine List.filterMap_congr fun w _ => ?_
  cases h : w.intersect r <;> simp [Option.guard, h]

/-- An interval has every window that it reaches into, once. -/
theorem count_slicesOf (hs : 0 < size) (hw : FitsWord size) {r : Interval} (hr : r.FitsWords)
    {w : Interval} (aligned : w.Aligned size) :
    ((slicesOf size r).map (·.window)).count w = if (w.intersect r).isSome then 1 else 0 := by
  rw [map_window_slicesOf]
  by_cases meets : (w.intersect r).isSome = true
  · rw [if_pos meets, List.count_filter (by exact meets)]
    obtain ⟨common, hc⟩ := Option.isSome_iff_exists.mp meets
    obtain ⟨_, _, inhabited⟩ := Interval.ends_of_intersect hc
    obtain ⟨there, here⟩ := Interval.mem_intersect.mp
      ⟨common, hc, (⟨Int.le_refl _, inhabited⟩ : common.start ∈ common)⟩
    obtain ⟨v, hv, hx⟩ := exists_slice hs hw hr here
    have window : v.window = w := by
      rw [(within_of_mem_slicesOf hs hw hr hv).window_eq hx, aligned.eq_around there]
    obtain ⟨w', listed, hm⟩ := List.mem_filterMap.mp hv
    obtain ⟨_, _, rfl⟩ := Option.map_eq_some_iff.mp hm
    cases window
    exact List.count_eq_one_of_mem (Interval.starts_nodup hs r).of_map listed
  · rw [if_neg meets, List.count_eq_zero]
    exact fun hm => meets (List.mem_filter.mp hm).2

theorem count_windows (hs : 0 < size) (hw : FitsWord size) (hf : s.FitsWords) {w : Interval}
    (aligned : w.Aligned size) : (s.windows size).count w = s.meets w := by
  rw [windows, slices_eq hs hw hf, meets]
  obtain ⟨l⟩ := s
  dsimp only at hf ⊢
  induction l with
  | nil => rfl
  | cons r l ih =>
    have rest := ih fun q hq => hf q (List.mem_cons_of_mem _ hq)
    rw [List.flatMap_cons, List.map_append, List.count_append, rest,
      count_slicesOf hs hw (hf r List.mem_cons_self) aligned, List.countP_cons, Nat.add_comm]

theorem windows_walked (hs : 0 < size) (hw : FitsWord size) (hf : s.FitsWords) :
    s.Walked size (s.windows size) := by
  have aligned : ∀ w ∈ s.windows size, w.Aligned size := by
    intro w hm
    obtain ⟨v, hv, rfl⟩ := List.mem_map.mp hm
    obtain ⟨_, _, within⟩ := exists_within hs hw hf hv
    exact within.aligned
  have ascend (canonical : s.Canonical) : (s.windows size).Pairwise (·.start ≤ ·.start) :=
    List.pairwise_map.mpr (slices_ascend hs hw hf canonical)
  have count {w : Interval} (aligned : w.Aligned size) := count_windows hs hw hf aligned
  refine ⟨aligned, fun w => count, ascend, fun canonical => ⟨fun strict w hm => ?_, fun once => ?_⟩⟩
  · rw [← count hm]
    have distinct : (s.windows size).Nodup := strict.imp fun h same => by
      rw [same] at h
      exact Int.lt_irrefl _ h
    exact List.nodup_iff_count_le_one.mp distinct w
  · have distinct : (s.windows size).Nodup := by
      refine List.nodup_iff_count_le_one.mpr fun w => ?_
      by_cases hm : w ∈ s.windows size
      · rw [count (aligned w hm)]
        exact once w (aligned w hm)
      · rw [List.count_eq_zero_of_not_mem hm]
        exact Nat.zero_le 1
    refine ((ascend canonical).and distinct).imp_of_mem fun {v w} hv hw' h => ?_
    have differ : v.start ≠ w.start := fun same =>
      h.2 ((aligned v hv).eq_of_start (aligned w hw') same)
    have := h.1
    lia

end TimeSet

def Event.fetch? : Event → Option Fetch
  | .fetched f => some f
  | _ => none

/-- Tells neither of a fetch nor of a counter. -/
def Event.Plain : Event → Prop
  | .fetched _ | .counted _ _ => False
  | _ => True

/-- The fetches for a shard, in order. -/
def fetchesFor (shard : Shard) (l : List Event) : List Fetch :=
  (l.filterMap Event.fetch?).filter (·.shard = shard)

theorem fetchesFor_append (shard : Shard) (a b : List Event) :
    fetchesFor shard (a ++ b) = fetchesFor shard a ++ fetchesFor shard b := by
  rw [fetchesFor, List.filterMap_append, List.filter_append]
  rfl

namespace Peers

/-- What a worker has fetched: its windows in order, all of them if it came to its end. -/
structure FetchesWindows (fetch : Interval → Fetch) (windows : List Interval) (ended : Prop)
    (fetches : List Fetch) : Prop where
  begun : fetches <+: windows.map fetch
  all : ended → fetches = windows.map fetch

/-- A worker that walks the slices and makes one fetch for each. -/
theorem fetchesWindows_walk {ε : Type} {g : ε → Option Fetch} {fetch : Interval → Fetch}
    {f : Nat × TimeSet.Slice → Trail ε Fault Unit} {asked : TimeSet} {size : Duration}
    (own : ∀ n v, (f (n, v)).entries.filterMap g = [fetch v.window]) :
    let work := (Trail.foldOver (Trail.counted f) 0 (asked.slices size)).bind
      fun _ => (.pure () : Trail ε Fault Unit)
    FetchesWindows fetch (asked.windows size) (work.outcome = .ok ())
      (work.entries.filterMap g) := by
  intro work
  obtain ⟨begun, all⟩ := Trail.filterMap_entries_counted own 0 (asked.slices size).entries
  have entries : work.entries =
      (Trail.foldEach (Trail.counted f) 0 (asked.slices size).entries).entries := by
    rw [Trail.entries_bind_silent _ fun _ => rfl, Trail.foldOver,
      Trail.entries_bind_silent _ fun _ => rfl]
  have windows : (asked.windows size).map fetch =
      (asked.slices size).entries.map fun v => fetch v.window := List.map_map
  rw [← windows] at begun all
  rw [entries]
  refine ⟨begun, fun ends => ?_⟩
  obtain ⟨_, walked, _⟩ := Trail.outcome_bind_eq_ok.mp ends
  obtain ⟨m, folded, _⟩ := Trail.outcome_bind_eq_ok.mp walked
  exact all m folded

def DataAction.fetch? : DataAction → Option Fetch
  | .event e => e.fetch?
  | _ => none

def IndexAction.fetch? : IndexAction → Option Fetch
  | .event e => e.fetch?
  | _ => none

def DataAction.Plain : DataAction → Prop
  | .event e => e.Plain
  | _ => True

theorem DataAction.Plain.fetch? {a : DataAction} (h : a.Plain) : a.fetch? = none := by
  cases a with
  | event e => cases e <;> first | rfl | exact h.elim
  | _ => rfl

section Slices

variable {session : Session} {how : Delivery} {fetch : Interval → Fetch} {shard : Shard}

theorem DataWork.plain_loadBlock {acc : Accumulator} {part : Interval} {id : SeriesId}
    {b : Instant × Block} {a : DataAction} (h : a ∈ (loadBlock acc shard part id b).entries) :
    a.Plain := by
  rcases Trail.mem_entries_bind h with h | ⟨_, _, h⟩
  · cases List.mem_singleton.mp h
    trivial
  · split at h
    · cases h
    · cases List.mem_singleton.mp h
      trivial
    · cases h

theorem DataWork.plain_loadSeries {acc : Accumulator} {part : Interval} {e : SeriesId × Series}
    {a : DataAction} (h : a ∈ (loadSeries acc shard part e).entries) : a.Plain := by
  rcases Trail.mem_entries_bind h with h | ⟨_, _, h⟩
  · cases List.mem_singleton.mp h
    trivial
  · split at h
    · obtain ⟨b, _, h⟩ := Trail.mem_entries_each h
      exact plain_loadBlock h
    · cases List.mem_singleton.mp h
      trivial
    · cases h

/-- To hand on what was fetched, nothing is fetched and nothing counted. -/
theorem DataWork.plain_deliver {part : Interval} {d : ShardData} {a : DataAction}
    (h : a ∈ (deliver how shard part d).entries) : a.Plain := by
  cases how with
  | keep =>
    cases List.mem_singleton.mp h
    trivial
  | persist =>
    cases List.mem_singleton.mp h
    trivial
  | load acc =>
    obtain ⟨e, _, h⟩ := Trail.mem_entries_each h
    exact plain_loadSeries h

/-- One fetch for a window, whatever it is answered. -/
theorem DataWork.fetch?_slice (n : Nat) (v : TimeSet.Slice) :
    (slice session how fetch shard (n, v)).entries.filterMap DataAction.fetch? =
      [fetch v.window] := by
  simp only [slice]
  cases session.blocks n (fetch v.window) with
  | ok d =>
    have none : (deliver how shard v.part d).entries.filterMap DataAction.fetch? = [] :=
      List.filterMap_eq_nil_iff.mpr fun a ha => (plain_deliver ha).fetch?
    exact congrArg (fetch v.window :: ·) none
  | error e => rfl
  | crash => rfl

theorem IndexWork.fetch?_slice (p : Policy) (n : Nat) (v : TimeSet.Slice) :
    (slice session p fetch (n, v)).entries.filterMap IndexAction.fetch? = [fetch v.window] := by
  simp only [slice]
  cases session.metadata n (fetch v.window) with
  | ok l =>
    dsimp only
    cases IndexWindow.ofEntries p v l <;> rfl
  | error e => rfl
  | crash => rfl

end Slices

variable {t : Tuning} {c : Cluster} {nth : Nat} {r : Request} {session : Session} {how : Delivery}

/-- What the worker of a shard does for the index. -/
def indexFor (t : Tuning) (session : Session) (r : Request) (shard : Shard) : IndexWork :=
  IndexWork.shard session r.policy (indexFetch t r shard) (r.index.ranges.get shard)

theorem indexWork_eq_indexFor : indexWork t session r =
    r.index.ranges.entries.map fun e => ⟨e.1, e.2, indexFor t session r e.1⟩ := by
  refine List.map_congr_left fun e he => ?_
  rw [indexFor, Coverage.get_of_mem_entries he]

theorem workFor_fetches (shard : Shard) :
    FetchesWindows (dataFetch t r shard) ((r.data.ranges.get shard).windows r.policy.blockSize)
      ((workFor t session how r shard).outcome = .ok ())
      ((workFor t session how r shard).entries.filterMap DataAction.fetch?) := by
  rw [workFor, DataWork.shard, TimeSet.foldSlices_eq]
  exact fetchesWindows_walk DataWork.fetch?_slice

theorem indexFor_fetches (shard : Shard) :
    FetchesWindows (indexFetch t r shard)
      ((r.index.ranges.get shard).windows r.policy.indexBlockSize)
      ((indexFor t session r shard).outcome = .ok ())
      ((indexFor t session r shard).entries.filterMap IndexAction.fetch?) := by
  rw [indexFor, IndexWork.shard, TimeSet.foldSlices_eq]
  exact fetchesWindows_walk (IndexWork.fetch?_slice r.policy)

theorem filter_indexFor (shard : Shard) :
    ((indexWork t session r).flatMap ShardWork.actions).filter (·.1 = shard) =
      (indexFor t session r shard).entries.map (shard, ·) := by
  rw [indexWork, List.flatMap_map]
  refine (SortedMap.filter_flatMap_entries r.index.ranges.sets (fun shard asked =>
    (IndexWork.shard session r.policy (indexFetch t r shard) asked).entries) shard).trans ?_
  rw [indexFor, Coverage.get]
  cases r.index.ranges.sets.get? shard <;> rfl

/-- The fetches of a worker are for its shard. -/
theorem shard_of_fetch {windows : List Interval} {fetch : Interval → Fetch} {ended : Prop}
    {fetches : List Fetch} {shard : Shard} (h : FetchesWindows fetch windows ended fetches)
    (own : ∀ w, (fetch w).shard = shard) {f : Fetch} (hf : f ∈ fetches) : f.shard = shard := by
  obtain ⟨w, _, rfl⟩ := List.mem_map.mp (h.begun.subset hf)
  exact own w

section Turns

variable {ε : Type} {g : ε → Option Fetch} {shard : Shard}

theorem fetches_of_shard {l : List (Shard × ε)}
    (own : ∀ a ∈ l, ∀ f, g a.2 = some f → f.shard = a.1) :
    (l.filterMap fun a => g a.2).filter (·.shard = shard) =
      ((l.filter (·.1 = shard)).map (·.2)).filterMap g := by
  induction l with
  | nil => rfl
  | cons a l ih =>
    have rest := ih fun b hb => own b (List.mem_cons_of_mem _ hb)
    have here := own a List.mem_cons_self
    by_cases eq : a.1 = shard
    · rw [List.filter_cons_of_pos (by simpa using eq), List.map_cons, List.filterMap_cons,
        List.filterMap_cons]
      cases picked : g a.2 with
      | none => exact rest
      | some f => simpa [here f picked, eq] using rest
    · rw [List.filter_cons_of_neg (by simpa using eq), List.filterMap_cons]
      cases picked : g a.2 with
      | none => exact rest
      | some f => simpa [here f picked, eq] using rest

/-- Whatever the turns, the fetches for a shard are those of its worker, in its order. -/
theorem turns_fetches {work : List (ShardWork ε)} {l : List (Shard × ε)} {entries : Shard → List ε}
    (turns : Interleaves (work.map ShardWork.actions) l) (apart : work.Pairwise (·.shard ≠ ·.shard))
    (workers : ∀ shard, (work.flatMap ShardWork.actions).filter (·.1 = shard) =
      (entries shard).map (shard, ·))
    (own : ∀ shard, ∀ f ∈ (entries shard).filterMap g, f.shard = shard) :
    (l.filterMap fun a => g a.2).filter (·.shard = shard) = (entries shard).filterMap g := by
  have mine (shard : Shard) : l.filter (·.1 = shard) = (entries shard).map (shard, ·) := by
    rw [filter_turns turns apart, workers]
  rw [fetches_of_shard, mine, List.map_map]
  · exact congrArg (List.filterMap g) (List.map_id _)
  · intro a ha f picked
    have there : a ∈ (entries a.1).map (a.1, ·) := by
      rw [← mine]
      exact List.mem_filter.mpr ⟨ha, by simp⟩
    obtain ⟨b, hb, same⟩ := List.mem_map.mp there
    refine own a.1 f (List.mem_filterMap.mpr ⟨b, hb, ?_⟩)
    rw [← picked, ← same]

end Turns

/-- What every step adds to the view is all that a run adds. -/
theorem view_foldl {σ α δ : Type} {act : σ → α → σ} (view : σ → List δ) {g : α → Option δ}
    (step : ∀ s a, view (act s a) = view s ++ (g a).toList) (s : σ) (l : List α) :
    view (l.foldl act s) = view s ++ l.filterMap g := by
  induction l generalizing s with
  | nil => exact (List.append_nil _).symm
  | cons a l ih =>
    rw [List.foldl_cons, ih, step, List.append_assoc, List.filterMap_cons]
    cases g a <;> rfl

theorem fetches_cons (e : Event) (log : List Event) :
    (e :: log).reverse.filterMap Event.fetch? =
      log.reverse.filterMap Event.fetch? ++ e.fetch?.toList := by
  rw [List.reverse_cons, List.filterMap_append]
  cases e <;> rfl

namespace DataState

variable {target : Option (Disk × FlushTarget)}

theorem fetches_logged (events log : List Event) :
    (logged events log).reverse.filterMap Event.fetch? =
      log.reverse.filterMap Event.fetch? ++ events.filterMap Event.fetch? := by
  rw [logged, List.reverse_append, List.reverse_reverse, List.filterMap_append]

/-- Writing a flush fetches nothing. -/
theorem fetches_written (written : Flush.DiskTrail) :
    (written.entries.map (fun e => Event.disk e.1 e.2) ++ flushed written.outcome).filterMap
      Event.fetch? = [] := by
  rw [List.filterMap_eq_nil_iff]
  intro e he
  rcases List.mem_append.mp he with he | he
  · obtain ⟨_, _, rfl⟩ := List.mem_map.mp he
    rfl
  · unfold flushed at he
    split at he
    · cases List.mem_singleton.mp he
      rfl
    · cases List.mem_singleton.mp he
      rfl
    · cases he

theorem act_fetches (s : DataState) (a : Shard × DataAction) :
    (act target s a).events.filterMap Event.fetch? =
      s.events.filterMap Event.fetch? ++ a.2.fetch?.toList := by
  obtain ⟨shard, action⟩ := a
  cases action with
  | event e => exact fetches_cons e s.log
  | miss part => exact (List.append_nil _).symm
  | keep d => exact (List.append_nil _).symm
  | flush part d =>
    cases target with
    | none => exact (List.append_nil _).symm
    | some t =>
      simp only [act, flush, events]
      split
      · rw [fetches_logged, fetches_written]
        rfl
      · exact (List.append_nil _).symm

/-- All fetches of the workers are in the log, in the order in which they were made. -/
theorem run_fetches (target : Option (Disk × FlushTarget)) (s : DataState)
    (l : List (Shard × DataAction)) :
    (run target s l).events.filterMap Event.fetch? =
      s.events.filterMap Event.fetch? ++ l.filterMap fun a => a.2.fetch? :=
  view_foldl (fun s : DataState => s.events.filterMap Event.fetch?) act_fetches s l

theorem finish_fetches (s : DataState) (disk : Disk) (asked : Coverage) :
    (s.finish disk asked).events.filterMap Event.fetch? = s.events.filterMap Event.fetch? := by
  have closing : (s.queue.ledger.map (fun _ => Event.counted (.flushes false) 1) ++
      [Event.flushDone]).filterMap Event.fetch? = [] := by
    rw [List.filterMap_append, List.filterMap_map]
    simp [Event.fetch?]
  simp only [finish, events]
  rw [fetches_logged, closing, List.append_nil]

end DataState

namespace IndexState

theorem act_fetches (s : IndexState) (a : Shard × IndexAction) :
    (act s a).events.filterMap Event.fetch? =
      s.events.filterMap Event.fetch? ++ a.2.fetch?.toList := by
  obtain ⟨shard, action⟩ := a
  cases action with
  | event e => exact fetches_cons e s.log
  | miss part => exact (List.append_nil _).symm
  | absorb w => exact (List.append_nil _).symm

theorem run_fetches (l : List (Shard × IndexAction)) :
    (run l).events.filterMap Event.fetch? = l.filterMap fun a => a.2.fetch? :=
  view_foldl (fun s : IndexState => s.events.filterMap Event.fetch?) act_fetches ⟨.empty, []⟩ l

end IndexState

/-- Whatever the turns and wherever flushes are written. -/
theorem dataOutcome_fetches (target : Option (Disk × FlushTarget)) {l : List (Shard × DataAction)}
    (turns : Interleaves ((dataWork t session how r).map ShardWork.actions) l) (shard : Shard) :
    fetchesFor shard (dataOutcome t target r l).events =
      (workFor t session how r shard).entries.filterMap DataAction.fetch? := by
  have run : (dataOutcome t target r l).events.filterMap Event.fetch? =
      l.filterMap fun a => a.2.fetch? := by
    have ran := DataState.run_fetches target (.ofCapacity t.queueCapacity) l
    cases target with
    | none => exact ran
    | some d => exact (DataState.finish_fetches _ d.1 r.data.ranges).trans ran
  rw [fetchesFor, run]
  exact turns_fetches turns (dataWork_apart t session how r) filter_actions
    fun shard f hf => shard_of_fetch (workFor_fetches shard) (fun _ => rfl) hf

theorem indexRun_fetches {l : List (Shard × IndexAction)}
    (turns : Interleaves ((indexWork t session r).map ShardWork.actions) l) (shard : Shard) :
    fetchesFor shard (IndexState.run l).events =
      (indexFor t session r shard).entries.filterMap IndexAction.fetch? := by
  rw [fetchesFor, IndexState.run_fetches]
  exact turns_fetches turns (indexWork_apart t session r) filter_indexFor
    fun shard f hf => shard_of_fetch (indexFor_fetches shard) (fun _ => rfl) hf

theorem fetchesFor_openTarget (shard : Shard) :
    fetchesFor shard (openTarget t c nth r).entries = [] := by
  have none : (openTarget t c nth r).entries.filterMap Event.fetch? = [] :=
    List.filterMap_eq_nil_iff.mpr fun e he => by
      rcases mem_entries_openTarget he with rfl | rfl <;> rfl
  rw [fetchesFor, none]
  rfl

theorem fetchesFor_phaseDone (shard : Shard) (phase : Phase) (missing : Coverage) :
    fetchesFor shard (phaseDone .peers phase missing) = [] := by
  unfold phaseDone
  split <;> rfl

/-- Nobody but the workers fetches anything. -/
theorem readData_fetches {target : Option (Disk × FlushTarget)}
    (opened : c.openSession nth = .ok session)
    (ht : (openTarget t c nth r).outcome = .ok target) (shard : Shard) :
    fetchesFor shard (readData t c nth r).entries =
      (workFor t session (delivery r target) r shard).entries.filterMap DataAction.fetch? := by
  cases none : r.data.ranges.isEmpty with
  | true =>
    rw [readData, if_pos none, workFor, Coverage.get_of_isEmpty none]
    rfl
  | false =>
    rw [← dataOutcome_fetches target (Interleaves.flatten _) shard, ← List.flatMap_def, readData,
      none, if_neg Bool.false_ne_true]
    simp only [bind, pure, Trail.bind, Trail.pure, Trail.note, Trail.notes,
      Trail.lift, Run.ofExcept, Except.mapError, opened, ht, fetchesFor_append,
      fetchesFor_openTarget, fetchesFor_phaseDone, List.append_nil]
    rfl

theorem readIndex_fetches (opened : c.openSession nth = .ok session) (shard : Shard) :
    fetchesFor shard (readIndex t c nth r).entries =
      (indexFor t session r shard).entries.filterMap IndexAction.fetch? := by
  cases none : r.index.ranges.isEmpty with
  | true =>
    rw [readIndex, if_pos none, indexFor, Coverage.get_of_isEmpty none]
    rfl
  | false =>
    rw [← indexRun_fetches (Interleaves.flatten _) shard, ← List.flatMap_def, readIndex, none,
      if_neg Bool.false_ne_true]
    simp only [bind, pure, Trail.bind, Trail.pure, Trail.note, Trail.notes,
      Trail.lift, Run.ofExcept, Except.mapError, opened, fetchesFor_append, fetchesFor_phaseDone,
      List.append_nil]
    rfl

/-- No fetch of metadata breaks off, and what is answered tells of times that fit into words. -/
structure Session.CalmMetadata (session : Session) : Prop where
  calm : ∀ nth f, session.metadata nth f ≠ .crash
  fits : ∀ nth f l, session.metadata nth f = .ok l → ∀ m ∈ l, FitsWord m.start

theorem IndexWork.slice_ends {p : Policy} (talks : session.CalmMetadata) (fits : IndexFits p)
    (fetch : Interval → Fetch) (n : Nat) (v : TimeSet.Slice) :
    (slice session p fetch (n, v)).outcome = .ok () := by
  unfold slice
  dsimp only
  cases h : session.metadata n (fetch v.window) with
  | crash => exact absurd h (talks.calm n _)
  | error e => rfl
  | ok l =>
    obtain ⟨w, ok, _⟩ := IndexWindow.ofEntries_ok fits v (talks.fits n _ l h)
    simp only [ok]
    rfl

theorem indexFor_calm (talks : session.CalmMetadata) (fits : IndexFits r.policy)
    (words : r.index.ranges.FitsWords) (shard : Shard) :
    (indexFor t session r shard).outcome = .ok () := by
  have walk := Trail.foldEach_counted_eq (l := ((r.index.ranges.get shard).slices
    r.policy.indexBlockSize).entries) 0
    fun n v _ => IndexWork.slice_ends talks fits (indexFetch t r shard) n v
  rw [TimeSet.slices_eq fits.indexSize_pos fits.indexSize (words shard)] at walk
  rw [indexFor, IndexWork.shard, TimeSet.foldSlices_eq,
    TimeSet.slices_eq fits.indexSize_pos fits.indexSize (words shard), Trail.foldOver]
  apply (congrArg (fun x => (Trail.bind (Trail.bind x _) _).outcome) walk).trans
  rfl

/-- The workers of a read fetch the windows that are asked for, in order, and all of them unless
they break off, however they take turns. A window is fetched as often as there are intervals of the
shard that reach into it. -/
theorem reads_fetch_windows (opened : c.openSession nth = .ok session) :
    (∀ target, (openTarget t c nth r).outcome = .ok target → Fits r → ∀ shard,
      let asked := r.data.ranges.get shard
      let windows := asked.windows r.policy.blockSize
      let ended := (workFor t session (delivery r target) r shard).outcome = .ok ()
      let fetches := fetchesFor shard (readData t c nth r).entries
      asked.Walked r.policy.blockSize windows ∧
        FetchesWindows (dataFetch t r shard) windows ended fetches ∧
        (session.CalmBlocks → (∀ a, r.accumulator = some a → a.Calm) → ended) ∧
        ∀ l, Interleaves ((dataWork t session (delivery r target) r).map ShardWork.actions) l →
          fetchesFor shard (dataOutcome t target r l).events = fetches) ∧
    (IndexFits r.policy → r.index.ranges.FitsWords → ∀ shard,
      let asked := r.index.ranges.get shard
      let windows := asked.windows r.policy.indexBlockSize
      let ended := (indexFor t session r shard).outcome = .ok ()
      let fetches := fetchesFor shard (readIndex t c nth r).entries
      asked.Walked r.policy.indexBlockSize windows ∧
        FetchesWindows (indexFetch t r shard) windows ended fetches ∧
        (session.CalmMetadata → ended) ∧
        ∀ l, Interleaves ((indexWork t session r).map ShardWork.actions) l →
          fetchesFor shard (IndexState.run l).events = fetches) := by
  refine ⟨fun target ht fits shard => ⟨?_, ?_, fun talks loads => ?_, fun l turns => ?_⟩,
    fun fits words shard => ⟨?_, ?_, fun talks => ?_, fun l turns => ?_⟩⟩
  · exact TimeSet.windows_walked r.policy.blockSize_pos fits.size (fits.ranges shard)
  · rw [readData_fetches opened ht]
    exact workFor_fetches shard
  · exact congrArg Trail.outcome (workFor_calm talks (delivery_calm target loads) fits shard)
  · exact (dataOutcome_fetches target turns shard).trans (readData_fetches opened ht shard).symm
  · exact TimeSet.windows_walked fits.indexSize_pos fits.indexSize (words shard)
  · rw [readIndex_fetches opened]
    exact indexFor_fetches shard
  · exact indexFor_calm talks fits words shard
  · exact (indexRun_fetches turns shard).trans (readIndex_fetches opened shard).symm

/-- Tells the same of every window. -/
def repeating : Session where
  blocks _ _ := .ok (ShardData.empty.addBlock [1] .empty 0 ⟨[], 0⟩)
  metadata _ _ := .ok [⟨[1], .empty, 0⟩]

theorem repeating_calm : repeating.CalmMetadata := by
  refine ⟨fun _ _ => nofun, fun nth f l answered m hm => ?_⟩
  cases answered
  cases List.mem_singleton.mp hm
  decide

/-- Two parts of the window at 0 are asked for, and one of the next. The index has them all in
one. -/
theorem reads_fetch_windows_parted :
    let policy : Policy :=
      ⟨{ blockSize := 10, indexed := true, indexBlockSize := 20 }, by decide, by decide⟩
    let options : RunOptions := ⟨⟨false, .flush⟩, .ofOrigin [] 0⟩
    let ranges := ((Coverage.empty.add 0 ⟨0, 3⟩).add 0 ⟨5, 8⟩).add 0 ⟨12, 14⟩
    let request : Request := ⟨[7], policy, [0], none, ⟨ranges, options⟩, ⟨ranges, options⟩⟩
    let tuning : Tuning := ⟨1, 1, 1, 1, .majority, .lru⟩
    let cluster : Cluster := ⟨fun _ => .ok repeating, none, none⟩
    fetchesFor 0 (readData tuning cluster 0 request).entries =
        [⟨0, 10⟩, ⟨0, 10⟩, ⟨10, 20⟩].map (dataFetch tuning request 0) ∧
      fetchesFor 0 (readIndex tuning cluster 0 request).entries =
        [⟨0, 20⟩, ⟨0, 20⟩, ⟨0, 20⟩].map (indexFetch tuning request 0) := by
  intro policy options ranges request tuning cluster
  have words : ranges.FitsWords := Coverage.fitsWords_of_entries (by decide)
  have windows : (ranges.get 0).windows 10 = [⟨0, 10⟩, ⟨0, 10⟩, ⟨10, 20⟩] := by decide +kernel
  have indexWindows : (ranges.get 0).windows 20 = [⟨0, 20⟩, ⟨0, 20⟩, ⟨0, 20⟩] := by decide +kernel
  obtain ⟨data, index⟩ := reads_fetch_windows (t := tuning) (r := request)
    (show cluster.openSession 0 = .ok repeating from rfl)
  obtain ⟨_, fetched, ended, _⟩ := data none rfl ⟨by decide, words⟩ 0
  obtain ⟨_, indexFetched, indexEnded, _⟩ := index ⟨rfl, by decide, by decide⟩ words 0
  constructor
  · rw [← windows]
    exact fetched.all (ended (fun _ _ => nofun) nofun)
  · rw [← indexWindows]
    exact indexFetched.all (indexEnded repeating_calm)

/-- Every window that the set reaches into is fetched, and is fetched once. -/
def FetchesOnce (asked : TimeSet) (size : Duration) (fetch : Interval → Fetch)
    (fetches : List Fetch) : Prop :=
  ∀ w, w.Aligned size → asked.meets w ≠ 0 → fetches.count (fetch w) = 1

/-- A window that two intervals of a shard reach into is fetched twice, by the worker for the data
and by that for the index. -/
theorem reads_fetch_windows_twice :
    let policy : Policy :=
      ⟨{ blockSize := 10, indexed := true, indexBlockSize := 10 }, by decide, by decide⟩
    let options : RunOptions := ⟨⟨false, .flush⟩, .ofOrigin [] 0⟩
    let ranges := (Coverage.empty.add 0 ⟨0, 3⟩).add 0 ⟨5, 8⟩
    let request : Request := ⟨[7], policy, [0], none, ⟨ranges, options⟩, ⟨ranges, options⟩⟩
    let tuning : Tuning := ⟨1, 1, 1, 1, .majority, .lru⟩
    let cluster : Cluster := ⟨fun _ => .ok repeating, none, none⟩
    let data := fetchesFor 0 (readData tuning cluster 0 request).entries
    let index := fetchesFor 0 (readIndex tuning cluster 0 request).entries
    tuning.validate = .ok () ∧ Fits request ∧ IndexFits policy ∧ request.index.ranges.FitsWords ∧
      repeating.CalmBlocks ∧ repeating.CalmMetadata ∧
      data = List.replicate 2 (dataFetch tuning request 0 ⟨0, 10⟩) ∧
      index = List.replicate 2 (indexFetch tuning request 0 ⟨0, 10⟩) ∧
      ¬ FetchesOnce (ranges.get 0) 10 (dataFetch tuning request 0) data ∧
      ¬ FetchesOnce (ranges.get 0) 10 (indexFetch tuning request 0) index := by
  intro policy options ranges request tuning cluster data index
  have words : ranges.FitsWords := Coverage.fitsWords_of_entries (by decide)
  have fetched : data = List.replicate 2 (dataFetch tuning request 0 ⟨0, 10⟩) := by decide +kernel
  have indexFetched : index = List.replicate 2 (indexFetch tuning request 0 ⟨0, 10⟩) := by
    decide +kernel
  have aligned : (⟨0, 10⟩ : Interval).Aligned 10 := ⟨by decide, by decide⟩
  refine ⟨by decide, ⟨by decide, words⟩, ⟨rfl, by decide, by decide⟩, words, fun _ _ => nofun,
    repeating_calm, fetched, indexFetched, fun once => ?_, fun once => ?_⟩
  · have one := once ⟨0, 10⟩ aligned (by decide)
    rw [fetched, List.count_replicate_self] at one
    cases one
  · have one := once ⟨0, 10⟩ aligned (by decide)
    rw [indexFetched, List.count_replicate_self] at one
    cases one

end Peers

end Backfill
