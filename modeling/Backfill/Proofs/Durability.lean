import Backfill.Proofs.DataRead
import Backfill.Proofs.FlushHistory

/-!
What a read from peers that persists leaves on disk, whatever the disk answers. An instant that is
not missing was in a flush that came to its end, and the files of its window are those of that flush
unless a later part of the window was asked for.
-/

namespace Backfill.Peers

namespace DataWork

variable {session : Session} {fetch : Interval → Fetch} {shard : Shard}

/-- What becomes of the part `v.part` that the fetch number `n` was made for. -/
inductive Handed (session : Session) (fetch : Interval → Fetch) (n : Nat) (v : TimeSet.Slice) :
    DataAction → Prop
  | flush (d : ShardData) (fetched : session.blocks n (fetch v.window) = .ok d) :
      Handed session fetch n v (.flush v.part d)
  | miss : Handed session fetch n v (.miss v.part)

/-- What a worker does that hands everything to the queue. -/
theorem mem_slice_persist {n : Nat} {v : TimeSet.Slice} {a : DataAction}
    (h : a ∈ (slice session .persist fetch shard (n, v)).entries) :
    a = .event (.fetched (fetch v.window)) ∨ (∃ ok, a = .event (fetched .blocks ok)) ∨
      Handed session fetch n v a := by
  unfold slice at h
  dsimp only at h
  rcases Trail.mem_entries_bind h with h | ⟨_, _, h⟩
  · exact .inl (List.mem_singleton.mp h)
  · split at h
    · rename_i d reply
      rcases Trail.mem_entries_bind h with h | ⟨_, _, h⟩
      · exact .inr (.inl ⟨true, List.mem_singleton.mp h⟩)
      · cases List.mem_singleton.mp h
        exact .inr (.inr (.flush d reply))
    · rcases List.mem_cons.mp h with h | h
      · exact .inr (.inl ⟨false, h⟩)
      · cases List.mem_singleton.mp h
        exact .inr (.inr .miss)
    · cases h

theorem slice_quiet {n : Nat} {v : TimeSet.Slice} {a : DataAction}
    (h : a ∈ (slice session .persist fetch shard (n, v)).entries) : a.Quiet := by
  intro call reply eq
  subst eq
  rcases mem_slice_persist h with h | ⟨_, h⟩ | h <;> cases h

/-- The last thing about a window is that it is handed on. -/
theorem slice_persist {n : Nat} {v : TimeSet.Slice}
    (h : (slice session .persist fetch shard (n, v)).outcome = .ok ()) :
    ∃ first action, (slice session .persist fetch shard (n, v)).entries = first ++ [action] ∧
      Handed session fetch n v action := by
  unfold slice at h ⊢
  dsimp only at h ⊢
  cases reply : session.blocks n (fetch v.window) with
  | ok d =>
    exact ⟨[.event (.fetched (fetch v.window)), .event (fetched .blocks true)], _, rfl,
      .flush d reply⟩
  | error e =>
    exact ⟨[.event (.fetched (fetch v.window)), .event (fetched .blocks false)], _, rfl, .miss⟩
  | crash =>
    rw [reply] at h
    cases h

variable {size : Duration} {asked : TimeSet}

theorem shard_eq_counted (session : Session) (how : Delivery) (fetch : Interval → Fetch)
    (size : Duration) (shard : Shard) (asked : TimeSet) :
    DataWork.shard session how fetch size shard asked =
      (Trail.foldOver (Trail.counted (slice session how fetch shard)) 0 (asked.slices size)).bind
        fun _ => .pure () := by
  rw [DataWork.shard, TimeSet.foldSlices_eq]
  rfl

/-- Whatever a worker does it does about one of its windows. -/
theorem mem_shard {how : Delivery} {a : DataAction}
    (h : a ∈ (DataWork.shard session how fetch size shard asked).entries) :
    ∃ n, ∃ v ∈ (asked.slices size).entries, a ∈ (slice session how fetch shard (n, v)).entries := by
  rw [shard_eq_counted] at h
  rcases Trail.mem_entries_bind h with h | ⟨_, _, h⟩
  · rcases Trail.mem_entries_bind h with h | ⟨_, _, h⟩
    · obtain ⟨n, v, hv, h⟩ := Trail.mem_entries_foldEach h
      exact ⟨n, v, hv, Trail.mem_entries_counted h⟩
    · cases h
  · cases h

/-- A worker that comes to its end, seen from one of its windows. -/
theorem shard_persist {before after : List TimeSet.Slice} {v : TimeSet.Slice}
    (slices : (asked.slices size).entries = before ++ v :: after)
    (h : (DataWork.shard session .persist fetch size shard asked).outcome = .ok ()) :
    ∃ earlier action later, (DataWork.shard session .persist fetch size shard asked).entries =
        earlier ++ action :: later ∧ Handed session fetch before.length v action ∧
      ∀ part d, .flush part d ∈ later → ∃ u ∈ after, part = u.part := by
  rw [shard_eq_counted] at h ⊢
  obtain ⟨_, folded, _⟩ := Trail.outcome_bind_eq_ok.mp h
  have walked := folded
  rw [Trail.foldOver, slices] at walked
  obtain ⟨_, passed, _⟩ := Trail.outcome_bind_eq_ok.mp walked
  obtain ⟨here, earlier, later, entries, tail⟩ := Trail.foldEach_counted_ok passed
  rw [Nat.zero_add] at here entries
  obtain ⟨first, action, sliced, handed⟩ := slice_persist here
  refine ⟨earlier ++ first, action, later, ?_, handed, fun part d hm => ?_⟩
  · rw [Trail.entries_bind folded, Trail.foldOver, slices, Trail.entries_bind passed, entries,
      sliced]
    simp [Trail.pure]
  · obtain ⟨k, u, hu, hm⟩ := tail _ hm
    refine ⟨u, hu, ?_⟩
    rcases mem_slice_persist hm with h | ⟨_, h⟩ | h <;> cases h
    rfl

end DataWork

variable {t : Tuning} {c : Cluster} {nth : Nat} {r : Request} {session : Session}

theorem actions_quiet {a : Shard × DataAction}
    (h : a ∈ (dataWork t session .persist r).flatMap ShardWork.actions) : a.2.Quiet := by
  rw [dataWork_eq, List.flatMap_map] at h
  obtain ⟨e, _, h⟩ := List.mem_flatMap.mp h
  obtain ⟨b, hb, rfl⟩ := List.mem_map.mp h
  obtain ⟨n, v, _, hb⟩ := DataWork.mem_shard hb
  exact DataWork.slice_quiet hb

/-- A worker that breaks off loses its shard. -/
theorem ends_of_not_lost {how : Delivery} {shard : Shard} {x : Instant}
    (asked : (shard, x) ∈ r.data.ranges)
    (kept : (shard, x) ∉ ShardWork.lost (dataWork t session how r)) :
    (workFor t session how r shard).outcome = .ok () := by
  cases h : (workFor t session how r shard).outcome with
  | ok u => rfl
  | error f =>
    obtain ⟨e, he, rfl⟩ := Coverage.exists_entry asked
    refine absurd (mem_lost.mpr ⟨⟨e.1, e.2, workFor t session how r e.1⟩, ?_, ?_, rfl, ?_⟩) kept
    · rw [dataWork_eq]
      exact List.mem_map_of_mem he
    · simp only [ShardWork.abandoned, h]
    · rw [← Coverage.get_of_mem_entries he]
      exact asked

/-- Every block that is fetched starts where the window does. -/
def Session.Exact (session : Session) : Prop :=
  ∀ nth fetch d, session.blocks nth fetch = .ok d → d.StartAt fetch.window.start

/-- `d` was fetched for the window `w` of a shard. -/
def Fetched (t : Tuning) (session : Session) (r : Request) (shard : Shard) (w : Interval)
    (d : ShardData) : Prop :=
  ∃ n v, (slicesFor r shard)[n]? = some v ∧ v.window = w ∧
    session.blocks n (dataFetch t r shard w) = .ok d

/-- The files of the window `w`. -/
def filesOf (r : Request) (shard : Shard) (w : Interval) : Fileset :=
  Flush.fileset (flushTarget r) shard w.start

/-- Whoever opened the files of the window last put in all that was fetched for it, and closed
them. -/
def Durable (t : Tuning) (session : Session) (r : Request) (history : DiskHistory) (shard : Shard)
    (w : Interval) : Prop :=
  ∃ last, (filesOf r shard w).lastSession history = some last ∧
    (.close (filesOf r shard w), .ok ()) ∈ last ∧
    ∀ d, Fetched t session r shard w d → (filesOf r shard w).Persisted d last

/-- Every window with an instant that was asked for and is not missing is durable. -/
def AllDurable (t : Tuning) (session : Session) (r : Request) (data : RecoveredData)
    (history : DiskHistory) : Prop :=
  ∀ shard (w : Interval), w.Aligned r.policy.blockSize →
    (∃ x ∈ w, (shard, x) ∈ r.data.ranges ∧ (shard, x) ∉ data.missing) →
      Durable t session r history shard w

/-- The windows that are asked for of a shard are told apart by where they start. -/
theorem window_eq_of_start (fits : Fits r) {shard : Shard} {u v : TimeSet.Slice}
    (hu : u ∈ slicesFor r shard) (hv : v ∈ slicesFor r shard)
    (start : u.window.start = v.window.start) : u.window = v.window := by
  obtain ⟨_, _, within⟩ := exists_within fits hu
  obtain ⟨_, _, within'⟩ := exists_within fits hv
  exact within.aligned.eq_of_start within'.aligned start

/-- The files of a window are opened by flushes of that window alone. -/
theorem opens_filesOf (fits : Fits r) {shard : Shard} {u v : TimeSet.Slice}
    (hu : u ∈ slicesFor r shard) (hv : v ∈ slicesFor r shard) {d : ShardData}
    (h : Opens (flushTarget r) (shard, .flush u.part d) (filesOf r shard v.window)) :
    u.window = v.window := by
  obtain ⟨_, _, flush, w, hw, same⟩ := h
  cases flush
  rw [flushTarget, windows_part fits hu] at hw
  cases List.mem_singleton.mp hw
  exact window_eq_of_start fits hu hv (congrArg Fileset.start same).symm

/-- What comes after an element of a sublist picked out by `p`. -/
theorem exists_of_filter_eq {α : Type} {p : α → Bool} {l a b : List α} {x : α}
    (h : l.filter p = a ++ x :: b) :
    ∃ before after, l = before ++ x :: after ∧ after.filter p = b := by
  obtain ⟨l₁, l₂, rfl, _, h⟩ := List.filter_eq_append_iff.mp h
  obtain ⟨m₁, m₂, rfl, _, _, h⟩ := List.filter_eq_cons_iff.mp h
  exact ⟨l₁ ++ m₁, m₂, by rw [List.append_assoc], h⟩

/-- Only the worker of a shard opens its files, and from here on only for later windows. -/
theorem exists_later_of_opens {shard : Shard} {w : Interval} {after : List TimeSet.Slice}
    {last : List (Shard × DataAction)} {later : List DataAction}
    (rest : last.filter (·.1 = shard) = later.map (shard, ·))
    (tail : ∀ part d, .flush part d ∈ later → ∃ u ∈ after, part = u.part)
    {a : Shard × DataAction} (ha : a ∈ last) (h : Opens (flushTarget r) a (filesOf r shard w)) :
    ∃ u ∈ after, ∃ d, a = (shard, .flush u.part d) := by
  obtain ⟨part, d, flush, _, _, same⟩ := h
  have here : a.1 = shard := (congrArg Fileset.shard same).symm
  have mine : a ∈ later.map (shard, ·) := by
    rw [← rest]
    exact List.mem_filter.mpr ⟨ha, by simpa using here⟩
  obtain ⟨b, hb, rfl⟩ := List.mem_map.mp mine
  cases flush
  obtain ⟨u, hu, rfl⟩ := tail part d hb
  exact ⟨u, hu, d, rfl⟩

/-- No other part of the window is asked for. -/
theorem apart_of_once {shard : Shard} {before after : List TimeSet.Slice} {v : TimeSet.Slice}
    {w : Interval} (slices : slicesFor r shard = before ++ v :: after) (window : v.window = w)
    (once : (slicesFor r shard).countP (·.window = w) = 1) :
    (∀ u ∈ before, u.window ≠ w) ∧ ∀ u ∈ after, u.window ≠ w := by
  rw [slices, List.countP_append, List.countP_cons_of_pos (by simpa using window)] at once
  have first : before.countP (·.window = w) = 0 := by omega
  have last : after.countP (·.window = w) = 0 := by omega
  constructor
  · simpa using List.countP_eq_zero.mp first
  · simpa using List.countP_eq_zero.mp last

/-- A window that is asked for in one part is fetched once. -/
theorem only_fetched {shard : Shard} {before after : List TimeSet.Slice} {v : TimeSet.Slice}
    {w : Interval} (slices : slicesFor r shard = before ++ v :: after) (window : v.window = w)
    (once : (slicesFor r shard).countP (·.window = w) = 1) {d d' : ShardData}
    (fetched : session.blocks before.length (dataFetch t r shard w) = .ok d)
    (h : Fetched t session r shard w d') : d' = d := by
  obtain ⟨n, u, hu, same, fetched'⟩ := h
  obtain ⟨first, last⟩ := apart_of_once slices window once
  rw [slices] at hu
  rcases Nat.lt_trichotomy n before.length with lt | rfl | gt
  · rw [List.getElem?_append_left lt] at hu
    exact absurd same (first u (List.mem_of_getElem? hu))
  · rw [fetched] at fetched'
    cases fetched'
    rfl
  · obtain ⟨k, rfl⟩ := Nat.exists_eq_add_of_lt gt
    rw [List.getElem?_append_right (by omega)] at hu
    have past : before.length + k + 1 - before.length = k + 1 := by omega
    rw [past, List.getElem?_cons_succ] at hu
    exact absurd same (last u (List.mem_of_getElem? hu))

/-- Whatever the order in which the workers come: what is not missing was flushed whole, and only
a later part of the same window opens the files again. -/
theorem dataOutcome_keeps {disk : Disk} {l : List (Shard × DataAction)} {shard : Shard}
    {x : Instant} {before after : List TimeSet.Slice} {v : TimeSet.Slice}
    (room : 0 < t.queueCapacity) (fits : Fits r) (starts : session.Exact)
    (quiet : ∀ a ∈ l, a.2.Quiet)
    (own : l.filter (·.1 = shard) = (workFor t session .persist r shard).entries.map (shard, ·))
    (ends : (workFor t session .persist r shard).outcome = .ok ())
    (slices : slicesFor r shard = before ++ v :: after) (hx : x ∈ v.part)
    (kept : (shard, x) ∉ (dataOutcome t (some (disk, flushTarget r)) r l).data.missing) :
    ∃ d, session.blocks before.length (dataFetch t r shard v.window) = .ok d ∧
      ∃ earlier whole later, (dataOutcome t (some (disk, flushTarget r)) r l).history =
        earlier ++ (.prepare (filesOf r shard v.window), .ok ()) :: (whole ++ later) ∧
        (filesOf r shard v.window).Unopened whole ∧ (filesOf r shard v.window).Written d whole ∧
        ((∀ u ∈ after, u.window ≠ v.window) → (filesOf r shard v.window).Unopened later) := by
  have orderly := DataState.orderly_ofCapacity room
  have hv : v ∈ slicesFor r shard := by
    rw [slices]
    exact List.mem_append_right _ List.mem_cons_self
  obtain ⟨_, owed⟩ := DataState.finish_orderly
    (DataState.run_extends disk (flushTarget r) orderly quiet).orderly disk r.data.ranges
  obtain ⟨earlier, action, later, entries, handed, tail⟩ := DataWork.shard_persist slices ends
  have worker : (workFor t session .persist r shard).entries = _ := entries
  rw [worker, List.map_append, List.map_cons] at own
  -- Other shards act in between, but of those that act later only this worker opens these files.
  obtain ⟨first, last, rfl, rest⟩ := exists_of_filter_eq own
  cases handed with
  | miss =>
    exact absurd (owed _ (DataState.run_misses disk (flushTarget r) orderly quiet hx)) kept
  | flush d fetched =>
    rcases DataState.run_flushes disk (flushTarget r) orderly quiet (windows_part fits hv)
      (starts _ _ d fetched) with owes | ⟨front, whole, back, run, unopened, written, alone⟩
    · exact absurd (owed _ (owes x hx)) kept
    · have history := (DataState.finish_history _ disk r.data.ranges).trans run
      refine ⟨d, fetched, front, whole, back, history, unopened, written, fun apart => ?_⟩
      refine alone fun a ha opens => ?_
      obtain ⟨u, hu, d', rfl⟩ := exists_later_of_opens rest tail ha opens
      have hu' : u ∈ slicesFor r shard := by
        rw [slices]
        exact List.mem_append_right _ (List.mem_cons_of_mem _ hu)
      exact apart u hu (opens_filesOf fits hu' hv opens)

theorem diskHistory_openTarget : diskHistory (openTarget t c nth r).entries = [] :=
  List.filterMap_eq_nil_iff.mpr fun e he => by
    rcases mem_entries_openTarget he with rfl | rfl <;> rfl

/-- Nothing but the flushes of the workers speaks to the disk. -/
theorem readData_history {target : Option (Disk × FlushTarget)}
    (opened : c.openSession nth = .ok session)
    (ht : (openTarget t c nth r).outcome = .ok target) :
    diskHistory (readData t c nth r).entries = (dataOutcome t target r
      ((dataWork t session (delivery r target) r).flatMap ShardWork.actions)).history := by
  have counted (missing : Coverage) : diskHistory (phaseDone .peers .data missing) = [] := by
    unfold phaseDone
    split <;> rfl
  rw [readData]
  split
  · rename_i none
    rw [dataWork_eq_nil none]
    cases target with
    | none => rfl
    | some d =>
      exact (DataState.finish_history (.ofCapacity t.queueCapacity) d.1 r.data.ranges).symm
  · simp only [bind, pure, Trail.bind, Trail.pure, Trail.note, Trail.notes, Trail.lift,
      Run.ofExcept, Except.mapError, opened, ht, diskHistory_append, diskHistory_openTarget,
      counted, List.append_nil]
    rfl

/-- What is asked for and not missing was once written whole, with all that its fetch brought. It
still is unless a later part of its window was asked for; and where the window was asked for in one
part, all that was fetched for it is durable. -/
theorem readData_durable {data : RecoveredData} (valid : t.validate = .ok ()) (fits : Fits r)
    (moves : shouldPersist t r = true) (opened : c.openSession nth = .ok session)
    (starts : session.Exact) (h : (readData t c nth r).outcome = .ok data) (shard : Shard)
    (x : Instant) (asked : (shard, x) ∈ r.data.ranges) (kept : (shard, x) ∉ data.missing) :
    let history := diskHistory (readData t c nth r).entries
    let w := Interval.around x r.policy.blockSize
    ∃ before v after d, slicesFor r shard = before ++ v :: after ∧ x ∈ v.part ∧ v.window = w ∧
      session.blocks before.length (dataFetch t r shard w) = .ok d ∧
      (filesOf r shard w).Saved d history ∧
      ((∀ u ∈ after, u.window ≠ w) → (filesOf r shard w).Holds d history) ∧
      ((slicesFor r shard).countP (·.window = w) = 1 → Durable t session r history shard w) := by
  intro history w
  have some : r.data.ranges.isEmpty = false := by
    obtain ⟨e, he, _⟩ := Coverage.exists_entry asked
    exact List.isEmpty_eq_false_iff.mpr (List.ne_nil_of_mem he)
  obtain ⟨session', target, opened', ht, rfl⟩ := readData_ok some h
  cases opened.symm.trans opened'
  have calls : history = _ := readData_history opened ht
  rcases openTarget_ok ht with ⟨stays, _⟩ | ⟨_, disk, _, rfl⟩
  · rw [moves] at stays
    cases stays
  have room := Tuning.queueCapacity_pos valid
  have quiet : ∀ a ∈ (dataWork t session .persist r).flatMap ShardWork.actions, a.2.Quiet :=
    fun a ha => actions_quiet ha
  have canonical := (DataState.finish_orderly (DataState.run_extends disk (flushTarget r)
    (DataState.orderly_ofCapacity room) quiet).orderly disk r.data.ranges).1
  obtain ⟨there, ended⟩ := not_or.mp fun hm => kept ((Coverage.mem_union canonical).mpr hm)
  obtain ⟨v, hv, hx⟩ := (mem_slicesFor fits).mp asked
  obtain ⟨before, after, slices⟩ := List.append_of_mem hv
  obtain ⟨d, fetched, earlier, whole, later, run, unopened, written, alone⟩ :=
    dataOutcome_keeps room fits starts quiet (filter_actions shard)
      (ends_of_not_lost asked ended) slices hx there
  have window : v.window = w := window_eq_around fits hv hx
  rw [window] at fetched run unopened written alone
  have run : history = _ := calls.trans run
  have holds (apart : ∀ u ∈ after, u.window ≠ w) : (filesOf r shard w).Holds d history := by
    refine ⟨whole ++ later, ?_, written.append later⟩
    rw [run]
    exact Fileset.lastSession_append (unopened.append (alone apart))
  refine ⟨before, v, after, d, slices, hx, window, fetched,
    ⟨earlier, whole, later, run, unopened, written⟩, holds, fun once => ?_⟩
  obtain ⟨last, opened, written⟩ := holds (apart_of_once slices window once).2
  refine ⟨last, opened, written.closed, fun d' hd' => ?_⟩
  cases only_fetched slices window once fetched hd'
  exact written.persisted

/-- Has one series in every window. -/
def plain : Session where
  blocks _ f := .ok (ShardData.empty.addBlock [1] .empty f.window.start ⟨[], 0⟩)
  metadata _ _ := .ok []

theorem plain_exact : plain.Exact := by
  intro nth f d h id s start b held here
  cases h
  have series : id = [1] ∧ s = (Series.ofTags .empty).addBlock f.window.start ⟨[], 0⟩ := by
    simpa [ShardData.addBlock, ShardData.empty, eq_comm] using held
  obtain ⟨rfl, rfl⟩ := series
  have block : start = f.window.start ∧ b = ⟨[], 0⟩ := by
    simpa [Series.addBlock, Series.ofTags, eq_comm] using here
  exact block.1

/-- From the call `first` on, refuses the blocks that start at 0. -/
def refusing (first : Nat) : Disk where
  answer nth call :=
    match call with
    | .persist f _ _ _ => if first ≤ nth ∧ f.start = 0 then .error (.persist "full") else .ok ()
    | _ => .ok ()
  done := .ok ()

/-- The second part of the window at 0 is refused: the first was written all the same, and the
window at 10 is durable. -/
theorem readData_durable_parted :
    let policy : Policy := ⟨{ blockSize := 10 }, by decide, by decide⟩
    let options : RunOptions := ⟨⟨true, .flush⟩, .ofOrigin [] 0⟩
    let ranges := ((Coverage.empty.add 0 ⟨0, 3⟩).add 0 ⟨5, 8⟩).add 0 ⟨12, 14⟩
    let request : Request := ⟨[7], policy, [0], none, ⟨ranges, options⟩, ⟨.empty, options⟩⟩
    let tuning : Tuning := ⟨1, 1, 1, 1, .majority, .lru⟩
    let cluster : Cluster :=
      ⟨fun _ => .ok plain, some fun _ => .ok (refusing 4), some fun _ => .ok ()⟩
    let data : RecoveredData := ⟨.empty, Coverage.empty.add 0 ⟨5, 8⟩⟩
    let history := diskHistory (readData tuning cluster 0 request).entries
    (readData tuning cluster 0 request).outcome = .ok data ∧
      (filesOf request 0 ⟨0, 10⟩).Saved (ShardData.empty.addBlock [1] .empty 0 ⟨[], 0⟩) history ∧
      Durable tuning plain request history 0 ⟨10, 20⟩ := by
  intro policy options ranges request tuning cluster data history
  have ok : (readData tuning cluster 0 request).outcome = .ok data := by decide +kernel
  have fits : Fits request := ⟨by decide, Coverage.fitsWords_of_entries (by decide)⟩
  have kept (x : Instant) (asked : (0, x) ∈ request.data.ranges) (there : (0, x) ∉ data.missing) :=
    readData_durable (by decide) fits (by decide) rfl plain_exact ok 0 x asked there
  have first : Interval.around 1 10 = ⟨0, 10⟩ := by decide
  have second : Interval.around 12 10 = ⟨10, 20⟩ := by decide
  obtain ⟨_, _, _, d, _, _, _, fetched, saved, _⟩ := kept 1 (by decide) (by decide)
  obtain ⟨_, _, _, _, _, _, _, _, _, _, durable⟩ := kept 12 (by decide) (by decide)
  refine ⟨ok, ?_, ?_⟩
  · cases fetched
    exact first ▸ saved
  · exact second ▸ durable (by decide)

/-- A block that was fetched and not taken in the last session is enough. -/
theorem plain_undurable {shard : Shard} {w : Interval} {history : DiskHistory} (v : TimeSet.Slice)
    (first : (slicesFor r shard)[0]? = some v) (window : v.window = w)
    (lost : ((filesOf r shard w).lastSession history).all
      ((.persist (filesOf r shard w) [1] .empty ⟨[], 0⟩, .ok ()) ∉ ·) = true) :
    ¬ Durable t plain r history shard w := by
  intro durable
  obtain ⟨last, found, _, persisted⟩ := durable
  have taken := persisted _ ⟨0, v, first, window, rfl⟩ [1]
    ((Series.ofTags .empty).addBlock w.start ⟨[], 0⟩) w.start ⟨[], 0⟩
    (by simp [dataFetch, ShardData.addBlock, ShardData.empty])
    (by simp [Series.addBlock])
  rw [found] at lost
  exact of_decide_eq_true lost taken

/-- A window may be lost though not all that was asked of it is missing. A block that is asked for
in two parts loses the first with the second, and only the second is missing. Where the size of a
block does not fit a word, a second part counts as a block of its own. -/
theorem readData_undurable :
    let options : RunOptions := ⟨⟨true, .flush⟩, .ofOrigin [] 0⟩
    let tuning : Tuning := ⟨1, 1, 1, 1, .majority, .lru⟩
    let cluster (disk : Disk) : Cluster :=
      ⟨fun _ => .ok plain, some fun _ => .ok disk, some fun _ => .ok ()⟩
    let request (policy : Policy) (ranges : Coverage) : Request :=
      ⟨[7], policy, [0], none, ⟨ranges, options⟩, ⟨.empty, options⟩⟩
    let parted := request ⟨{ blockSize := 10 }, by decide, by decide⟩
      ((Coverage.empty.add 0 ⟨0, 3⟩).add 0 ⟨5, 8⟩)
    let wide := request ⟨{ blockSize := 9223372036854775808 }, by decide, by decide⟩
      ((Coverage.empty.add 0 ⟨0, 10⟩).add 0 ⟨20, 30⟩)
    let data (part : Interval) : RecoveredData := ⟨.empty, Coverage.empty.add 0 part⟩
    tuning.validate = .ok () ∧ plain.Exact ∧
      (shouldPersist tuning parted = true ∧ parted.data.ranges.FitsWords ∧
        (readData tuning (cluster (refusing 4)) 0 parted).outcome = .ok (data ⟨5, 8⟩) ∧
        ¬ AllDurable tuning plain parted (data ⟨5, 8⟩)
          (diskHistory (readData tuning (cluster (refusing 4)) 0 parted).entries)) ∧
      (shouldPersist tuning wide = true ∧ wide.data.ranges.FitsWords ∧
        (readData tuning (cluster (refusing 0)) 0 wide).outcome = .ok (data ⟨0, 10⟩) ∧
        ¬ AllDurable tuning plain wide (data ⟨0, 10⟩)
          (diskHistory (readData tuning (cluster (refusing 0)) 0 wide).entries)) := by
  intro options tuning cluster request parted wide data
  refine ⟨by decide, plain_exact, ⟨by decide, Coverage.fitsWords_of_entries (by decide),
    by decide +kernel, fun all => ?_⟩, by decide, Coverage.fitsWords_of_entries (by decide),
    by decide +kernel, fun all => ?_⟩
  · have durable := all 0 ⟨0, 10⟩ ⟨by decide, by decide⟩ ⟨1, by decide, by decide, by decide⟩
    exact plain_undurable ⟨⟨0, 10⟩, ⟨0, 3⟩⟩ (by decide) rfl (by decide +kernel) durable
  · have durable := all 0 ⟨0, 9223372036854775808⟩ ⟨by decide, by decide⟩
      ⟨20, by decide, by decide, by decide⟩
    exact plain_undurable ⟨⟨0, 9223372036854775808⟩, ⟨0, 10⟩⟩ (by decide) rfl (by decide +kernel)
      durable

end Backfill.Peers
