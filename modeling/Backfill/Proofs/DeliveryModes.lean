import Backfill.Proofs.WillingDisk
import Backfill.Proofs.WorkerOrder

/-!
A read from peers that writes to disk what it fetches, and one that keeps it, come to the same. The
workers do the same except for what becomes of fetched blocks; what one read keeps for a shard the
other flushes, in the same order, and a disk that takes every call then holds the blocks that the
other read has in memory.
-/

namespace Backfill

namespace ShardData

/-- Of merged data the last has its way. -/
theorem block?_foldl_merge (l : List ShardData) (d : ShardData) (id : SeriesId) (start : Instant) :
    (l.foldl merge d).block? id start =
      (l.filterMap (·.block? id start)).getLast?.or (d.block? id start) := by
  induction l generalizing d with
  | nil => rfl
  | cons a l ih =>
    rw [List.foldl_cons, ih, block?_merge, List.filterMap_cons]
    cases a.block? id start with
    | none => rfl
    | some b =>
      rw [List.getLast?_cons]
      cases (l.filterMap (·.block? id start)).getLast? <;> rfl

/-- Where all that is merged agrees on a block, any of it has a say. -/
theorem block?_foldl_merge_iff {l : List ShardData} {id : SeriesId} {start : Instant}
    (agree : ∀ d ∈ l, ∀ d' ∈ l, ∀ b b', d.block? id start = some b → d'.block? id start = some b' →
      b = b') {b : Block} :
    (l.foldl merge empty).block? id start = some b ↔ ∃ d ∈ l, d.block? id start = some b := by
  rw [block?_foldl_merge, show empty.block? id start = none from rfl, Option.or_none,
    ← List.mem_filterMap]
  constructor
  · exact List.mem_of_getLast?
  · intro h
    obtain ⟨d, hd, held⟩ := List.mem_filterMap.mp h
    obtain ⟨b', last⟩ := Option.isSome_iff_exists.mp
      (List.getLast?_isSome.mpr (List.ne_nil_of_mem h))
    obtain ⟨d', hd', held'⟩ := List.mem_filterMap.mp (List.mem_of_getLast? last)
    rw [last, agree d hd d' hd' b b' held held']

theorem StartAt.eq_of_block {d : ShardData} {place : Instant} (h : d.StartAt place) {id : SeriesId}
    {start : Instant} {b : Block} (held : d.block? id start = some b) : place = start := by
  obtain ⟨s, series, here⟩ := Option.bind_eq_some_iff.mp held
  exact (h id s start b series here).symm

end ShardData

namespace Peers

namespace DataAction

def isEvent : DataAction → Bool
  | .event _ => true
  | _ => false

/-- What is done instead where blocks stay in memory. Events are left out. -/
def inMemory : DataAction → Option DataAction
  | .event _ => none
  | .flush _ d => some (.keep d)
  | a => some a

end DataAction

namespace DataWork

/-- Events apart, `y` does what `x` does, and keeps what `x` flushes. -/
structure Mirrors {α : Type} (y x : Trail DataAction Fault α) : Prop where
  outcome : y.outcome = x.outcome
  entries : y.entries.filter (!·.isEvent) = x.entries.filterMap DataAction.inMemory

namespace Mirrors

variable {α β : Type} {x y : Trail DataAction Fault α}

theorem mem_iff (h : Mirrors y x) {a : DataAction} (acts : a.isEvent = false) :
    a ∈ y.entries ↔ ∃ b ∈ x.entries, b.inMemory = some a := by
  rw [← List.mem_filterMap, ← h.entries, List.mem_filter]
  simp [acts]

theorem miss_mem (h : Mirrors y x) {part : Interval} :
    .miss part ∈ y.entries ↔ .miss part ∈ x.entries := by
  rw [h.mem_iff rfl]
  constructor
  · intro hm
    obtain ⟨b, hb, same⟩ := hm
    cases b <;> cases same
    exact hb
  · exact fun hm => ⟨_, hm, rfl⟩

theorem flush_not_mem (h : Mirrors y x) {part : Interval} {d : ShardData} :
    .flush part d ∉ y.entries := by
  rw [h.mem_iff rfl]
  rintro ⟨b, _, same⟩
  cases b <;> cases same

theorem keep_mem (h : Mirrors y x) {d : ShardData} : .keep d ∈ y.entries ↔
      .keep d ∈ x.entries ∨ ∃ part, .flush part d ∈ x.entries := by
  rw [h.mem_iff rfl]
  constructor
  · intro hm
    obtain ⟨b, hb, same⟩ := hm
    cases b <;> cases same
    · exact .inl hb
    · exact .inr ⟨_, hb⟩
  · intro hm
    rcases hm with hm | ⟨part, hm⟩
    · exact ⟨_, hm, rfl⟩
    · exact ⟨_, hm, rfl⟩

theorem refl_pure (a : α) : Mirrors (.pure a) (.pure a) := ⟨rfl, rfl⟩

theorem bind {f g : α → Trail DataAction Fault β} (h : Mirrors y x)
    (next : ∀ a, Mirrors (g a) (f a)) : Mirrors (y.bind g) (x.bind f) := by
  obtain ⟨l, o⟩ := x
  obtain ⟨l', o'⟩ := y
  obtain ⟨rfl, entries⟩ := h
  cases o' with
  | error e => exact ⟨rfl, entries⟩
  | ok a =>
    refine ⟨(next a).outcome, ?_⟩
    simp only [Trail.bind, List.filter_append, List.filterMap_append, (next a).entries]
    rw [entries]

theorem foldEach {f g : β → α → Trail DataAction Fault β}
    (step : ∀ b a, Mirrors (g b a) (f b a)) (b : β) (l : List α) :
    Mirrors (Trail.foldEach g b l) (Trail.foldEach f b l) := by
  induction l generalizing b with
  | nil => exact .refl_pure b
  | cons a l ih => exact (step b a).bind ih

end Mirrors

variable {session session' : Session} {fetch fetch' : Interval → Fetch}

theorem slice_mirrors (shard : Shard) {n : Nat} {v : TimeSet.Slice}
    (same : session'.blocks n (fetch' v.window) = session.blocks n (fetch v.window)) :
    Mirrors (slice session' .keep fetch' shard (n, v))
      (slice session .persist fetch shard (n, v)) := by
  simp only [slice, same]
  cases session.blocks n (fetch v.window) with
  | ok d => exact ⟨rfl, rfl⟩
  | error e => exact ⟨rfl, rfl⟩
  | crash => exact ⟨rfl, rfl⟩

theorem shard_mirrors (size : Duration) (shard : Shard) (asked : TimeSet)
    (same : ∀ n w, session'.blocks n (fetch' w) = session.blocks n (fetch w)) :
    Mirrors (DataWork.shard session' .keep fetch' size shard asked)
      (DataWork.shard session .persist fetch size shard asked) := by
  rw [shard_eq_counted, shard_eq_counted]
  have step (n : Nat) (v : TimeSet.Slice) :
      Mirrors (Trail.counted (slice session' .keep fetch' shard) n v)
        (Trail.counted (slice session .persist fetch shard) n v) :=
    (slice_mirrors shard (same n v.window)).bind fun _ => .refl_pure _
  exact ((Mirrors.foldEach step 0 _).bind fun _ => ⟨rfl, rfl⟩).bind fun _ => .refl_pure _

end DataWork

/-- All fetches of the namespace's blocks are answered with `g`, which goes by the shard and the
window alone. -/
def Session.Answers (session : Session) (id : NamespaceId)
    (g : Shard → Interval → Reply ShardData) : Prop :=
  ∀ nth f, f.namespaceId = id → session.blocks nth f = g f.shard f.window

/-- `r'` is for the same data of the same namespace. -/
structure SameData (r r' : Request) : Prop where
  id : r'.id = r.id
  size : r'.policy.blockSize = r.policy.blockSize
  ranges : r'.data.ranges = r.data.ranges

variable {t t' : Tuning} {r r' : Request} {session session' : Session}
  {g : Shard → Interval → Reply ShardData}

theorem workFor_mirrors (same : SameData r r') (answers : session.Answers r.id g)
    (answers' : session'.Answers r.id g) (shard : Shard) :
    DataWork.Mirrors (workFor t' session' .keep r' shard) (workFor t session .persist r shard) := by
  rw [workFor, workFor, same.size, same.ranges]
  refine DataWork.shard_mirrors _ shard _ fun n w => ?_
  rw [answers n (dataFetch t r shard w) rfl, answers' n (dataFetch t' r' shard w) same.id]
  rfl

/-- The workers of the same shards break off. -/
theorem lost_mirrors (same : SameData r r') (answers : session.Answers r.id g)
    (answers' : session'.Answers r.id g) :
    ShardWork.lost (dataWork t' session' .keep r') =
      ShardWork.lost (dataWork t session .persist r) := by
  have abandoned (e : Shard × TimeSet) :
      ShardWork.abandoned ⟨e.1, e.2, workFor t' session' .keep r' e.1⟩ =
        ShardWork.abandoned ⟨e.1, e.2, workFor t session .persist r e.1⟩ := by
    have mirrors : DataWork.Mirrors (workFor t' session' .keep r' e.1)
        (workFor t session .persist r e.1) := workFor_mirrors same answers answers' e.1
    simp only [ShardWork.abandoned, mirrors.outcome]
  rw [dataWork_eq, dataWork_eq, same.ranges]
  simp only [ShardWork.lost, List.filter_map, List.foldl_map, Function.comp_def, abandoned]

/-- What the one read keeps for a shard is what the other flushes. -/
theorem mem_keptFor (same : SameData r r') (answers : session.Answers r.id g)
    (answers' : session'.Answers r.id g) {shard : Shard} {d : ShardData} :
    d ∈ DataState.keptFor shard
        ((dataWork t' session' .keep r').flatMap ShardWork.actions) ↔
      ∃ part, (shard, .flush part d) ∈
        (dataWork t session .persist r).flatMap ShardWork.actions := by
  have mirrors : DataWork.Mirrors (workFor t' session' .keep r' shard)
      (workFor t session .persist r shard) := workFor_mirrors same answers answers' shard
  have kept : d ∈ DataState.keptFor shard ((dataWork t' session' .keep r').flatMap
      ShardWork.actions) ↔ .keep d ∈ (workFor t' session' .keep r' shard).entries := by
    rw [DataState.keptFor, filter_actions, List.filterMap_map, List.mem_filterMap]
    constructor
    · intro h
      obtain ⟨a, ha, keeps⟩ := h
      cases a <;> cases keeps
      exact ha
    · exact fun h => ⟨_, h, rfl⟩
  have none : .keep d ∉ (workFor t session .persist r shard).entries := by
    intro h
    obtain ⟨n, v, _, h⟩ := DataWork.mem_shard h
    rcases DataWork.mem_slice_persist h with h | ⟨_, h⟩ | h <;> cases h
  rw [kept, mirrors.keep_mem, or_iff_right none]
  simp only [mem_worker]

theorem mem_flushes {l : List (Shard × DataAction)} {f : Flush} :
    f ∈ l.filterMap QueueRun.flushOf ↔ (f.shard, .flush f.part f.data) ∈ l := by
  rw [List.mem_filterMap]
  constructor
  · intro h
    obtain ⟨⟨shard, a⟩, ha, flushes⟩ := h
    cases a <;> cases flushes
    exact ha
  · exact fun h => ⟨_, h, rfl⟩

theorem filesFor_eq (fits : Fits r) {shard : Shard} {v : TimeSet.Slice} (hv : v ∈ slicesFor r shard)
    (d : ShardData) : filesFor (flushTarget r) ⟨shard, d, v.part⟩ = filesOf r shard v.window := by
  rw [filesOf, window_start_eq fits hv]
  rfl

/-- What is flushed was answered for one of the windows asked for. -/
theorem exists_slice_of_flush (answers : session.Answers r.id g) {shard : Shard} {part : Interval}
    {d : ShardData}
    (h : (shard, .flush part d) ∈ (dataWork t session .persist r).flatMap ShardWork.actions) :
    ∃ v ∈ slicesFor r shard, part = v.part ∧ g shard v.window = .ok d := by
  obtain ⟨n, v, hv, h⟩ := DataWork.mem_shard (mem_worker.mp h)
  rcases DataWork.mem_slice_persist h with h | ⟨_, h⟩ | h <;> cases h
  rename_i fetched
  exact ⟨v, hv, rfl, (answers n (dataFetch t r shard v.window) rfl).symm.trans fetched⟩

/-- Some flush of the shard has the block. -/
def Flushed (t : Tuning) (session : Session) (r : Request) (shard : Shard) (id : SeriesId)
    (start : Instant) (b : Block) : Prop :=
  ∃ part d, (shard, .flush part d) ∈ (dataWork t session .persist r).flatMap ShardWork.actions ∧
    d.block? id start = some b

section Flushes

variable (fits : Fits r) (answers : session.Answers r.id g)

include fits answers

theorem oneWindow_flushing {a : Shard × DataAction}
    (ha : a ∈ (dataWork t session .persist r).flatMap ShardWork.actions) :
    a.2.OneWindow r.policy.blockSize := by
  obtain ⟨shard, action⟩ := a
  intro part d flushes
  dsimp only at flushes
  subst flushes
  obtain ⟨v, hv, rfl, _⟩ := exists_slice_of_flush answers ha
  exact oneWindow_flush fits hv d v.part d rfl

/-- Parts of one window bring the same. -/
theorem flushes_agree : Agree (flushTarget r)
    (((dataWork t session .persist r).flatMap ShardWork.actions).filterMap QueueRun.flushOf) := by
  rintro ⟨shard, d, part⟩ hf ⟨shard', d', part'⟩ hf' same
  obtain ⟨v, hv, rfl, answered⟩ := exists_slice_of_flush answers (mem_flushes.mp hf)
  obtain ⟨v', hv', rfl, answered'⟩ := exists_slice_of_flush answers (mem_flushes.mp hf')
  rw [filesFor_eq fits hv, filesFor_eq fits hv'] at same
  obtain rfl : shard = shard' := congrArg Fileset.shard same
  have window := window_eq_of_start fits hv hv' (congrArg Fileset.start same)
  rw [window, answered'] at answered
  cases answered
  rfl

variable (exact : ∀ shard w d, g shard w = .ok d → d.StartAt w.start)

include exact

/-- A block goes into the files that start where it does. -/
theorem filesFor_of_block {shard : Shard} {part : Interval} {d : ShardData}
    (h : (shard, .flush part d) ∈ (dataWork t session .persist r).flatMap ShardWork.actions)
    {id : SeriesId} {start : Instant} {b : Block} (held : d.block? id start = some b) :
    filesFor (flushTarget r) ⟨shard, d, part⟩ = Flush.fileset (flushTarget r) shard start := by
  obtain ⟨v, hv, rfl, answered⟩ := exists_slice_of_flush answers h
  rw [filesFor_eq fits hv, filesOf, (exact shard v.window d answered).eq_of_block held]

/-- Among the flushes into the files, and so in the shard. -/
theorem flushed_iff {shard : Shard} {id : SeriesId} {start : Instant} {b : Block} :
    (∃ f ∈ ((dataWork t session .persist r).flatMap ShardWork.actions).filterMap QueueRun.flushOf,
      filesFor (flushTarget r) f = Flush.fileset (flushTarget r) shard start ∧
        f.data.block? id start = some b) ↔ Flushed t session r shard id start b := by
  constructor
  · intro h
    obtain ⟨f, hf, same, held⟩ := h
    obtain rfl : f.shard = shard := congrArg Fileset.shard same
    exact ⟨f.part, f.data, mem_flushes.mp hf, held⟩
  · intro h
    obtain ⟨part, d, hf, held⟩ := h
    exact ⟨⟨shard, d, part⟩, mem_flushes.mpr hf, filesFor_of_block fits answers exact hf held,
      held⟩

/-- What the other read keeps is what is flushed. -/
theorem keptFor_block {l : List ShardData} {shard : Shard}
    (kept : ∀ d, d ∈ l ↔ ∃ part, (shard, .flush part d) ∈
      (dataWork t session .persist r).flatMap ShardWork.actions)
    {id : SeriesId} {start : Instant} {b : Block} :
    (l.foldl ShardData.merge .empty).block? id start = some b ↔
      Flushed t session r shard id start b := by
  rw [ShardData.block?_foldl_merge_iff]
  · constructor
    · intro h
      obtain ⟨d, hd, held⟩ := h
      obtain ⟨part, hf⟩ := (kept d).mp hd
      exact ⟨part, d, hf, held⟩
    · intro h
      obtain ⟨part, d, hf, held⟩ := h
      exact ⟨d, (kept d).mpr ⟨part, hf⟩, held⟩
  · intro d hd d' hd' b b' held held'
    obtain ⟨part, hf⟩ := (kept d).mp hd
    obtain ⟨part', hf'⟩ := (kept d').mp hd'
    -- Blocks with one start go into the same files, and flushes into the same files agree.
    have files := filesFor_of_block fits answers exact hf held
    have files' := filesFor_of_block fits answers exact hf' held'
    have data : d = d' := flushes_agree fits answers ⟨shard, d, part⟩ (mem_flushes.mpr hf)
      ⟨shard, d', part'⟩ (mem_flushes.mpr hf') (files.trans files'.symm)
    rw [data, held'] at held
    exact (Option.some.inj held).symm

end Flushes

/-- Where every flush is written, what is missing is what the workers missed. -/
theorem exists_loses_iff_miss {target : Option (Disk × FlushTarget)}
    {l : List (Shard × DataAction)}
    (flushes : target = none → ∀ shard part d, (shard, .flush part d) ∉ l) {p : Shard × Instant} :
    (∃ a ∈ l, DataAction.LosesIf target (fun _ => False) a p) ↔
      ∃ part, (p.1, .miss part) ∈ l ∧ p.2 ∈ part := by
  constructor
  · intro h
    obtain ⟨⟨shard, a⟩, ha, here, loses⟩ := h
    cases a with
    | event e => exact loses.elim
    | keep d => exact loses.elim
    | miss part =>
      obtain rfl : p.1 = shard := here
      exact ⟨part, ha, loses⟩
    | flush part d =>
      cases target with
      | none => exact absurd ha (flushes rfl shard part d)
      | some t => exact loses.2.elim
  · intro h
    obtain ⟨part, ha, hp⟩ := h
    exact ⟨_, ha, rfl, hp⟩

/-- The read can write to a disk that takes every call, and tell the readers. -/
structure Cluster.Writable (c : Cluster) (nth : Nat) (id : NamespaceId) : Prop where
  disk : ∃ start disk, c.startFlush = some start ∧ start nth = .ok disk ∧ disk.Willing
  retriever : ∃ tell, c.retriever = some tell ∧ tell id = .ok ()

/-- The session that the read opens answers with `g`. -/
def Cluster.Serves (c : Cluster) (nth : Nat) (id : NamespaceId)
    (g : Shard → Interval → Reply ShardData) : Prop :=
  ∃ session, c.openSession nth = .ok session ∧ session.Answers id g

variable {c c' : Cluster} {nth nth' : Nat}

theorem openTarget_of_writable (moves : shouldPersist t r = true) (writes : c.Writable nth r.id) :
    ∃ disk : Disk, disk.Willing ∧
      (openTarget t c nth r).outcome = .ok (some (disk, flushTarget r)) := by
  obtain ⟨start, disk, hstart, started, willing⟩ := writes.disk
  obtain ⟨tell, htell, told⟩ := writes.retriever
  refine ⟨disk, willing, ?_⟩
  rw [openTarget, if_pos moves, hstart, htell]
  refine Trail.outcome_bind_eq_ok.mpr ⟨(), rfl, ?_⟩
  refine Trail.outcome_bind_eq_ok.mpr ⟨(), by rw [told]; rfl, ?_⟩
  refine Trail.outcome_bind_eq_ok.mpr ⟨(), rfl, ?_⟩
  exact Trail.outcome_bind_eq_ok.mpr ⟨disk, by rw [started]; rfl, rfl⟩

theorem openTarget_of_stays (stays : shouldPersist t r = false) :
    (openTarget t c nth r).outcome = .ok none := by
  rw [openTarget, stays]
  rfl

section Written

variable {disk : Disk} (valid : t.validate = .ok ()) (fits : Fits r)
  (answers : session.Answers r.id g) (willing : disk.Willing)

include valid fits answers willing

theorem missing_flushing :
    let l := (dataWork t session .persist r).flatMap ShardWork.actions
    let data := (dataOutcome t (some (disk, flushTarget r)) r l).data
    data.missing.Canonical ∧
      ∀ p, p ∈ data.missing ↔ ∃ part, (p.1, .miss part) ∈ l ∧ p.2 ∈ part := by
  intro l data
  have outcome : data.missing.Canonical ∧ ∀ p, p ∈ data.missing ↔
      (∃ a ∈ l, DataAction.LosesIf (some (disk, flushTarget r)) (fun _ => False) a p) ∨ _ :=
    dataOutcome_settles valid fun a ha =>
      DataAction.settles_of_willing willing (oneWindow_flushing fits answers ha)
  refine ⟨outcome.1, fun p => ?_⟩
  rw [outcome.2, exists_loses_iff_miss fun none => by cases none]
  simp [willing.done]

theorem history_flushing :
    let l := (dataWork t session .persist r).flatMap ShardWork.actions
    (dataOutcome t (some (disk, flushTarget r)) r l).history =
      (l.filterMap QueueRun.flushOf).flatMap (flushCalls (flushTarget r)) := by
  intro l
  have start := DataState.sound_ofCapacity (Tuning.queueCapacity_pos valid)
  exact (DataState.finish_history _ disk r.data.ranges).trans
    (DataState.run_willing start willing (fun a ha => actions_quiet ha)
      fun a ha => oneWindow_flushing fits answers ha)

end Written

theorem missing_keeping (valid : t.validate = .ok ()) {l : List (Shard × DataAction)}
    (flushes : ∀ shard part d, (shard, .flush part d) ∉ l) :
    let data := (dataOutcome t none r l).data
    data.missing.Canonical ∧
      ∀ p, p ∈ data.missing ↔ ∃ part, (p.1, .miss part) ∈ l ∧ p.2 ∈ part := by
  intro data
  have outcome : data.missing.Canonical ∧ ∀ p, p ∈ data.missing ↔
      (∃ a ∈ l, DataAction.LosesIf none (fun _ => False) a p) ∨ _ :=
    dataOutcome_settles valid fun _ _ _ _ _ _ none => by cases none
  refine ⟨outcome.1, fun p => ?_⟩
  rw [outcome.2, exists_loses_iff_miss fun _ => flushes]
  simp

theorem block?_keeping (t : Tuning) (r : Request) (l : List (Shard × DataAction)) (lost : Coverage)
    (shard : Shard) (id : SeriesId) (start : Instant) :
    ((dataOutcome t none r l).data.addAllMissing lost).block? shard id start =
      ((DataState.keptFor shard l).foldl ShardData.merge .empty).block? id start := by
  rw [RecoveredData.block?_eq]
  exact congrArg (·.block? id start) (DataState.run_held none _ l shard)

/-- Has one series in every window, but breaks off over shard 1 in the window at 10. -/
def fleeting : Session where
  blocks _ f :=
    if f.shard = 1 ∧ f.window.start = 10 then .crash
    else .ok (ShardData.empty.addBlock [1] .empty f.window.start ⟨[], 0⟩)
  metadata _ _ := .ok []

end Peers

end Backfill
