import Backfill.Proofs.LogContents
import Backfill.Proofs.ReplayIndex

/-!
What a read of the commit log leaves out: every way to lose a part of what is asked for, and that
there is no other. Nothing is given up beyond the block, the shard or the request that the trouble
is with.
-/

namespace Backfill

namespace Replay

variable {r r' : Replay} {e : LogEntry} {fate : EntryFate}

/-- No entry of the log takes away from what is still to be had. -/
theorem apply_missing (h : r.apply e = .ok (r', fate)) : r'.missingData = r.missingData := by
  obtain ⟨m, same, _, h⟩ := apply_parts h
  rw [← same.missing]
  split at h
  · obtain ⟨start, _, h⟩ := bind_eq_ok.mp h
    dsimp only at h
    split at h
    · cases h
      rfl
    · cases h
      rfl
  · cases h
    rfl

theorem applyAll_missing {l : List LogEntry} (h : r.applyAll l = .ok r') :
    r'.missingData = r.missingData := by
  refine foldlM_keeps (P := fun s : Replay => s.missingData = r.missingData)
    (fun e _ s s' hs step => ?_) rfl h
  obtain ⟨⟨s', fate⟩, applied, rfl⟩ := map_eq_ok.mp step
  exact (apply_missing applied).trans hs

theorem mem_missBlock (canonical : r.missingData.Canonical) {shard : Shard} {block : Interval}
    {p : Shard × Instant} : p ∈ (r.missBlock shard block).missingData ↔
      p ∈ r.missingData ∨ p.1 = shard ∧ p.2 ∈ r.dataRanges.get shard ∧ p.2 ∈ block := by
  rw [missBlock, Coverage.mem_addSet canonical, TimeSet.mem_clip]

theorem mem_missShard (canonical : r.missingData.Canonical) {shard : Shard}
    {p : Shard × Instant} : p ∈ (r.missShard shard).missingData ↔
      p ∈ r.missingData ∨ p.1 = shard ∧ p.2 ∈ r.dataRanges.get shard := by
  rw [missShard, Coverage.mem_addSet canonical]

theorem foldl_gather_missing (l : List Bucket) :
    (l.foldl gather r).missingData = r.missingData :=
  List.foldlRecOn (motive := fun s : Replay => s.missingData = r.missingData) l gather rfl
    fun _ hs _ _ => hs

/-- The points that a bucket holds cannot be written. -/
def Unwritten (size : Duration) (b : Bucket) (p : Shard × Instant) : Prop :=
  p.1 = b.shard ∧ (∃ u, Block.encode b.points = .error u) ∧
    p.2 ∈ Interval.mk b.start (b.start + size)

/-- A bucket that cannot be written costs its block, and nothing else. -/
theorem closeBucket_missing {d d' : RecoveredData} (canonical : d.missing.Canonical) {b : Bucket}
    (h : r.closeBucket d b = .ok d') :
    d'.missing.Canonical ∧ ∀ p, p ∈ d'.missing ↔
      p ∈ d.missing ∨ p ∈ r.dataRanges ∧ Unwritten r.blockSize b p := by
  unfold closeBucket at h
  split at h
  · rename_i block written
    cases h
    refine ⟨canonical, fun p => (or_iff_left ?_).symm⟩
    intro lost
    obtain ⟨u, hu⟩ := lost.2.2.1
    rw [written] at hu
    cases hu
  · rename_i u unwritten
    obtain ⟨block, hblock, rfl⟩ := map_eq_ok.mp h
    cases Interval.ofStart_ok hblock
    refine ⟨canonical.addSet _ _, fun p => ?_⟩
    obtain ⟨shard, t⟩ := p
    rw [Coverage.mem_addSet canonical, TimeSet.mem_clip]
    refine or_congr_right ?_
    constructor
    · intro h
      obtain ⟨rfl, asked, within⟩ := h
      exact ⟨asked, rfl, ⟨u, unwritten⟩, within⟩
    · intro h
      obtain ⟨asked, rfl, _, within⟩ := h
      exact ⟨rfl, asked, within⟩

theorem finishData_missing {d : RecoveredData} {missAll : Bool}
    (canonical : r.missingData.Canonical) (h : r.finishData missAll = .ok d) (p : Shard × Instant) :
    p ∈ d.missing ↔ p ∈ r.missingData ∨
      p ∈ r.dataRanges ∧ (missAll = true ∨ ∃ b ∈ r.buckets, Unwritten r.blockSize b p) := by
  obtain ⟨closed, folded, h⟩ := bind_eq_ok.mp h
  obtain ⟨canonical', missing⟩ := foldlM_adds (fun d : RecoveredData => d.missing.Canonical)
    (fun d p => p ∈ d.missing) (fun b p => p ∈ r.dataRanges ∧ Unwritten r.blockSize b p)
    (fun b _ s s' hs step => closeBucket_missing hs step) canonical folded
  have found : p ∈ closed.missing ↔ p ∈ r.missingData ∨
      p ∈ r.dataRanges ∧ ∃ b ∈ r.buckets, Unwritten r.blockSize b p := by
    rw [missing]
    refine or_congr_right ?_
    constructor
    · intro h
      obtain ⟨b, hb, asked, lost⟩ := h
      exact ⟨asked, b, hb, lost⟩
    · intro h
      obtain ⟨asked, b, hb, lost⟩ := h
      exact ⟨b, hb, asked, lost⟩
  cases missAll with
  | false =>
    cases h
    simpa using found
  | true =>
    cases h
    simp only [↓reduceIte, RecoveredData.addAllMissing, true_or, and_true]
    rw [Coverage.mem_union canonical', found]
    constructor
    · intro h
      rcases h with (before | ⟨asked, _⟩) | asked
      · exact .inl before
      · exact .inr asked
      · exact .inr asked
    · intro h
      rcases h with before | asked
      · exact .inl (.inl before)
      · exact .inr asked

end Replay

namespace CommitLog

/-- The volume cannot be read, or one of its series cannot. -/
def Spoiled (files : Files) (info : SnapshotInfo) : Prop :=
  (∃ e, files.read info = .error e) ∨ ∃ volume, files.read info = .ok volume ∧
    ∃ s ∈ volume, ∃ e, s.block.points info.start = .error e

/-- What the snapshots of a shard fail to bring back at an instant. -/
inductive Unrestored (files : Files) (r : Request) (shard : Shard) (t : Instant) : Prop where
  | unlisted {e : Error} (failed : files.list r.id shard = .error e)
  | spoiled {infos : List SnapshotInfo} {chosen : SortedMap Instant SnapshotInfo} {start : Instant}
      {info : SnapshotInfo} (listed : files.list r.id shard = .ok infos)
      (selected :
        SnapshotInfo.select (r.data.ranges.get shard) r.policy.blockSize infos = .ok chosen)
      (held : chosen.get? start = some info) (spoiled : Spoiled files info)
      (within : t ∈ Interval.mk start (start + r.policy.blockSize))

variable {files : Files} {r : Request} {replay replay' : Replay}

theorem legible_eq_false {start : Instant} {volume : List SnapshotSeries} :
    SnapshotSeries.legible start volume = false ↔
      ∃ s ∈ volume, ∃ e, s.block.points start = .error e := by
  rw [SnapshotSeries.legible, List.all_eq_false]
  refine exists_congr fun s => and_congr_right fun _ => ?_
  cases s.block.points start <;> simp [Except.toOption]

theorem restore_missing (request : replay.request = r) (canonical : replay.missingData.Canonical)
    {info : SnapshotInfo} {volume : List SnapshotSeries} (read : files.read info = .ok volume)
    (asked : (r.data.ranges.get info.shard).isEmpty = false)
    (h : replay.restore info volume = .ok replay') :
    replay'.missingData.Canonical ∧ ∀ p, p ∈ replay'.missingData ↔ p ∈ replay.missingData ∨
      p.1 = info.shard ∧ p.2 ∈ r.data.ranges.get info.shard ∧ Spoiled files info ∧
        p.2 ∈ Interval.mk info.start (info.start + r.policy.blockSize) := by
  subst request
  obtain ⟨block, hblock, h⟩ := map_eq_ok.mp h
  cases Interval.ofStart_ok hblock
  rw [Replay.dataRanges, if_neg (by simp [asked])] at h
  have spoiled : Spoiled files info ↔ SnapshotSeries.legible info.start volume = false := by
    rw [legible_eq_false]
    simp [Spoiled, read]
  cases legible : SnapshotSeries.legible info.start volume with
  | true =>
    rw [Replay.readVolume_ok info legible] at h
    subst h
    dsimp only
    rw [Replay.foldl_gather_missing]
    refine ⟨canonical, fun p => (or_iff_left ?_).symm⟩
    intro lost
    exact absurd (spoiled.mp lost.2.2.1) (by simp [legible])
  | false =>
    obtain ⟨e, he⟩ := Replay.readVolume_error info legible
    rw [he] at h
    subst h
    refine ⟨canonical.addSet _ _, fun p => ?_⟩
    rw [Replay.mem_missBlock canonical, Replay.dataRanges, Replay.blockSize]
    simp only [spoiled, legible, true_and]

/-- A volume that is spoiled costs what is asked of its block. -/
theorem restoreVolume_missing {e : Instant × SnapshotInfo} {shard : Shard}
    (request : replay.request = r) (canonical : replay.missingData.Canonical)
    (asked : (r.data.ranges.get shard).isEmpty = false) (hs : e.2.shard = shard)
    (ht : e.2.start = e.1)
    (h : (restoreVolume files r.policy.blockSize shard replay e).outcome = .ok replay') :
    replay'.missingData.Canonical ∧ ∀ p, p ∈ replay'.missingData ↔ p ∈ replay.missingData ∨
      p.1 = shard ∧ p.2 ∈ r.data.ranges.get shard ∧ Spoiled files e.2 ∧
        p.2 ∈ Interval.mk e.1 (e.1 + r.policy.blockSize) := by
  obtain ⟨_, _, h⟩ := Trail.outcome_bind_eq_ok.mp h
  cases hr : files.read e.2 with
  | ok volume =>
    rw [hr] at h
    rw [← hs] at asked ⊢
    rw [← ht]
    exact restore_missing request canonical hr asked (Run.ofFaulty_eq_ok.mp h)
  | error x =>
    rw [hr] at h
    obtain ⟨block, hblock, rfl⟩ := map_eq_ok.mp (Run.ofFaulty_eq_ok.mp h)
    cases Interval.ofStart_ok hblock
    have spoiled : Spoiled files e.2 := .inl ⟨x, hr⟩
    refine ⟨canonical.addSet _ _, fun p => ?_⟩
    rw [Replay.mem_missBlock canonical, Replay.dataRanges, request]
    simp only [spoiled, true_and]

theorem lasting_request (r : Request) : Replay.Lasting (·.request = r) :=
  ⟨fun _ _ _ h => h, fun _ _ h => h, fun _ _ h => h, fun _ _ _ h => h⟩

/-- What is asked of a shard and not restored is missing. -/
theorem restoreShard_missing {e : Shard × TimeSet} (he : e.2 = r.data.ranges.get e.1)
    (asked : e.2.isEmpty = false)
    (listed : ∀ infos, files.list r.id e.1 = .ok infos → ∀ info ∈ infos, info.shard = e.1)
    (request : replay.request = r) (canonical : replay.missingData.Canonical)
    (h : (restoreShard files r replay e).outcome = .ok replay') :
    replay'.missingData.Canonical ∧ ∀ p, p ∈ replay'.missingData ↔ p ∈ replay.missingData ∨
      p.1 = e.1 ∧ p.2 ∈ r.data.ranges.get e.1 ∧ Unrestored files r e.1 p.2 := by
  obtain ⟨_, _, h⟩ := Trail.outcome_bind_eq_ok.mp h
  cases hl : files.list r.id e.1 with
  | error x =>
    rw [hl] at h
    cases h
    refine ⟨canonical.addSet _ _, fun p => ?_⟩
    rw [Replay.mem_missShard canonical, Replay.dataRanges, request]
    have lost : Unrestored files r e.1 p.2 := .unlisted hl
    simp only [lost, and_true]
  | ok infos =>
    rw [hl] at h
    obtain ⟨chosen, hc, h⟩ := Trail.outcome_bind_eq_ok.mp h
    have hc := Run.ofFaulty_eq_ok.mp hc
    rw [Trail.outcome_foldEach] at h
    obtain ⟨⟨_, canonical'⟩, missing⟩ := foldlM_adds
      (fun m : Replay => m.request = r ∧ m.missingData.Canonical) (fun m p => p ∈ m.missingData)
      (fun v p => p.1 = e.1 ∧ p.2 ∈ r.data.ranges.get e.1 ∧ Spoiled files v.2 ∧
        p.2 ∈ Interval.mk v.1 (v.1 + r.policy.blockSize))
      (fun v hv m m' keep step => by
        have pick := SnapshotInfo.select_chosen hc v.1 v.2 (SortedMap.get?_eq_some_iff.mpr hv)
        have volume := restoreVolume_missing keep.1 keep.2 (he ▸ asked)
          (listed infos hl v.2 pick.listed) pick.start step
        exact ⟨⟨(lasting_request r).restoreVolume step keep.1, volume.1⟩, volume.2⟩)
      ⟨request, canonical⟩ h
    refine ⟨canonical', fun p => ?_⟩
    rw [missing]
    refine or_congr_right ?_
    rw [he] at hc
    constructor
    · intro h
      obtain ⟨v, hv, here, ranges, spoiled, within⟩ := h
      exact ⟨here, ranges, .spoiled hl hc (SortedMap.get?_eq_some_iff.mpr hv) spoiled within⟩
    · intro h
      obtain ⟨here, ranges, lost⟩ := h
      cases lost with
      | unlisted failed =>
        rw [hl] at failed
        cases failed
      | spoiled listed' selected held spoiled within =>
        cases hl.symm.trans listed'
        cases hc.symm.trans selected
        exact ⟨_, SortedMap.get?_eq_some_iff.mp held, here, ranges, spoiled, within⟩

theorem restoreAll_missing
    (listed : ∀ shard infos, files.list r.id shard = .ok infos → ∀ info ∈ infos, info.shard = shard)
    (h : restoreAll files r = .ok replay) :
    replay.missingData.Canonical ∧ ∀ p, p ∈ replay.missingData ↔
      p ∈ r.data.ranges ∧ r.data.options.persistence.kind = .snapshot ∧
        Unrestored files r p.1 p.2 := by
  unfold restoreAll at h
  split at h
  · rename_i snapshot
    rw [Trail.outcome_foldEach] at h
    obtain ⟨⟨_, canonical⟩, missing⟩ := foldlM_adds
      (fun m : Replay => m.request = r ∧ m.missingData.Canonical) (fun m p => p ∈ m.missingData)
      (fun e p => p.1 = e.1 ∧ p.2 ∈ r.data.ranges.get e.1 ∧ Unrestored files r e.1 p.2)
      (fun e he m m' keep step => by
        have shard := restoreShard_missing (Coverage.get_of_mem_entries he).symm
          (r.data.ranges.inhabited e he) (listed e.1) keep.1 keep.2 step
        exact ⟨⟨(lasting_request r).restoreShard step keep.1, shard.1⟩, shard.2⟩)
      ⟨rfl, Coverage.Canonical.empty⟩ h
    refine ⟨canonical, fun p => (missing p).trans ?_⟩
    have none : p ∉ (Replay.ofRequest r).missingData := Coverage.not_mem_empty p
    rw [or_iff_right none]
    constructor
    · intro h
      obtain ⟨e, _, here, asked, lost⟩ := h
      rw [← here] at asked lost
      exact ⟨asked, snapshot, lost⟩
    · intro h
      obtain ⟨asked, _, lost⟩ := h
      obtain ⟨e, he, here⟩ := Coverage.exists_entry asked
      rw [← here] at lost
      exact ⟨e, he, here.symm, here ▸ asked, lost⟩
  · rename_i other
    cases h
    refine ⟨Coverage.Canonical.empty, fun p => ?_⟩
    simp only [Replay.ofRequest, Coverage.not_mem_empty, other, false_and, and_false]

/-- Why what is asked for at an instant is not brought back. -/
inductive Lost (o : Options) (r : Request) (shard : Shard) (t : Instant) : Prop where
  /-- There is no log. -/
  | unopened {e : Error} (closed : o.files.entries = .error e)
  /-- The log breaks off, and a log that does is not to be trusted. -/
  | torn {items : List (Except Error LogEntry)} {e : Error} (opens : o.files.entries = .ok items)
      (broken : .error e ∈ items) (strict : o.missAllOnCorruption = true)
  | unrestored (snapshot : r.data.options.persistence.kind = .snapshot)
      (lost : Unrestored o.files r shard t)
  /-- What came together for a series of the block cannot be written. -/
  | unwritten {items : List (Except Error LogEntry)} {id : SeriesId} {start : Instant}
      {u : Segment.Unencodable} (opens : o.files.entries = .ok items)
      (failed : Block.encode (content o.files (beforeError items) r shard id start) = .error u)
      (within : t ∈ Interval.mk start (start + r.policy.blockSize))

variable {o : Options} {requests : List Request}

theorem readable_snd {items : List (Except Error LogEntry)} :
    (readable items).2 = true ↔ ∃ e, .error e ∈ items := by
  induction items with
  | nil => simp [readable]
  | cons item items ih =>
    cases item with
    | error e => simp [readable]
    | ok e => simpa [readable] using ih

/-- A bucket that cannot be written has what came together for its block. -/
theorem exists_unwritten_iff {entries : List LogEntry} {done : Replay} (size : Duration)
    (points : ∀ shard id start, done.points shard id start = content files entries r shard id start)
    (p : Shard × Instant) : (∃ b ∈ done.buckets, Replay.Unwritten size b p) ↔
      ∃ id start, (∃ u, Block.encode (content files entries r p.1 id start) = .error u) ∧
        p.2 ∈ Interval.mk start (start + size) := by
  constructor
  · intro h
    obtain ⟨b, hb, here, failed, within⟩ := h
    refine ⟨b.id, b.start, ?_, within⟩
    rw [here, ← points, Replay.points, Replay.held?_of_mem_buckets hb]
    exact failed
  · intro h
    obtain ⟨id, start, ⟨u, failed⟩, within⟩ := h
    rw [← points, Replay.points] at failed
    cases held : done.held? p.1 id start with
    | none =>
      rw [held] at failed
      cases failed
    | some gathered =>
      obtain ⟨b, hb, key, rfl⟩ := Replay.exists_bucket held
      obtain ⟨here, at_⟩ := Prod.ext_iff.mp key
      obtain ⟨_, rfl⟩ := Prod.ext_iff.mp at_
      rw [held] at failed
      exact ⟨b, hb, here.symm, ⟨u, failed⟩, within⟩

theorem Replayed.mem_missing {items : List (Except Error LogEntry)} {f : Recovery}
    (opens : o.files.entries = .ok items)
    (listed : ∀ shard infos, o.files.list r.id shard = .ok infos →
      ∀ info ∈ infos, info.shard = shard)
    (h : Replayed o.files (beforeError items) ((readable items).2 && o.missAllOnCorruption) r f)
    (shard : Shard) (t : Instant) : (shard, t) ∈ f.data.missing ↔
      t ∈ r.data.ranges.get shard ∧ Lost o r shard t := by
  obtain ⟨seeded, done, data, index, hseeded, hdone, finished, rfl⟩ := h
  obtain ⟨filled, request, seed⟩ := restoreAll_ok listed hseeded
  obtain ⟨_, same, _⟩ := Replay.applyAll_ok filled hdone
  obtain ⟨canonical, restored⟩ := restoreAll_missing listed hseeded
  obtain ⟨hdata, _⟩ := Replay.finish_eq_ok.mp finished
  have ranges : done.dataRanges = r.data.ranges := by
    rw [Replay.dataRanges, same.request, request]
  have size : done.blockSize = r.policy.blockSize := by
    rw [Replay.blockSize, same.request, request]
  have unwritten := exists_unwritten_iff r.policy.blockSize
    (points_eq_content filled request seed hdone) (shard, t)
  dsimp only
  rw [← Replay.applyAll_missing hdone] at canonical restored
  rw [Replay.finishData_missing canonical hdata, restored, ranges, size, unwritten, ← and_or_left]
  refine and_congr_right fun _ => ?_
  constructor
  · intro h
    rcases h with ⟨snapshot, lost⟩ | broken | ⟨id, start, ⟨u, failed⟩, within⟩
    · exact .unrestored snapshot lost
    · obtain ⟨torn, strict⟩ := Bool.and_eq_true_iff.mp broken
      obtain ⟨e, he⟩ := readable_snd.mp torn
      exact .torn opens he strict
    · exact .unwritten opens failed within
  · intro h
    cases h with
    | unopened closed =>
      rw [opens] at closed
      cases closed
    | torn opens' broken strict =>
      cases opens.symm.trans opens'
      exact .inr (.inl (by rw [readable_snd.mpr ⟨_, broken⟩, strict]; rfl))
    | unrestored snapshot lost => exact .inl ⟨snapshot, lost⟩
    | unwritten opens' failed within =>
      cases opens.symm.trans opens'
      exact .inr (.inr ⟨_, _, ⟨_, failed⟩, within⟩)

/-- Where nothing is asked for, nothing is missing. -/
theorem mem_missing_idle (idle : isIdle r = true) (shard : Shard) (t : Instant) :
    (shard, t) ∈ r.recovery.data.missing ↔ t ∈ r.data.ranges.get shard ∧ Lost o r shard t := by
  have none : r.data.ranges.isEmpty = true := (Bool.and_eq_true_iff.mp idle).1
  have unasked : t ∉ r.data.ranges.get shard := by
    rw [Coverage.get_of_isEmpty none]
    exact TimeSet.not_mem_empty t
  have fine : (shard, t) ∉ r.recovery.data.missing := Coverage.not_mem_empty (shard, t)
  exact iff_of_false fine fun lost => unasked lost.1

theorem readable_torn (entries : List (Except Error LogEntry)) (e : Error)
    (rest : List (Except Error LogEntry)) :
    (readable (entries ++ .error e :: rest)).1 = (readable entries).1 := by
  induction entries with
  | nil => rfl
  | cons item entries ih =>
    cases item with
    | error e => rfl
    | ok item =>
      rw [List.cons_append, readable, ih]
      rfl

/-- With another log. -/
def Options.withEntries (o : Options) (entries : List (Except Error LogEntry)) : Options :=
  { o with files := { o.files with entries := .ok entries } }

/-- Where a log that breaks off is still to be trusted, it is read as one that ends there. -/
theorem read_torn {entries rest : List (Except Error LogEntry)} {e : Error}
    (opens : o.files.entries = .ok (entries ++ .error e :: rest))
    (lenient : o.missAllOnCorruption = false) (requests : List Request) :
    read o requests = read (o.withEntries entries) requests := by
  have all (idle : Recoveries) (replays : Replays) : readAll o idle replays requests =
      readAll (o.withEntries entries) idle replays requests := by
    unfold readAll
    rw [opens]
    dsimp only [Options.withEntries]
    rw [readable_torn, lenient, Bool.and_false, Bool.and_false]
    rfl
  unfold read
  dsimp only
  rw [all]

/-- Exactly what is lost of a request is missing, for one of the causes of `Lost` and no other; and
where a log that breaks off is still to be trusted, it is read as one that ends there. -/
theorem read_missing
    (distinct : (requests.map (·.id)).Nodup)
    (listed : ∀ id shard infos, o.files.list id shard = .ok infos →
      ∀ info ∈ infos, info.shard = shard)
    (onClock : (read o requests).outcome ≠ .error (.fault .dateOverflow)) :
    (∃ found, (read o requests).outcome = .ok found ∧
      ∀ r ∈ requests, ∃ f, found.get? r.id = some f ∧ ∀ shard t,
        (shard, t) ∈ f.data.missing ↔ t ∈ r.data.ranges.get shard ∧ Lost o r shard t) ∧
    ∀ entries e rest, o.files.entries = .ok (entries ++ .error e :: rest) →
      o.missAllOnCorruption = false →
        read o requests = read (o.withEntries entries) requests := by
  refine ⟨?_, fun entries e rest opens lenient => read_torn opens lenient requests⟩
  cases h : (read o requests).outcome with
  | error e =>
    rw [runsOut_read o requests e h] at h
    exact absurd h onClock
  | ok found =>
    refine ⟨found, rfl, fun r hr => ?_⟩
    cases opens : o.files.entries with
    | error e =>
      refine ⟨_, read_unopened distinct opens h hr, fun shard t => ?_⟩
      have lost : Lost o r shard t := .unopened opens
      cases idle : isIdle r with
      | false => exact (and_iff_left lost).symm
      | true => exact mem_missing_idle idle shard t
    | ok items =>
      obtain ⟨f, hf, idle, live⟩ := read_replayed distinct opens h hr
      refine ⟨f, hf, fun shard t => ?_⟩
      cases busy : isIdle r with
      | false => exact (live busy).mem_missing opens (listed r.id) shard t
      | true =>
        rw [idle busy]
        exact mem_missing_idle busy shard t

/-- Of shard 0 the volume at 10 cannot be read and the point at 2 ^ 63 cannot be written, the
volumes of shard 1 cannot be listed, and the log breaks off; the block at 0 loses nothing. -/
theorem read_missing_scattered :
    let far : Instant := 9223372036854775808
    let entry (t : Instant) : LogEntry := ⟨[7], 0, [1], .empty, ⟨t, ⟨20, .second, none⟩⟩⟩
    let entries : List (Except Error LogEntry) := [.ok (entry 3), .ok (entry far)]
    let info (start : Instant) : SnapshotInfo := ⟨[7], 0, start, 1, start, true⟩
    let block := (Block.encode [⟨2, ⟨10, .second, none⟩⟩]).toOption.getD ⟨[], 0⟩
    let files : Files :=
      ⟨.ok (entries ++ .error (.commitLog "torn") :: [.ok (entry 4)]),
        fun _ shard => if shard = 0 then .ok [info 0, info 10] else .error (.commitLog "unlisted"),
        fun i => if i.start = 0 then .ok [⟨[1], .empty, block⟩] else .error (.commitLog "unread")⟩
    let o : Options := ⟨files, false⟩
    let policy : Policy := ⟨{ blockSize := 10 }, by decide, by decide⟩
    let options : RunOptions := ⟨⟨false, .snapshot⟩, .ofOrigin [] 0⟩
    let ranges := (Coverage.ofShards [0, 1] ⟨1, 30⟩).add 0 ⟨far, far + 1⟩
    let request : Request := ⟨[7], policy, [0, 1], none, ⟨ranges, options⟩, ⟨.empty, options⟩⟩
    (∃ found, (read o [request]).outcome = .ok found ∧
      ∃ f, found.get? [7] = some f ∧ (0, 15) ∈ f.data.missing ∧ (0, far) ∈ f.data.missing ∧
        (1, 5) ∈ f.data.missing ∧ ¬ Lost o request 0 5) ∧
    read o [request] = read (o.withEntries entries) [request] := by
  intro far entry entries info block files o policy options ranges request
  have ends : ((read o [request]).outcome.toOption.bind (·.get? [7])).map
      (fun f => decide ((0, 5) ∈ f.data.missing)) = some false := by decide +kernel
  have listed : ∀ id shard infos, o.files.list id shard = .ok infos →
      ∀ info ∈ infos, info.shard = shard := by
    intro id shard infos h i hi
    dsimp only [o, files] at h
    split at h
    · cases h
      simp only [List.mem_cons, List.not_mem_nil, or_false] at hi
      rcases hi with rfl | rfl
      · rename_i zero
        exact zero.symm
      · rename_i zero
        exact zero.symm
    · cases h
  have onClock : (read o [request]).outcome ≠ .error (.fault .dateOverflow) := by
    intro overflow
    rw [overflow] at ends
    cases ends
  have distinct : ([request].map (·.id)).Nodup := List.nodup_singleton _
  obtain ⟨⟨found, ok, all⟩, torn⟩ := read_missing distinct listed onClock
  obtain ⟨f, hf, missing⟩ := all request List.mem_cons_self
  have kept : (0, 5) ∉ f.data.missing := by
    rw [ok] at ends
    have hf : found.get? [7] = some f := hf
    simpa [Except.toOption, hf] using ends
  let chosen : SortedMap Instant SnapshotInfo :=
    (SortedMap.empty.insert 0 (info 0)).insert 10 (info 10)
  have selected : SnapshotInfo.select (ranges.get 0) 10 [info 0, info 10] = .ok chosen := by
    decide +kernel
  have held : chosen.get? 10 = some (info 10) := by decide +kernel
  have within : (15 : Instant) ∈ Interval.mk 10 20 := by decide
  have unread : Spoiled files (info 10) := .inl ⟨.commitLog "unread", rfl⟩
  have spoiled : Lost o request 0 15 := .unrestored rfl (.spoiled rfl selected held unread within)
  have failed : Block.encode (content o.files
      (beforeError (entries ++ .error (.commitLog "torn") :: [.ok (entry 4)])) request 0 [1] far) =
        .error (.timeOutOfRange far) := by
    decide +kernel
  have unwritten : Lost o request 0 far := .unwritten rfl failed (by decide)
  refine ⟨⟨found, ok, f, hf, ?_, ?_, ?_, ?_⟩, torn entries _ _ rfl rfl⟩
  · exact (missing 0 15).mpr ⟨by decide, spoiled⟩
  · exact (missing 0 far).mpr ⟨by decide, unwritten⟩
  · exact (missing 1 5).mpr ⟨by decide, .unrestored rfl (.unlisted rfl)⟩
  · intro lost
    exact kept ((missing 0 5).mpr ⟨by decide, lost⟩)

end CommitLog

end Backfill
