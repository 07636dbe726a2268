import Backfill.Proofs.Findable
import Backfill.Proofs.LogMissing
import Backfill.Proofs.MergeLaws

/-!
Several requests for one namespace in one read of the commit log. There is one replay for each
namespace, and a later request takes the place of an earlier one. What only the earlier one asks for
is neither brought back nor missing.
-/

namespace Backfill

namespace RecoveredData

/-- A block of the series has a point at `t`, or `t` is missing. -/
def Answers (d : RecoveredData) (shard : Shard) (id : SeriesId) (t : Instant) : Prop :=
  (∃ start b, d.block? shard id start = some b ∧ b.HasPoint start t) ∨ (shard, t) ∈ d.missing

variable {shard : Shard} {id : SeriesId} {t : Instant}

theorem not_answers_empty : ¬ empty.Answers shard id t := by
  rintro (⟨start, b, hb, _⟩ | lost)
  · cases hb
  · exact Coverage.not_mem_empty _ lost

theorem answers_empty_merge (d : RecoveredData) :
    (empty.merge d).Answers shard id t ↔ d.Answers shard id t := by
  have blocks (start : Instant) :
    (empty.merge d).block? shard id start = d.block? shard id start := by
    rw [block?_merge]
    exact Option.or_none
  have missing : (shard, t) ∈ (empty.merge d).missing ↔ (shard, t) ∈ d.missing := by
    rw [missing_merge]
    exact (Coverage.mem_union Coverage.Canonical.empty).trans
      (or_iff_right (Coverage.not_mem_empty _))
  simp only [Answers, blocks, missing]

end RecoveredData

namespace Replay

variable {r : Request} {l : List LogEntry} {done : Replay}

theorem filled_ofRequest : (ofRequest r).Filled := fun _ _ _ => nofun

/-- Without snapshots all points come from the log. -/
theorem points_of_log (h : (ofRequest r).applyAll l = .ok done) (shard : Shard) (id : SeriesId)
    (start : Instant) :
    done.points shard id start = l.flatMap ((ofRequest r).brings · shard id start) :=
  (applyAll_ok filled_ofRequest h).2.2 shard id start

/-- What an entry brings is asked for. -/
theorem asked_of_mem_points (h : (ofRequest r).applyAll l = .ok done) {shard : Shard}
    {id : SeriesId} {start : Instant} {p : Point} (hp : p ∈ done.points shard id start) :
    (shard, p.time) ∈ r.data.ranges := by
  rw [points_of_log h] at hp
  obtain ⟨e, _, hp⟩ := List.mem_flatMap.mp hp
  unfold brings at hp
  split at hp
  · rename_i here
    cases List.mem_singleton.mp hp
    obtain ⟨rfl, _, counts⟩ := here
    simp only [LogEntry.counts, Bool.and_eq_true, decide_eq_true_eq] at counts
    exact Coverage.mem_def.mpr counts.1.1
  · cases hp

/-- An entry that is asked for is gathered for its window. -/
theorem mem_points_of_asked (h : (ofRequest r).applyAll l = .ok done) {e : LogEntry} (he : e ∈ l)
    (asked : (e.shard, e.point.time) ∈ r.data.ranges) {start : Instant}
    (hstart : Instant.windowStart e.point.time r.policy.blockSize = .ok start) :
    e.point ∈ done.points e.shard e.id start := by
  rw [points_of_log h]
  refine List.mem_flatMap.mpr ⟨e, he, ?_⟩
  have fresh : ((ofRequest r).snapshotAt e.shard start).any (e.point.time ≤ ·.time) = false := rfl
  rw [brings_eq (ofRequest r) (Coverage.mem_def.mp asked) hstart,
    if_pos ⟨⟨rfl, rfl, rfl⟩, fresh⟩]
  exact List.mem_singleton_self _

/-- A point that was gathered is in a block in the end, or its whole block is missing. -/
theorem answers_of_mem_points {missAll : Bool} {d : RecoveredData}
    (canonical : done.missingData.Canonical) (finished : done.finishData missAll = .ok d)
    {shard : Shard} {id : SeriesId} {start : Instant} {p : Point}
    (hp : p ∈ done.points shard id start) (asked : (shard, p.time) ∈ done.dataRanges)
    (within : p.time ∈ Interval.mk start (start + done.blockSize)) :
    d.Answers shard id p.time := by
  rw [points] at hp
  cases held : done.held? shard id start with
  | none =>
    rw [held] at hp
    cases hp
  | some gathered =>
    rw [held] at hp
    cases written : Block.encode gathered with
    | ok b =>
      refine .inl ⟨start, b, ?_, (Block.hasPoint_encode written start _).mpr ⟨p, hp, rfl⟩⟩
      rw [finishData_ok finished, held, Option.bind_some, written]
      rfl
    | error u =>
      obtain ⟨bucket, hb, key, rfl⟩ := exists_bucket held
      obtain ⟨here, at_⟩ := Prod.ext_iff.mp key
      obtain ⟨_, rfl⟩ := Prod.ext_iff.mp at_
      have unwritten : Unwritten done.blockSize bucket (shard, p.time) :=
        ⟨here.symm, ⟨u, written⟩, within⟩
      exact .inr ((finishData_missing canonical finished _).mpr
        (.inr ⟨asked, .inr ⟨bucket, hb, unwritten⟩⟩))

/-- An entry of the log comes back or is missing just when it is asked for. -/
theorem answers_iff {missAll : Bool} {d : RecoveredData}
    (h : (ofRequest r).applyAll l = .ok done) (finished : done.finishData missAll = .ok d)
    {e : LogEntry} (he : e ∈ l) :
    d.Answers e.shard e.id e.point.time ↔ (e.shard, e.point.time) ∈ r.data.ranges := by
  have request : done.request = r := (applyAll_ok filled_ofRequest h).2.1.request
  have fresh : done.missingData = .empty := applyAll_missing h
  have canonical : done.missingData.Canonical := fresh ▸ Coverage.Canonical.empty
  constructor
  · rintro (⟨start, b, hb, has⟩ | lost)
    · obtain ⟨p, hp, same⟩ := finishData_hasPoint finished hb has
      exact same ▸ asked_of_mem_points h hp
    · rcases (finishData_missing canonical finished _).mp lost with before | ⟨asked, _⟩
      · exact absurd (fresh ▸ before) (Coverage.not_mem_empty _)
      · rwa [dataRanges, request] at asked
  · intro asked
    obtain ⟨start, hstart⟩ := Instant.windowStart_total e.point.time r.policy.blockSize_pos
    refine answers_of_mem_points canonical finished (mem_points_of_asked h he asked hstart) ?_ ?_
    · rwa [dataRanges, request]
    · rw [blockSize, request]
      exact Instant.mem_window r.policy.blockSize_pos hstart

end Replay

namespace CommitLog

variable {o : Options} {requests : List Request} {replays replays' : Replays} {id : NamespaceId}

/-- Of the requests for a namespace the one that is replayed: the last that asks for anything. -/
def replayed? (requests : List Request) (id : NamespaceId) : Option Request :=
  (requests.filter fun r => r.id = id && !isIdle r).getLast?

theorem exists_replayed {r : Request} (hr : r ∈ requests) {p : Shard × Instant}
    (asked : p ∈ r.data.ranges) : ∃ last, replayed? requests r.id = some last := by
  have some : r.data.ranges.isEmpty = false := by
    by_contra none
    rw [Bool.not_eq_false] at none
    rw [Coverage.mem_def, Coverage.get_of_isEmpty none] at asked
    exact TimeSet.not_mem_empty p.2 asked
  have mem : r ∈ requests.filter fun s => s.id = r.id && !isIdle s :=
    List.mem_filter.mpr ⟨hr, by simp [isIdle, some]⟩
  exact Option.isSome_iff_exists.mp (List.getLast?_isSome.mpr (List.ne_nil_of_mem mem))

theorem get?_foldl_ofRequest (l : List Request) (m : Replays) (id : NamespaceId) :
    (l.foldl (fun m r => m.insert r.id (.ofRequest r)) m).get? id =
      ((l.filter (·.id = id)).getLast?.map .ofRequest).or (m.get? id) := by
  induction l generalizing m with
  | nil => rfl
  | cons r l ih =>
    rw [List.foldl_cons, ih, SortedMap.get?_insert, List.filter_cons]
    by_cases here : r.id = id
    · rw [if_pos here.symm, if_pos (by simpa using here), List.getLast?_cons]
      cases (l.filter (·.id = id)).getLast? <;> rfl
    · rw [if_neg (Ne.symm here), if_neg (by simpa using here)]

theorem get?_begin_replayed (requests : List Request) (id : NamespaceId) :
    (begin requests).get? id = (replayed? requests id).map .ofRequest := by
  rw [begin, get?_foldl_ofRequest, List.filter_filter]
  exact Option.or_none

/-- Where no request for the namespace restores snapshots, its replay starts from nothing. -/
theorem restoreRequests_flush {files : Files}
    (flush : ∀ r ∈ requests, r.id = id → r.data.options.persistence.kind = .flush)
    (h : (Trail.foldEach (restoreRequest files) replays requests).outcome = .ok replays') :
    replays'.get? id = replays.get? id := by
  rw [Trail.outcome_foldEach] at h
  refine foldlM_keeps (P := fun m : Replays => m.get? id = replays.get? id)
    (fun r hr m m' same step => ?_) rfl h
  unfold restoreRequest at step
  split at step
  · rename_i replay snapshot held
    obtain ⟨restored, _, step⟩ := Trail.outcome_bind_eq_ok.mp step
    cases step
    have other : id ≠ r.id := by
      rintro rfl
      rw [flush r hr rfl] at snapshot
      cases snapshot
    rw [SortedMap.get?_insert, if_neg other, same]
  · cases step
    exact same

/-- Once the replay of a namespace has ended, later requests for it change nothing. -/
theorem finishRequests_gone {missAll : Bool} {s s' : Replays × Recoveries}
    (h : requests.foldlM (finishRequest missAll) s = .ok s') (gone : s.1.get? id = none) :
    s'.2.get? id = s.2.get? id := by
  refine (foldlM_keeps
    (P := fun m : Replays × Recoveries => m.1.get? id = none ∧ m.2.get? id = s.2.get? id)
    (fun r _ m m' keep step => ?_) ⟨gone, rfl⟩ h).2
  rcases finishRequest_ok step with ⟨_, rfl⟩ | ⟨replay, data, index, held, _, rfl⟩
  · exact keep
  · have other : id ≠ r.id := by
      rintro rfl
      rw [keep.1] at held
      cases held
    simp [other, keep]

/-- The first request for a namespace ends its replay, whichever request that is a replay of. -/
theorem finishRequests_replayed {missAll : Bool} {s s' : Replays × Recoveries} {replay : Replay}
    (h : requests.foldlM (finishRequest missAll) s = .ok s')
    (held : s.1.get? id = some replay) (blank : ∀ f, s.2.get? id = some f → f.data = .empty)
    (named : ∃ r ∈ requests, r.id = id) :
    ∃ f data index, s'.2.get? id = some f ∧ replay.finish missAll = .ok (data, index) ∧
      ∀ shard series t, f.data.Answers shard series t ↔ data.Answers shard series t := by
  induction requests generalizing s with
  | nil => simp at named
  | cons r requests ih =>
    rw [List.foldlM_cons] at h
    obtain ⟨m, step, rest⟩ := bind_eq_ok.mp h
    by_cases here : r.id = id
    · subst here
      rcases finishRequest_ok step with ⟨gone, _⟩ | ⟨_, data, index, held', finished, rfl⟩
      · rw [held] at gone
        cases gone
      · cases held.symm.trans held'
        have last : s'.2.get? r.id = _ := finishRequests_gone rest (by simp)
        rw [Recoveries.get?_insert, if_pos rfl] at last
        refine ⟨_, data, index, last, finished, fun shard series t => ?_⟩
        cases old : s.2.get? r.id with
        | none => rfl
        | some f =>
          change (f.data.merge data).Answers shard series t ↔ _
          rw [blank f old]
          exact RecoveredData.answers_empty_merge data
    · have named : ∃ s ∈ requests, s.id = id := by simpa [here] using named
      rcases finishRequest_ok step with ⟨_, rfl⟩ | ⟨_, data, index, _, _, rfl⟩
      · exact ih rest held blank named
      · exact ih rest (by simpa [Ne.symm here] using held) (by simpa [Ne.symm here] using blank)
          named

theorem idle_data (requests : List Request) {f : Recovery}
    (hf : ((requests.filter isIdle).foldl (fun (m : Recoveries) r => m.insert r.id r.recovery)
      .empty).get? id = some f) : f.data = .empty := by
  refine List.foldlRecOn (motive := fun m : Recoveries => ∀ f, m.get? id = some f → f.data = .empty)
    (requests.filter isIdle) _ (fun f h => by cases h) (fun m blank r _ f hf => ?_) f hf
  rw [Recoveries.get?_insert] at hf
  split at hf
  · rename_i same
    cases hf
    subst same
    cases old : m.get? r.id with
    | none => rfl
    | some f =>
      change f.data.merge .empty = .empty
      rw [blank f old]
      rfl
  · exact blank f hf

/-- What is found for a namespace answers for the log as the one replay of it does. -/
theorem read_answers {items : List (Except Error LogEntry)} (opens : o.files.entries = .ok items)
    {found : Recoveries} (h : (read o requests).outcome = .ok found) {last : Request}
    (chosen : replayed? requests id = some last)
    (flush : ∀ r ∈ requests, r.id = id → r.data.options.persistence.kind = .flush) :
    ∃ f, found.get? id = some f ∧ ∀ e ∈ beforeError items, e.namespaceId = id →
      (f.data.Answers e.shard e.id e.point.time ↔ (e.shard, e.point.time) ∈ last.data.ranges) := by
  have mem := List.mem_of_getLast? chosen
  obtain ⟨listed, own⟩ := List.mem_filter.mp mem
  simp only [Bool.and_eq_true, decide_eq_true_eq, Bool.not_eq_true'] at own
  have begun : (begin requests).get? id = some (.ofRequest last) := by
    rw [get?_begin_replayed, chosen]
    rfl
  unfold read at h
  dsimp only at h
  split at h
  · rename_i none
    have idle := isIdle_of_live_eq_nil none listed
    rw [own.2] at idle
    cases idle
  · obtain ⟨found', h, rest⟩ := Trail.outcome_bind_eq_ok.mp h
    obtain ⟨_, _, rest⟩ := Trail.outcome_bind_eq_ok.mp rest
    cases rest
    unfold readAll at h
    obtain ⟨restored, hrestored, h⟩ := Trail.outcome_bind_eq_ok.mp h
    obtain ⟨_, _, h⟩ := Trail.outcome_bind_eq_ok.mp h
    rw [opens] at h
    dsimp only at h
    rw [readable_fst] at h
    obtain ⟨replayed, hreplayed, h⟩ := Trail.outcome_bind_eq_ok.mp h
    obtain ⟨⟨_, _⟩, hfinished, h⟩ := Trail.outcome_bind_eq_ok.mp h
    cases h
    have seeded := (restoreRequests_flush flush hrestored).trans begun
    obtain ⟨done, applied, held⟩ := (applyEntries_ok hreplayed id).2 _ seeded
    obtain ⟨f, data, index, hf, finished, same⟩ := finishRequests_replayed
      (Run.ofFaulty_eq_ok.mp hfinished) held (fun f hf => idle_data requests hf)
      ⟨last, listed, own.1⟩
    obtain ⟨hdata, _⟩ := Replay.finish_eq_ok.mp finished
    refine ⟨f, hf, fun e he here => ?_⟩
    rw [same]
    exact Replay.answers_iff applied hdata (List.mem_filter.mpr ⟨he, by simpa using here⟩)

/-- Of what is asked for of a namespace and in the log, just that comes back or is missing which the
last of its requests asks for. What only requests before that ask for is dropped without a trace. -/
theorem read_repeated {items : List (Except Error LogEntry)} (opens : o.files.entries = .ok items)
    (onClock : (read o requests).outcome ≠ .error (.fault .dateOverflow)) :
    ∃ found, (read o requests).outcome = .ok found ∧
      ∀ r ∈ requests, (∀ s ∈ requests, s.id = r.id → s.data.options.persistence.kind = .flush) →
        ∀ e ∈ beforeError items, e.namespaceId = r.id → (e.shard, e.point.time) ∈ r.data.ranges →
          ∃ f last, found.get? r.id = some f ∧ replayed? requests r.id = some last ∧
            (f.data.Answers e.shard e.id e.point.time ↔
              (e.shard, e.point.time) ∈ last.data.ranges) := by
  cases h : (read o requests).outcome with
  | error e =>
    rw [runsOut_read o requests e h] at h
    exact absurd h onClock
  | ok found =>
    refine ⟨found, rfl, fun r hr flush e he own asked => ?_⟩
    obtain ⟨last, chosen⟩ := exists_replayed hr asked
    obtain ⟨f, hf, answers⟩ := read_answers opens h chosen flush
    exact ⟨f, last, hf, chosen, answers e he own⟩

/-- Of two requests for one block each, the log has a write for both. The second gets its write
back, and the first does not. -/
theorem read_repeated_twice :
    let entry (t : Instant) : LogEntry := ⟨[7], 0, [1], .empty, ⟨t, ⟨0, .second, none⟩⟩⟩
    let files : Files :=
      ⟨.ok [.ok (entry 2), .ok (entry 12)], fun _ _ => .ok [], fun _ => .ok []⟩
    let policy : Policy := ⟨{ blockSize := 10 }, by decide, by decide⟩
    let options : RunOptions := ⟨⟨false, .flush⟩, .ofOrigin [] 0⟩
    let request (start : Instant) : Request :=
      ⟨[7], policy, [0], none, ⟨.ofShards [0] ⟨start, start + 10⟩, options⟩, ⟨.empty, options⟩⟩
    ∃ found, (read ⟨files, false⟩ [request 0, request 10]).outcome = .ok found ∧
      ∃ f, found.get? [7] = some f ∧ f.data.Answers 0 [1] 12 ∧ ¬ f.data.Answers 0 [1] 2 := by
  intro entry files policy options request
  have ends : (read ⟨files, false⟩ [request 0, request 10]).outcome.toOption.isSome = true := by
    decide +kernel
  have onClock : (read ⟨files, false⟩ [request 0, request 10]).outcome ≠
      .error (.fault .dateOverflow) := by
    intro overflow
    rw [overflow] at ends
    cases ends
  have flush : ∀ s ∈ [request 0, request 10], s.data.options.persistence.kind = .flush := by
    decide
  obtain ⟨found, ok, all⟩ := read_repeated (o := ⟨files, false⟩) rfl onClock
  obtain ⟨f, last, hf, chosen, first⟩ := all (request 0) (by simp) (fun s hs _ => flush s hs)
    (entry 2) (by decide) rfl (by decide)
  obtain ⟨f', last', hf', chosen', second⟩ := all (request 10) (by simp) (fun s hs _ => flush s hs)
    (entry 12) (by decide) rfl (by decide)
  cases hf.symm.trans hf'
  cases chosen
  cases chosen'
  exact ⟨found, ok, f, hf, second.mpr (by decide), fun back => absurd (first.mp back) (by decide)⟩

/-- The log has a write that the first of two requests asks for, and the second does not. Nothing at
all is found. -/
theorem read_drops_first :
    let files : Files := ⟨.ok [.ok ⟨[7], 0, [1], .empty, ⟨2, ⟨0, .second, none⟩⟩⟩],
      fun _ _ => .ok [], fun _ => .ok []⟩
    let policy : Policy := ⟨{ blockSize := 10 }, by decide, by decide⟩
    let options : RunOptions := ⟨⟨false, .flush⟩, .ofOrigin [] 0⟩
    let request (start : Instant) : Request :=
      ⟨[7], policy, [0], none, ⟨.ofShards [0] ⟨start, start + 10⟩, options⟩, ⟨.empty, options⟩⟩
    ∃ found, (read ⟨files, false⟩ [request 0, request 10]).outcome = .ok found ∧
      (0, 2) ∈ (request 0).data.ranges ∧
        ∃ f, found.get? [7] = some f ∧ f.data = .empty ∧ ¬ f.data.Answers 0 [1] 2 := by
  intro files policy options request
  have nothing : (read ⟨files, false⟩ [request 0, request 10]).outcome.toOption.bind
      (fun found => (found.get? [7]).map (·.data)) = some .empty := by decide +kernel
  cases ok : (read ⟨files, false⟩ [request 0, request 10]).outcome with
  | error e =>
    rw [ok] at nothing
    cases nothing
  | ok found =>
    rw [ok] at nothing
    obtain ⟨f, hf, none⟩ := Option.map_eq_some_iff.mp nothing
    exact ⟨found, rfl, by decide, f, hf, none, none ▸ RecoveredData.not_answers_empty⟩

end CommitLog

end Backfill
