import Backfill.Proofs.IndexedEntries
import Backfill.Proofs.LogContents
import Backfill.Proofs.NormalReplay

/-!
A read of the commit log depends on nothing but the last write of each series at each instant, as
long as every series has one set of tags. How often and in which order the writes stand in the log
is lost: the points of a block are put in order, and what the index tells has no order.
-/

namespace Backfill

/-- A later write under the same key takes the place of an earlier one. -/
structure LogKey where
  namespaceId : NamespaceId
  shard : Shard
  id : SeriesId
  time : Instant
  deriving DecidableEq

def LogEntry.key (e : LogEntry) : LogKey := ⟨e.namespaceId, e.shard, e.id, e.point.time⟩

/-- Two writes under one key, of a series with the same tags, tell the same. -/
theorem LogEntry.tells_congr {e e' : LogEntry} (key : e'.key = e.key) (tags : e'.tags = e.tags)
    (asked : Coverage) (size : Duration) :
    (e'.point.time ∈ asked.get e'.shard ↔ e.point.time ∈ asked.get e.shard) ∧
      (e'.OnClock size ↔ e.OnClock size) ∧
      ∀ x, e'.Tells asked size x ↔ e.Tells asked size x := by
  obtain ⟨_, shard, id, time⟩ := LogKey.mk.inj key
  refine ⟨by rw [shard, time], by rw [OnClock, OnClock, id, tags, time], fun x => ?_⟩
  cases x <;> simp only [Tells, shard, id, tags, time]

namespace CommitLog

def lastPoint (l : List LogEntry) (k : LogKey) : Option Point :=
  ((l.filter (·.key = k)).getLast?).map (·.point)

/-- Each series of a namespace has one and the same tags. -/
def OneTagSet (l : List LogEntry) : Prop :=
  ∀ e ∈ l, ∀ e' ∈ l, e.namespaceId = e'.namespaceId → e.id = e'.id → e.tags = e'.tags

/-- Under every key the same writes come in the same order. -/
def SameOrder (l l' : List LogEntry) : Prop := ∀ k, l.filter (·.key = k) = l'.filter (·.key = k)

/-- Under every key the same point comes last, or none does. -/
def SameLast (l l' : List LogEntry) : Prop := ∀ k, lastPoint l k = lastPoint l' k

variable {l l' : List LogEntry}

theorem SameLast.symm (same : SameLast l l') : SameLast l' l := fun k => (same k).symm

theorem lastPoint_isSome {k : LogKey} :
    (lastPoint l k).isSome = true ↔ ∃ e ∈ l, e.key = k := by
  rw [lastPoint, Option.isSome_map, List.getLast?_isSome]
  simp

/-- Whoever writes under a key of the one log writes under it in the other. -/
theorem SameLast.exists_key (same : SameLast l l') {e : LogEntry} (he : e ∈ l) :
    ∃ e' ∈ l', e'.key = e.key := by
  have present := lastPoint_isSome.mpr ⟨e, he, rfl⟩
  rw [same] at present
  exact lastPoint_isSome.mp present

theorem filter_key_eq_nil {k : LogKey} (absent : ∀ e ∈ l, e.key ≠ k) :
    l.filter (·.key = k) = [] := by
  rw [List.filter_eq_nil_iff]
  intro e he here
  exact absent e he (of_decide_eq_true here)

/-- Only keys that someone writes under can tell two logs apart. -/
theorem forall_key_iff {P : LogKey → Prop}
    (silent : ∀ k, l.filter (·.key = k) = [] → l'.filter (·.key = k) = [] → P k) :
    (∀ e ∈ l ++ l', P e.key) ↔ ∀ k, P k := by
  refine ⟨fun h k => ?_, fun h e _ => h e.key⟩
  by_cases written : ∃ e ∈ l ++ l', e.key = k
  · obtain ⟨e, he, rfl⟩ := written
    exact h e he
  · refine silent k (filter_key_eq_nil fun e he here => ?_) (filter_key_eq_nil fun e he here => ?_)
    · exact written ⟨e, List.mem_append_left _ he, here⟩
    · exact written ⟨e, List.mem_append_right _ he, here⟩

instance (l : List LogEntry) : Decidable (OneTagSet l) :=
  inferInstanceAs (Decidable (∀ e ∈ l, ∀ e' ∈ l, _ → _ → e.tags = e'.tags))

instance (l l' : List LogEntry) : Decidable (SameLast l l') :=
  decidable_of_iff (∀ e ∈ l ++ l', lastPoint l e.key = lastPoint l' e.key)
    (forall_key_iff (P := fun k => lastPoint l k = lastPoint l' k) fun k none none' => by
      rw [lastPoint, lastPoint, none, none'])

instance (l l' : List LogEntry) : Decidable (SameOrder l l') :=
  decidable_of_iff (∀ e ∈ l ++ l', l.filter (·.key = e.key) = l'.filter (·.key = e.key))
    (forall_key_iff (P := fun k => l.filter (·.key = k) = l'.filter (·.key = k))
      fun _ none none' => none.trans none'.symm)

theorem lastPoint_filter (l : List LogEntry) (name : NamespaceId) (k : LogKey) :
    lastPoint (l.filter (·.namespaceId = name)) k =
      if k.namespaceId = name then lastPoint l k else none := by
  rw [lastPoint, List.filter_filter]
  split
  · rename_i own
    rw [lastPoint]
    refine congrArg (fun l : List LogEntry => l.getLast?.map (·.point))
      (List.filter_congr fun e _ => ?_)
    by_cases hk : e.key = k
    · have here : e.namespaceId = name := by rw [← own, ← hk, LogEntry.key]
      simp [hk, here]
    · simp [hk]
  · rename_i other
    rw [List.filter_eq_nil_iff.mpr]
    · rfl
    · intro e _ h
      simp only [Bool.and_eq_true, decide_eq_true_eq] at h
      exact other (h.1 ▸ h.2)

theorem SameLast.filter (same : SameLast l l') (name : NamespaceId) :
    SameLast (l.filter (·.namespaceId = name)) (l'.filter (·.namespaceId = name)) := by
  intro k
  rw [lastPoint_filter, lastPoint_filter, same]

/-- The last of the points that go into a block. -/
theorem last?_points {name : NamespaceId} (own : ∀ e ∈ l, e.namespaceId = name)
    (goes : Instant → Bool) (shard : Shard) (id : SeriesId) (t : Instant) :
    Point.last? ((l.filter fun e => e.shard = shard && e.id = id && goes e.point.time).map
      (·.point)) t =
      if goes t then (lastPoint l ⟨name, shard, id, t⟩).map (·.sample) else none := by
  rw [Point.last?, List.filter_map, List.filter_filter]
  split
  · rename_i yes
    rw [lastPoint, List.getLast?_map, Option.map_map, Option.map_map]
    refine congrArg (fun l : List LogEntry => l.getLast?.map (·.point.sample))
      (List.filter_congr fun e he => ?_)
    have here := own e he
    by_cases ht : e.point.time = t
    · simp [LogEntry.key, here, ht, yes]
    · simp [LogEntry.key, ht]
  · rename_i no
    rw [List.filter_eq_nil_iff.mpr]
    · rfl
    · intro e _ h
      simp only [Function.comp_apply, Bool.and_eq_true, decide_eq_true_eq] at h
      exact no (h.1 ▸ h.2.2)

end CommitLog

namespace Replay

variable {r s s' : Replay} {tags : SeriesId → Tags}

/-- What a replay is before the log: nothing is indexed. -/
structure Fresh (r : Replay) : Prop where
  grounded : r.Grounded
  indexed : r.indexed = .empty

theorem fresh_ofRequest (request : Request) : (ofRequest request).Fresh :=
  ⟨⟨fun _ => nofun, fun _ _ => nofun, fun _ _ _ => nofun⟩, rfl⟩

theorem fresh_lasting : Lasting Fresh :=
  ⟨fun _ _ hb h => ⟨h.grounded.gather hb, h.indexed⟩,
    fun _ _ h => ⟨h.grounded.of_series rfl, h.indexed⟩,
    fun _ _ h => ⟨h.grounded.of_series rfl, h.indexed⟩,
    fun _ _ _ h => ⟨h.grounded.of_series rfl, h.indexed⟩⟩

theorem Fresh.tagging (h : r.Fresh) (tags : SeriesId → Tags) : Tagging r tags r := by
  refine ⟨rfl, ?_, ?_⟩
  · rw [h.indexed]
    exact RecoveredIndex.unmarked_empty _
  · rw [h.indexed]
    exact RecoveredIndex.tagged_empty tags

open CommitLog

/-- Two logs of one namespace, whose series have these tags, with the same last writes. -/
structure Versions (name : NamespaceId) (tags : SeriesId → Tags) (m m' : List LogEntry) : Prop where
  own : ∀ e ∈ m, e.namespaceId = name ∧ e.tags = tags e.id
  own' : ∀ e ∈ m', e.namespaceId = name ∧ e.tags = tags e.id
  last : SameLast m m'

namespace Versions

variable {name : NamespaceId} {m m' : List LogEntry}

theorem symm (v : Versions name tags m m') : Versions name tags m' m := ⟨v.own', v.own, v.last.symm⟩

/-- Each write of the one log has its like in the other. -/
theorem exists_like (v : Versions name tags m m') {e : LogEntry} (he : e ∈ m) (asked : Coverage)
    (size : Duration) : ∃ e' ∈ m',
      (e'.point.time ∈ asked.get e'.shard ↔ e.point.time ∈ asked.get e.shard) ∧
        (e'.OnClock size ↔ e.OnClock size) ∧ ∀ x, e'.Tells asked size x ↔ e.Tells asked size x := by
  obtain ⟨e', he', key⟩ := v.last.exists_key he
  have same : e'.tags = e.tags := by
    rw [(v.own' e' he').2, (v.own e he).2, (LogKey.mk.inj key).2.2.1]
  exact ⟨e', he', LogEntry.tells_congr key same asked size⟩

theorem tells (v : Versions name tags m m') {asked : Coverage} {size : Duration} {x : IndexFact}
    (h : ∃ e ∈ m, e.point.time ∈ asked.get e.shard ∧ e.Tells asked size x) :
    ∃ e ∈ m', e.point.time ∈ asked.get e.shard ∧ e.Tells asked size x := by
  obtain ⟨e, he, ha, told⟩ := h
  obtain ⟨e', he', hasked, _, htells⟩ := v.exists_like he asked size
  exact ⟨e', he', hasked.mpr ha, (htells x).mpr told⟩

/-- One log can be replayed as far as the other can. -/
theorem total (v : Versions name tags m m') (fresh : r.Fresh) (h : r.applyAll m = .ok s) :
    ∃ s', r.applyAll m' = .ok s' := by
  refine applyAll_total fun e' he' asked => ?_
  obtain ⟨e, he, hasked, clock, _⟩ := v.symm.exists_like he' r.indexRanges r.indexBlockSize
  have tagged : ∀ e ∈ m, e.tags = tags e.id := fun e he => (v.own e he).2
  exact clock.mp ((fresh.tagging tags).onClock tagged h he (hasked.mpr asked))

variable (v : Versions name tags m m') (fresh : r.Fresh) (h : r.applyAll m = .ok s)
  (h' : r.applyAll m' = .ok s')

include v fresh h h'

/-- Whether a write goes into a block depends on its instant alone, and with it all that come before
it at that instant. -/
theorem samePoints : SamePoints s s' := by
  intro shard id start t
  obtain ⟨_, _, points⟩ := applyAll_ok fresh.grounded.filled h
  obtain ⟨_, _, points'⟩ := applyAll_ok fresh.grounded.filled h'
  have last (l : List LogEntry) (own : ∀ e ∈ l, e.namespaceId = name) :=
    last?_points own (fun t => t ∈ r.dataRanges.get shard &&
      (Instant.windowStart t r.blockSize).toOption = some start &&
        !(r.snapshotAt shard start).any (t ≤ ·.time)) shard id t
  rw [points, points', Point.last?_append, Point.last?_append, flatMap_brings, flatMap_brings]
  -- what was there before the log only counts where the log has nothing
  refine congrArg (fun o : Option Sample => o.or _) ?_
  apply (last m fun e he => (v.own e he).1).trans
  rw [v.last]
  exact (last m' fun e he => (v.own' e he).1).symm

theorem sameIndex : s.indexed = s'.indexed := by
  have start := fresh.tagging tags
  obtain ⟨index, shows⟩ := start.applyAll (fun e he => (v.own e he).2) h
  obtain ⟨index', shows'⟩ := start.applyAll (fun e he => (v.own' e he).2) h'
  refine index.unmarked.ext index'.unmarked index.tagged index'.tagged fun x => ?_
  rw [shows, shows']
  exact or_congr Iff.rfl ⟨fun told => v.tells told, fun told => v.symm.tells told⟩

theorem sameNormal : s.normal = s'.normal := by
  obtain ⟨_, source, _⟩ := applyAll_ok fresh.grounded.filled h
  obtain ⟨_, source', _⟩ := applyAll_ok fresh.grounded.filled h'
  have data := Continues.applyAll fresh.grounded (fun e he => (v.own e he).2) h
  have data' := Continues.applyAll fresh.grounded (fun e he => (v.own' e he).2) h'
  have series := data.grounded.series_normal data'.grounded (v.samePoints fresh h h')
    fun shard id a b ha hb => data.tags_eq data' ha hb
  exact normal_eq (source.request.trans source'.request.symm)
    (source.snapshots.trans source'.snapshots.symm) series (v.sameIndex fresh h h')
    (data.missing.trans data'.missing.symm)

end Versions

end Replay

namespace CommitLog

/-- With these entries in the log, and no error among them. -/
def Options.withLog (o : Options) (l : List LogEntry) : Options :=
  { o with files := { o.files with entries := .ok (l.map .ok) } }

variable {o : Options} {requests : List Request} {replays x y : Replays} {l l' : List LogEntry}

theorem readable_ok (l : List LogEntry) : readable (l.map .ok) = (l, false) := by
  induction l with
  | nil => rfl
  | cons e l ih => rw [List.map_cons, readable, ih]

theorem OneTagSet.exists_tags (one : OneTagSet l) (name : NamespaceId) :
    ∃ tags : SeriesId → Tags, ∀ e ∈ l, e.namespaceId = name → e.tags = tags e.id := by
  refine ⟨fun id => ((l.find? fun e => e.namespaceId = name && e.id = id).map (·.tags)).getD .empty,
    fun e he own => ?_⟩
  cases h : l.find? fun d => d.namespaceId = name && d.id = e.id with
  | none =>
    have none := List.find?_eq_none.mp h e he
    simp [own] at none
  | some d =>
    have found := List.find?_some h
    simp only [Bool.and_eq_true, decide_eq_true_eq] at found
    dsimp only
    rw [h]
    exact one e he d (List.mem_of_find?_eq_some h) (own.trans found.1.symm) found.2.symm

/-- The replays have the same normal forms. -/
def Alike (x y : Replays) : Prop :=
  ∀ id, (x.get? id).map Replay.normal = (y.get? id).map Replay.normal

/-- Every replay can take in its own entries. -/
def Takes (replays : Replays) (l : List LogEntry) : Prop :=
  ∀ id replay, replays.get? id = some replay →
    ∃ done, replay.applyAll (l.filter (·.namespaceId = id)) = .ok done

theorem applyEntry_total {e : LogEntry} (h : Takes replays (e :: l)) :
    ∃ m, (applyEntry replays e).outcome = .ok m ∧ Takes m l := by
  have others {id : NamespaceId} (other : e.namespaceId ≠ id) {replay : Replay}
      (hr : replays.get? id = some replay) :
      ∃ done, replay.applyAll (l.filter (·.namespaceId = id)) = .ok done := by
    have rest := h id replay hr
    rw [List.filter_cons, if_neg (by simp [other])] at rest
    exact rest
  unfold applyEntry
  cases held : replays.get? e.namespaceId with
  | none =>
    refine ⟨replays, rfl, fun id replay hr => others (fun here => ?_) hr⟩
    rw [here, hr] at held
    cases held
  | some before =>
    obtain ⟨done, hdone⟩ := h _ before held
    rw [List.filter_cons, if_pos (by simp), Replay.applyAll, List.foldlM_cons] at hdone
    obtain ⟨after, step, rest⟩ := bind_eq_ok.mp hdone
    obtain ⟨⟨after, fate⟩, applied, rfl⟩ := map_eq_ok.mp step
    refine ⟨replays.insert e.namespaceId after, ?_, fun id replay hr => ?_⟩
    · exact Trail.outcome_bind_eq_ok.mpr ⟨(after, fate), Run.ofFaulty_eq_ok.mpr applied, rfl⟩
    · rw [SortedMap.get?_insert] at hr
      split at hr
      · rename_i here
        cases hr
        subst here
        exact ⟨done, rest⟩
      · rename_i other
        exact others (Ne.symm other) hr

theorem Takes.applyEntries (h : Takes replays l) :
    ∃ replays', (Trail.foldEach applyEntry replays l).outcome = .ok replays' := by
  induction l generalizing replays with
  | nil => exact ⟨replays, rfl⟩
  | cons e l ih =>
    obtain ⟨m, hm, keep⟩ := applyEntry_total h
    obtain ⟨replays', rest⟩ := ih keep
    exact ⟨replays', Trail.outcome_bind_eq_ok.mpr ⟨m, hm, rest⟩⟩

theorem applyEntries_sameLast (fresh : ∀ id replay, replays.get? id = some replay → replay.Fresh)
    (one : OneTagSet (l ++ l')) (same : SameLast l l')
    (h : (Trail.foldEach applyEntry replays l).outcome = .ok x) :
    ∃ y, (Trail.foldEach applyEntry replays l').outcome = .ok y ∧ Alike y x := by
  -- a replay only sees the entries of its own namespace, where each series has its own tags
  have each (id : NamespaceId) (replay : Replay) (hr : replays.get? id = some replay) :
      ∃ done done', x.get? id = some done ∧
        replay.applyAll (l'.filter (·.namespaceId = id)) = .ok done' ∧
          done'.normal = done.normal := by
    obtain ⟨done, hdone, held⟩ := (applyEntries_ok h id).2 replay hr
    obtain ⟨tags, own⟩ := one.exists_tags id
    have mine (m : List LogEntry) (sub : ∀ e ∈ m, e ∈ l ++ l') :
        ∀ e ∈ m.filter (·.namespaceId = id), e.namespaceId = id ∧ e.tags = tags e.id := by
      intro e he
      obtain ⟨he, here⟩ := List.mem_filter.mp he
      have here := of_decide_eq_true here
      exact ⟨here, own e (sub e he) here⟩
    have versions : Replay.Versions id tags _ _ := ⟨mine l fun _ => List.mem_append_left _,
      mine l' fun _ => List.mem_append_right _, same.filter id⟩
    obtain ⟨done', hdone'⟩ := versions.total (fresh id replay hr) hdone
    exact ⟨done, done', held, hdone', versions.symm.sameNormal (fresh id replay hr) hdone' hdone⟩
  have takes : Takes replays l' := fun id replay hr => by
    obtain ⟨_, done', _, hdone', _⟩ := each id replay hr
    exact ⟨done', hdone'⟩
  obtain ⟨y, hy⟩ := takes.applyEntries
  refine ⟨y, hy, fun id => ?_⟩
  obtain ⟨absent, present⟩ := applyEntries_ok hy id
  cases hr : replays.get? id with
  | none => rw [absent hr, (applyEntries_ok h id).1 hr]
  | some replay =>
    obtain ⟨done, done', held, hdone', normal⟩ := each id replay hr
    obtain ⟨last, hlast, held'⟩ := present replay hr
    rw [hdone'] at hlast
    cases hlast
    rw [held, held', Option.map_some, Option.map_some, normal]

/-- Replays with the same normal form finish alike. -/
theorem finishRequest_alike {missAll : Bool} {found : Recoveries} {r : Request}
    (alike : Alike y x) {z : Replays × Recoveries}
    (h : finishRequest missAll (x, found) r = .ok z) :
    ∃ m, finishRequest missAll (y, found) r = .ok (m, z.2) ∧ Alike m z.1 := by
  have here := alike r.id
  unfold finishRequest at h ⊢
  dsimp only at h ⊢
  cases hx : x.get? r.id with
  | none =>
    rw [hx] at h here
    cases h
    rw [Option.map_eq_none_iff.mp here]
    exact ⟨y, rfl, alike⟩
  | some replay =>
    rw [hx] at h here
    obtain ⟨replay', hy, normal⟩ := Option.map_eq_some_iff.mp here
    obtain ⟨⟨data, index⟩, finished, h⟩ := bind_eq_ok.mp h
    cases h
    have finished' : replay'.finish missAll = .ok (data, index) := by
      rw [← Replay.finish_normal, normal, Replay.finish_normal, finished]
    rw [hy]
    refine ⟨y.erase r.id, bind_eq_ok.mpr ⟨(data, index), finished', rfl⟩, fun id => ?_⟩
    rw [SortedMap.get?_erase, SortedMap.get?_erase]
    split
    · rfl
    · exact alike id

theorem finishRequests_alike {missAll : Bool} {found : Recoveries} (alike : Alike y x)
    {z : Replays × Recoveries}
    (h : requests.foldlM (finishRequest missAll) (x, found) = .ok z) :
    ∃ m, requests.foldlM (finishRequest missAll) (y, found) = .ok (m, z.2) := by
  induction requests generalizing x y found with
  | nil =>
    cases h
    exact ⟨y, rfl⟩
  | cons r requests ih =>
    rw [List.foldlM_cons] at h
    obtain ⟨⟨x', found'⟩, step, h⟩ := bind_eq_ok.mp h
    obtain ⟨y', step', alike'⟩ := finishRequest_alike alike step
    obtain ⟨m, rest⟩ := ih alike' h
    refine ⟨m, ?_⟩
    rw [List.foldlM_cons, step']
    exact rest

/-- What begins a read has not met the log. -/
theorem begin_fresh (requests : List Request) :
    ∀ id replay, (begin requests).get? id = some replay → replay.Fresh := by
  refine List.foldlRecOn
    (motive := fun m : Replays => ∀ id replay, m.get? id = some replay → replay.Fresh) _ _
    (fun _ _ => nofun) fun m hm r _ id replay h => ?_
  rw [SortedMap.get?_insert] at h
  split at h
  · cases h
    exact Replay.fresh_ofRequest r
  · exact hm id replay h

theorem readAll_sameLast (one : OneTagSet (l ++ l')) (same : SameLast l l')
    {idle found : Recoveries}
    (h : (readAll (o.withLog l) idle (begin requests) requests).outcome = .ok found) :
    (readAll (o.withLog l') idle (begin requests) requests).outcome = .ok found := by
  unfold readAll at h ⊢
  obtain ⟨restored, hrestored, h⟩ := Trail.outcome_bind_eq_ok.mp h
  obtain ⟨_, _, h⟩ := Trail.outcome_bind_eq_ok.mp h
  dsimp only [Options.withLog] at h
  rw [readable_ok] at h
  obtain ⟨x, hx, h⟩ := Trail.outcome_bind_eq_ok.mp h
  obtain ⟨z, hz, h⟩ := Trail.outcome_bind_eq_ok.mp h
  cases h
  have fresh := Replay.fresh_lasting.restoreRequests hrestored (begin_fresh requests)
  obtain ⟨y, hy, alike⟩ := applyEntries_sameLast fresh one same hx
  obtain ⟨m, hm⟩ := finishRequests_alike alike (Run.ofFaulty_eq_ok.mp hz)
  refine Trail.outcome_bind_eq_ok.mpr ⟨restored, hrestored, ?_⟩
  refine Trail.outcome_bind_eq_ok.mpr ⟨(), rfl, ?_⟩
  dsimp only [Options.withLog]
  rw [readable_ok]
  refine Trail.outcome_bind_eq_ok.mpr ⟨y, hy, ?_⟩
  exact Trail.outcome_bind_eq_ok.mpr ⟨(m, z.2), Run.ofFaulty_eq_ok.mpr hm, rfl⟩

theorem read_ok_of_sameLast (one : OneTagSet (l ++ l')) (same : SameLast l l') {found : Recoveries}
    (h : (read (o.withLog l) requests).outcome = .ok found) :
    (read (o.withLog l') requests).outcome = .ok found := by
  unfold read at h ⊢
  dsimp only at h ⊢
  split at h
  · rename_i none
    rw [if_pos none]
    exact h
  · rename_i some
    rw [if_neg some]
    obtain ⟨found', all, h⟩ := Trail.outcome_bind_eq_ok.mp h
    obtain ⟨_, _, h⟩ := Trail.outcome_bind_eq_ok.mp h
    cases h
    exact Trail.outcome_bind_eq_ok.mpr ⟨found, readAll_sameLast one same all,
      Trail.outcome_bind_eq_ok.mpr ⟨(), rfl, rfl⟩⟩

theorem OneTagSet.of_subset (one : OneTagSet l) (sub : ∀ e ∈ l', e ∈ l) : OneTagSet l' :=
  fun e he e' he' => one e (sub e he) e' (sub e' he')

theorem read_eq_of_sameLast (one : OneTagSet (l ++ l')) (same : SameLast l l') :
    (read (o.withLog l) requests).outcome = (read (o.withLog l') requests).outcome := by
  cases h : (read (o.withLog l) requests).outcome with
  | ok found => exact (read_ok_of_sameLast one same h).symm
  | error e =>
    cases h' : (read (o.withLog l') requests).outcome with
    | error e' =>
      -- there is only one way for a read to fail
      rw [runsOut_read _ _ e h, runsOut_read _ _ e' h']
    | ok found =>
      have swapped : OneTagSet (l' ++ l) := one.of_subset fun e he => by
        rw [List.mem_append] at he ⊢
        exact he.symm
      rw [read_ok_of_sameLast swapped same.symm h'] at h
      cases h

theorem lastPoint_append_self (l : List LogEntry) (k : LogKey) :
    lastPoint (l ++ l) k = lastPoint l k := by
  rw [lastPoint, List.filter_append, List.getLast?_append, Option.or_self, lastPoint]

theorem SameOrder.sameLast (same : SameOrder l l') : SameLast l l' := fun k => by
  rw [lastPoint, same, lastPoint]

theorem SameOrder.mem (same : SameOrder l l') {e : LogEntry} (he : e ∈ l') : e ∈ l := by
  have here : e ∈ l'.filter (·.key = e.key) := List.mem_filter.mpr ⟨he, by simp⟩
  rw [← same] at here
  exact (List.mem_filter.mp here).1

/-- What a read finds depends only on the last write under every key. It does not matter that a log
is replayed twice, or in another order that keeps the writes under each key in theirs. -/
theorem read_last_writes (o : Options) (requests : List Request) :
    (∀ l l', OneTagSet (l ++ l') → SameLast l l' →
      (read (o.withLog l) requests).outcome = (read (o.withLog l') requests).outcome) ∧
    (∀ l, OneTagSet l →
      (read (o.withLog (l ++ l)) requests).outcome = (read (o.withLog l) requests).outcome) ∧
    ∀ l l', OneTagSet l → SameOrder l l' →
      (read (o.withLog l) requests).outcome = (read (o.withLog l') requests).outcome := by
  refine ⟨fun l l' one same => read_eq_of_sameLast one same, fun l one => ?_,
    fun l l' one same => ?_⟩
  · refine read_eq_of_sameLast (one.of_subset fun e he => ?_) (lastPoint_append_self l)
    simpa using he
  · refine read_eq_of_sameLast (one.of_subset fun e he => ?_) same.sameLast
    rcases List.mem_append.mp he with he | he
    · exact he
    · exact same.mem he

/-- On top of a snapshot that was taken at 4, a log with one write over another, what is left of it,
the log twice, and the log in another order. -/
theorem read_last_writes_shuffled :
    let at_ (t : Instant) (bits : UInt64) : Point := ⟨t, ⟨bits, .second, none⟩⟩
    let write (id : SeriesId) (t : Instant) (bits : UInt64) : LogEntry :=
      ⟨[7], 0, id, .empty, at_ t bits⟩
    let block (points : List Point) := (Block.encode points).toOption.getD ⟨[], 0⟩
    let files : Files := ⟨.ok [], fun id shard => .ok [⟨id, shard, 0, 1, 4, true⟩],
      fun _ => .ok [⟨[1], .empty, block [at_ 2 10]⟩]⟩
    let policy : Policy :=
      ⟨{ blockSize := 10, indexed := true, indexBlockSize := 15 }, by decide, by decide⟩
    let asked : Ask := ⟨.ofShards [0] ⟨0, 20⟩, ⟨⟨false, .snapshot⟩, .ofOrigin [] 0⟩⟩
    let request : Request := ⟨[7], policy, [0], none, asked, asked⟩
    let outcome (l : List LogEntry) := (read (Options.withLog ⟨files, false⟩ l) [request]).outcome
    let log := [write [1] 6 21, write [2] 13 40, write [1] 6 23]
    ∃ found, outcome log = .ok found ∧
      outcome [write [2] 13 40, write [1] 6 23] = .ok found ∧
      outcome (log ++ log) = .ok found ∧
      outcome [write [1] 6 21, write [1] 6 23, write [2] 13 40] = .ok found ∧
      ∃ f, found.get? [7] = some f ∧ f.index.index.holds 0 [2] = true ∧
        f.data.block? 0 [1] 0 = some (block [at_ 2 10, at_ 6 23]) := by
  intro at_ write block files policy asked request outcome log
  obtain ⟨last, twice, order⟩ := read_last_writes ⟨files, false⟩ [request]
  have left := last log [write [2] 13 40, write [1] 6 23] (by decide) (by decide)
  have doubled := twice log (by decide)
  have moved := order log [write [1] 6 21, write [1] 6 23, write [2] 13 40] (by decide) (by decide)
  have holds : (outcome log).toOption.bind (fun found => (found.get? [7]).map fun f =>
      (f.index.index.holds 0 [2], f.data.block? 0 [1] 0)) =
        some (true, some (block [at_ 2 10, at_ 6 23])) := by decide +kernel
  cases ok : outcome log with
  | error e =>
    rw [ok] at holds
    cases holds
  | ok found =>
    rw [ok] at holds
    obtain ⟨f, hf, same⟩ := Option.map_eq_some_iff.mp holds
    obtain ⟨indexed, blocks⟩ := Prod.mk.inj same
    exact ⟨found, rfl, left.symm.trans ok, doubled.trans ok, moved.symm.trans ok, f, hf, indexed,
      blocks⟩

end CommitLog

end Backfill
