import Backfill.Proofs.LastWrites
import Backfill.Proofs.PeerIndex

/-!
Reading several namespaces at once is reading each of them on its own, though they share one pass
over the commit log, and the peers are asked for the data of all before they are asked for the
index of any.
-/

namespace Backfill

/-- Together the requests come to an end just when each of them does, and each then gets what it
gets on its own. -/
structure Source.ReadsApart (s : Source) (requests : List Request) : Prop where
  ends : (∃ found, (s.read requests).outcome = .ok found) ↔
    ∀ r ∈ requests, ∃ own, (s.read [r]).outcome = .ok own
  alone : ∀ found, (s.read requests).outcome = .ok found → ∀ r ∈ requests, ∀ own,
    (s.read [r]).outcome = .ok own → ∃ f, found.get? r.id = some f ∧ own.get? r.id = some f

namespace CommitLog

variable {o : Options} {requests : List Request} {replays replays' : Replays}

/-- The replay of a request comes to its end. -/
def Ends (o : Options) (r : Request) : Prop :=
  match o.files.entries with
  | .error _ => ∃ seeded, restoreAll o.files r = .ok seeded
  | .ok items => ∃ f, Replayed o.files (beforeError items)
      ((readable items).2 && o.missAllOnCorruption) r f

theorem Replayed.unique {files : Files} {entries : List LogEntry} {missAll : Bool} {r : Request}
    {f g : Recovery} (hf : Replayed files entries missAll r f)
    (hg : Replayed files entries missAll r g) : f = g := by
  obtain ⟨seeded, done, data, index, restored, applied, finished, rfl⟩ := hf
  obtain ⟨seeded', done', data', index', restored', applied', finished', rfl⟩ := hg
  rw [restored] at restored'
  cases restored'
  rw [applied] at applied'
  cases applied'
  rw [finished] at finished'
  cases finished'
  rfl

theorem get?_begin_unasked {id : NamespaceId} (unasked : ∀ r ∈ requests, r.id ≠ id) :
    (begin requests).get? id = none := by
  refine List.foldlRecOn (motive := fun m : Replays => m.get? id = none) _ _ rfl
    fun m none r hr => ?_
  rw [SortedMap.get?_insert, if_neg (Ne.symm (unasked r (List.mem_filter.mp hr).1))]
  exact none

theorem restoreRequest_keeps {files : Files} {r : Request} {id : NamespaceId} (other : r.id ≠ id)
    (h : (restoreRequest files replays r).outcome = .ok replays') :
    replays'.get? id = replays.get? id := by
  unfold restoreRequest at h
  split at h
  · obtain ⟨seeded, _, h⟩ := Trail.outcome_bind_eq_ok.mp h
    cases h
    rw [SortedMap.get?_insert, if_neg (Ne.symm other)]
  · cases h
    rfl

theorem restoreRequests_total {files : Files} (distinct : (requests.map (·.id)).Nodup)
    (restores : ∀ r ∈ requests, isIdle r = false → ∃ seeded, restoreAll files r = .ok seeded) :
    ∃ restored, (Trail.foldEach (restoreRequest files) (begin requests) requests).outcome =
      .ok restored := by
  rw [Trail.outcome_foldEach]
  refine foldlM_keyed_total Request.id (fun (m : Replays) id => m.get? id) (fun r hr m same => ?_)
    (List.pairwise_map.mp distinct)
  have here : ∃ m', (restoreRequest files m r).outcome = .ok m' := by
    unfold restoreRequest
    split
    · rename_i replay snapshot held
      rw [held, get?_begin distinct hr] at same
      cases busy : isIdle r with
      | true =>
        rw [busy] at same
        cases same
      | false =>
        rw [busy] at same
        cases same
        obtain ⟨seeded, restored⟩ := restores r hr busy
        rw [restoreAll, if_pos snapshot] at restored
        exact ⟨_, Trail.outcome_bind_eq_ok.mpr ⟨seeded, restored, rfl⟩⟩
    · exact ⟨m, rfl⟩
  obtain ⟨m', step⟩ := here
  exact ⟨m', step, fun id other => restoreRequest_keeps other step⟩

/-- What is there after the restoring is what the requests come to one by one. -/
theorem held_restored {files : Files} (distinct : (requests.map (·.id)).Nodup)
    (h : (Trail.foldEach (restoreRequest files) (begin requests) requests).outcome = .ok replays)
    {id : NamespaceId} {replay : Replay} (held : replays.get? id = some replay) :
    ∃ r ∈ requests, r.id = id ∧ isIdle r = false ∧ restoreAll files r = .ok replay := by
  by_cases asked : ∃ r ∈ requests, r.id = id
  · obtain ⟨r, hr, rfl⟩ := asked
    obtain ⟨absent, present⟩ := restoreRequests_ok files distinct h hr
    rw [get?_begin distinct hr] at absent present
    cases busy : isIdle r with
    | true =>
      rw [busy] at absent
      rw [absent rfl] at held
      cases held
    | false =>
      rw [busy] at present
      obtain ⟨seeded, restored, last⟩ := present rfl
      rw [held] at last
      cases last
      exact ⟨r, hr, rfl, busy, restored⟩
  · have unasked : ∀ r ∈ requests, r.id ≠ id := fun r hr here => asked ⟨r, hr, here⟩
    rw [Trail.outcome_foldEach] at h
    have none : replays.get? id = none := foldlM_keeps
      (fun r hr m m' none step => (restoreRequest_keeps (unasked r hr) step).trans none)
      (get?_begin_unasked unasked) h
    rw [none] at held
    cases held

theorem finishRequests_total {missAll : Bool} {found : Recoveries}
    (distinct : (requests.map (·.id)).Nodup)
    (finishes : ∀ r ∈ requests, ∀ replay, replays.get? r.id = some replay →
      ∃ both, replay.finish missAll = .ok both) :
    ∃ last, requests.foldlM (finishRequest missAll) (replays, found) = .ok last := by
  refine foldlM_keyed_total Request.id (fun (s : Replays × Recoveries) id => s.1.get? id)
    (fun r hr s same => ?_) (List.pairwise_map.mp distinct)
  unfold finishRequest
  split
  · exact ⟨s, rfl, fun _ _ => rfl⟩
  · rename_i replay held
    rw [held] at same
    obtain ⟨⟨data, index⟩, finished⟩ := finishes r hr replay same.symm
    refine ⟨_, bind_eq_ok.mpr ⟨(data, index), finished, rfl⟩, fun id other => ?_⟩
    exact (SortedMap.get?_erase ..).trans (if_neg (Ne.symm other))

theorem Ends.restores {r : Request} (ends : Ends o r) :
    ∃ seeded, restoreAll o.files r = .ok seeded := by
  unfold Ends at ends
  split at ends
  · exact ends
  · obtain ⟨_, seeded, _, _, _, restored, _⟩ := ends
    exact ⟨seeded, restored⟩

theorem readAll_total {idle : Recoveries} (distinct : (requests.map (·.id)).Nodup)
    (ends : ∀ r ∈ requests, isIdle r = false → Ends o r) :
    ∃ found, (readAll o idle (begin requests) requests).outcome = .ok found := by
  obtain ⟨restored, hrestored⟩ := restoreRequests_total distinct
    fun r hr busy => (ends r hr busy).restores
  unfold readAll
  cases opens : o.files.entries with
  | error e =>
    exact ⟨_, Trail.outcome_bind_eq_ok.mpr ⟨restored, hrestored,
      Trail.outcome_bind_eq_ok.mpr ⟨(), rfl, rfl⟩⟩⟩
  | ok items =>
    simp only [Ends, opens, ← readable_fst] at ends
    have takes : Takes restored (readable items).1 := by
      intro id replay held
      obtain ⟨r, hr, rfl, busy, hseeded⟩ := held_restored distinct hrestored held
      obtain ⟨_, seeded, done, _, _, hseeded', applied, _⟩ := ends r hr busy
      rw [hseeded] at hseeded'
      cases hseeded'
      exact ⟨done, applied⟩
    obtain ⟨replayed, hreplayed⟩ := takes.applyEntries
    have finishes : ∃ last, requests.foldlM
        (finishRequest ((readable items).2 && o.missAllOnCorruption)) (replayed, idle) =
          .ok last := by
      refine finishRequests_total distinct fun r hr replay held => ?_
      obtain ⟨absent, present⟩ := applyEntries_ok hreplayed r.id
      cases before : restored.get? r.id with
      | none =>
        rw [absent before] at held
        cases held
      | some seeded =>
        obtain ⟨s, hs, same, busy, hseeded⟩ := held_restored distinct hrestored before
        cases List.inj_on_of_nodup_map distinct hs hr same
        obtain ⟨_, seeded', done, data, index, hseeded', applied, finished, _⟩ := ends r hr busy
        rw [hseeded] at hseeded'
        cases hseeded'
        obtain ⟨done', applied', last⟩ := present seeded before
        rw [applied] at applied'
        cases applied'
        rw [held] at last
        cases last
        exact ⟨_, finished⟩
    obtain ⟨last, finished⟩ := finishes
    exact ⟨last.2, Trail.outcome_bind_eq_ok.mpr ⟨restored, hrestored,
      Trail.outcome_bind_eq_ok.mpr ⟨(), rfl, Trail.outcome_bind_eq_ok.mpr ⟨replayed, hreplayed,
        Trail.outcome_bind_eq_ok.mpr ⟨last, Run.ofFaulty_eq_ok.mpr finished, rfl⟩⟩⟩⟩⟩

/-- A read comes to its end just when the replay of each request does that asks for something. -/
theorem read_ends_iff (distinct : (requests.map (·.id)).Nodup) :
    (∃ found, (read o requests).outcome = .ok found) ↔
      ∀ r ∈ requests, isIdle r = false → Ends o r := by
  constructor
  · rintro ⟨found, h⟩ r hr busy
    unfold Ends
    cases opens : o.files.entries with
    | ok items =>
      obtain ⟨f, _, _, replayed⟩ := read_replayed distinct opens h hr
      exact ⟨f, replayed busy⟩
    | error e =>
      unfold read at h
      dsimp only at h
      split at h
      · rename_i none
        rw [isIdle_of_live_eq_nil none hr] at busy
        cases busy
      · obtain ⟨_, h, _⟩ := Trail.outcome_bind_eq_ok.mp h
        obtain ⟨restored, hrestored, _⟩ := Trail.outcome_bind_eq_ok.mp h
        obtain ⟨seeded, restores, _⟩ := (restoreRequests_ok o.files distinct hrestored hr).2 (by
          rw [get?_begin distinct hr, busy]
          rfl)
        exact ⟨seeded, restores⟩
  · intro ends
    unfold read
    dsimp only
    split
    · exact ⟨_, rfl⟩
    · obtain ⟨found, all⟩ := readAll_total distinct ends
      exact ⟨found, Trail.outcome_bind_eq_ok.mpr ⟨found, all,
        Trail.outcome_bind_eq_ok.mpr ⟨(), rfl, rfl⟩⟩⟩

/-- What a request gets depends on nothing but the request. -/
theorem read_get?_unique {requests' : List Request} (distinct : (requests.map (·.id)).Nodup)
    (distinct' : (requests'.map (·.id)).Nodup) {found found' : Recoveries}
    (h : (read o requests).outcome = .ok found) (h' : (read o requests').outcome = .ok found')
    {r : Request} (hr : r ∈ requests) (hr' : r ∈ requests') :
    ∃ f, found.get? r.id = some f ∧ found'.get? r.id = some f := by
  cases opens : o.files.entries with
  | error e =>
    exact ⟨_, read_unopened distinct opens h hr, read_unopened distinct' opens h' hr'⟩
  | ok items =>
    obtain ⟨f, held, idle, replayed⟩ := read_replayed distinct opens h hr
    obtain ⟨g, held', idle', replayed'⟩ := read_replayed distinct' opens h' hr'
    refine ⟨f, held, ?_⟩
    rw [held']
    cases busy : isIdle r with
    | true => rw [idle busy, idle' busy]
    | false => rw [(replayed busy).unique (replayed' busy)]

theorem source_readsApart (o : Options) (distinct : (requests.map (·.id)).Nodup) :
    (source o).ReadsApart requests where
  ends := by
    apply (read_ends_iff distinct).trans
    constructor
    · intro ends r hr
      exact (read_ends_iff (Request.distinct_single r)).mpr fun s hs busy => by
        cases List.mem_singleton.mp hs
        exact ends r hr busy
    · intro ends r hr
      exact (read_ends_iff (Request.distinct_single r)).mp (ends r hr) r List.mem_cons_self
  alone found h r hr own h' :=
    read_get?_unique distinct (Request.distinct_single r) h h' hr (List.mem_singleton.mpr rfl)

theorem count_logOpened_restoreRequest (files : Files) (replays : Replays) (r : Request) :
    (restoreRequest files replays r).entries.count .logOpened = 0 := by
  have volume (replay : Replay) (shard : Shard) (e : Instant × SnapshotInfo) :
      (restoreVolume files r.policy.blockSize shard replay e).entries.count .logOpened = 0 := by
    refine Nat.le_zero.mp (Trail.count_bind_le (n := 0) (m := 0) (Nat.le_refl 0) fun _ => ?_)
    split <;> exact Nat.le_refl 0
  have shard (replay : Replay) (e : Shard × TimeSet) :
      (restoreShard files r replay e).entries.count .logOpened = 0 := by
    refine Nat.le_zero.mp (Trail.count_bind_le (n := 0) (m := 0) (Nat.le_refl 0) fun _ => ?_)
    split
    · exact Nat.le_refl 0
    · refine Trail.count_bind_le (n := 0) (m := 0) (Nat.le_refl 0) fun chosen => ?_
      exact Nat.le_of_eq (Trail.count_foldEach (fun replay v => volume replay e.1 v) _ _)
  unfold restoreRequest
  split
  · refine Nat.le_zero.mp (Trail.count_bind_le (n := 0) (m := 0) ?_ fun _ => Nat.le_refl 0)
    exact Nat.le_of_eq (Trail.count_foldEach shard _ _)
  · rfl

theorem count_logOpened_applyEntry (replays : Replays) (e : LogEntry) :
    (applyEntry replays e).entries.count .logOpened = 0 := by
  unfold applyEntry
  split
  · rfl
  · refine Nat.le_zero.mp (Trail.count_bind_le (n := 0) (m := 0) (Nat.le_refl 0) fun _ => ?_)
    exact Nat.le_refl 0

theorem count_logOpened_phasesDone (found : Recoveries) (r : Request) :
    (phasesDone found r).count .logOpened = 0 := by
  rw [List.count_eq_zero]
  intro h
  unfold phasesDone at h
  split at h
  · cases h
  · simp only [phaseDone, List.mem_append, List.mem_ite_nil_left, List.mem_cons] at h
    simp at h

/-- However many namespaces are read, the log is opened once, if at all. -/
theorem count_logOpened_read (o : Options) (requests : List Request) :
    (read o requests).entries.count .logOpened ≤ 1 := by
  unfold read
  dsimp only
  split
  · exact Nat.zero_le 1
  · refine Trail.count_bind_le (n := 1) (m := 0) ?_ fun found => ?_
    · have restoring := Trail.count_foldEach (count_logOpened_restoreRequest o.files)
      refine Trail.count_bind_le (n := 0) (m := 1) (Nat.le_of_eq (restoring _ _)) fun _ => ?_
      refine Trail.count_bind_le (n := 1) (m := 0) (Nat.le_refl 1) fun _ => ?_
      split
      · exact Nat.le_refl 0
      · have applying := Trail.count_foldEach count_logOpened_applyEntry
        refine Trail.count_bind_le (n := 0) (m := 0) (Nat.le_of_eq (applying _ _)) fun _ => ?_
        exact Trail.count_bind_le (n := 0) (m := 0) (Nat.le_refl 0) fun _ => Nat.le_refl 0
    · refine Trail.count_bind_le (n := 0) (m := 0) ?_ fun _ => Nat.le_refl 0
      refine Nat.le_of_eq (List.count_eq_zero.mpr fun h => ?_)
      obtain ⟨r, _, h⟩ := List.mem_flatMap.mp h
      exact List.count_eq_zero.mp (count_logOpened_phasesDone found r) h

end CommitLog

namespace Peers

/-- Neither sessions nor flushes depend on how many were opened before. -/
structure Cluster.Unnumbered (c : Cluster) : Prop where
  session : ∀ nth, c.openSession nth = c.openSession 0
  flush : ∀ start, c.startFlush = some start → ∀ nth, start nth = start 0

variable {t : Tuning} {c : Cluster} {requests : List Request} {r : Request}

namespace Cluster.Unnumbered

variable (calm : c.Unnumbered)

include calm

theorem openTarget (nth : Nat) (r : Request) : openTarget t c nth r = openTarget t c 0 r := by
  unfold Peers.openTarget
  split
  · cases opens : c.startFlush with
    | none => rfl
    | some start =>
      have same := calm.flush start opens nth
      cases c.retriever with
      | none => rfl
      | some retriever => simp only [same]
  · rfl

theorem readData (nth : Nat) (r : Request) : readData t c nth r = readData t c 0 r := by
  rw [Peers.readData, Peers.readData, calm.session nth, calm.openTarget nth]

theorem readIndex (nth : Nat) (r : Request) : readIndex t c nth r = readIndex t c 0 r := by
  rw [Peers.readIndex, Peers.readIndex, calm.session nth]

/-- What a request gets depends on nothing but the request. -/
theorem readOf_unique {f g : Recovery} (hf : ReadOf t c r f) (hg : ReadOf t c r g) : f = g := by
  have data : f.data = g.data := by
    obtain ⟨n, here⟩ := hf.data
    obtain ⟨m, there⟩ := hg.data
    rw [calm.readData] at here there
    exact Except.ok.inj (here.symm.trans there)
  have index : f.index = g.index := by
    cases indexed : r.policy.indexed with
    | false => rw [hf.unindexed indexed, hg.unindexed indexed]
    | true =>
      obtain ⟨n, here⟩ := hf.index indexed
      obtain ⟨m, there⟩ := hg.index indexed
      rw [calm.readIndex] at here there
      exact Except.ok.inj (here.symm.trans there)
  rw [hf.terms, hg.terms, data, index]

theorem read_ends (parts : ∀ r ∈ requests, ∃ f, ReadOf t c r f) :
    ∃ found, (read t c requests).outcome = .ok found := by
  have dataOf : ∀ r ∈ requests, ∀ p : Progress, True →
      ∃ p', (readDataOf t c p r).outcome = .ok p' ∧ True := by
    intro r hr p _
    obtain ⟨f, part⟩ := parts r hr
    obtain ⟨nth, data⟩ := part.data
    rw [calm.readData, ← calm.readData p.1] at data
    exact ⟨_, Trail.outcome_bind_eq_ok.mpr ⟨f.data, data, rfl⟩, trivial⟩
  have indexOf : ∀ r ∈ requests.filter (·.policy.indexed), ∀ p : Progress, True →
      ∃ p', (readIndexOf t c p r).outcome = .ok p' ∧ True := by
    intro r hr p _
    obtain ⟨hr, indexed⟩ := List.mem_filter.mp hr
    obtain ⟨f, part⟩ := parts r hr
    obtain ⟨nth, index⟩ := part.index indexed
    rw [calm.readIndex, ← calm.readIndex p.1] at index
    exact ⟨_, Trail.outcome_bind_eq_ok.mpr ⟨f.index, index, rfl⟩, trivial⟩
  obtain ⟨p, hp⟩ := foldlM_total (P := fun _ => True) dataOf (s := (0, .empty)) trivial
  obtain ⟨p', hp'⟩ := foldlM_total (P := fun _ => True) indexOf (s := p) trivial
  rw [← Trail.outcome_foldEach] at hp hp'
  exact ⟨p'.2, Trail.outcome_bind_eq_ok.mpr ⟨p, hp, Trail.outcome_bind_eq_ok.mpr ⟨p', hp', rfl⟩⟩⟩

theorem source_readsApart (distinct : (requests.map (·.id)).Nodup) :
    (source t c).ReadsApart requests where
  ends := by
    constructor
    · rintro ⟨found, h⟩ r hr
      obtain ⟨f, _, part⟩ := read_parts distinct h hr
      exact calm.read_ends fun s hs => by
        cases List.mem_singleton.mp hs
        exact ⟨f, part⟩
    · intro ends
      refine calm.read_ends fun r hr => ?_
      obtain ⟨own, h⟩ := ends r hr
      obtain ⟨f, _, part⟩ := read_parts (Request.distinct_single r) h (List.mem_singleton.mpr rfl)
      exact ⟨f, part⟩
  alone found h r hr own h' := by
    obtain ⟨f, held, part⟩ := read_parts distinct h hr
    obtain ⟨g, held', part'⟩ := read_parts (Request.distinct_single r) h' List.mem_cons_self
    cases calm.readOf_unique part part'
    exact ⟨f, held, held'⟩

end Cluster.Unnumbered

end Peers

/-- Namespaces are read independently. -/
theorem reads_apart {requests : List Request} (distinct : (requests.map (·.id)).Nodup) :
    (∀ o, (CommitLog.source o).ReadsApart requests ∧
      (CommitLog.read o requests).entries.count .logOpened ≤ 1) ∧
    ∀ t c, c.Unnumbered → (Peers.source t c).ReadsApart requests :=
  ⟨fun o => ⟨CommitLog.source_readsApart o distinct, CommitLog.count_logOpened_read o requests⟩,
    fun _ _ calm => calm.source_readsApart distinct⟩

/-- One namespace starts from a snapshot, one keeps an index, and one asks for nothing. Then the log
breaks off. -/
theorem reads_apart_three :
    let at_ (t : Instant) : Point := ⟨t, ⟨0, .second, none⟩⟩
    let block := (Block.encode [at_ 2]).toOption.getD ⟨[], 0⟩
    let files : CommitLog.Files :=
      ⟨.ok [.ok ⟨[7], 0, [1], .empty, at_ 6⟩, .ok ⟨[8], 0, [2], .empty, at_ 13⟩,
          .error (.validation "torn"), .ok ⟨[7], 0, [1], .empty, at_ 8⟩],
        fun id shard => .ok [⟨id, shard, 0, 1, 4, true⟩], fun _ => .ok [⟨[1], .empty, block⟩]⟩
    let asked (kind : FilesetKind) : Ask := ⟨.ofShards [0] ⟨0, 20⟩, ⟨⟨false, kind⟩, .ofOrigin [] 0⟩⟩
    let nothing : Ask := ⟨.empty, ⟨{}, .ofOrigin [] 0⟩⟩
    let plain : Policy := ⟨{ blockSize := 10 }, by decide, by decide⟩
    let indexed : Policy := ⟨{ blockSize := 10, indexed := true, indexBlockSize := 15 },
      by decide, by decide⟩
    let requests : List Request :=
      [⟨[7], plain, [0], none, asked .snapshot, nothing⟩,
        ⟨[8], indexed, [0], none, asked .flush, asked .flush⟩,
        ⟨[9], plain, [], none, nothing, nothing⟩]
    let log := CommitLog.source ⟨files, true⟩
    let peers := Peers.source ⟨1, 1, 1, 1, .majority, .lru⟩
      ⟨fun _ => .ok ⟨fun _ _ => .ok .empty, fun _ _ => .ok [⟨[1], .empty, 16⟩]⟩, none, none⟩
    log.ReadsApart requests ∧ peers.ReadsApart requests ∧
      (∃ found, (log.read requests).outcome = .ok found) ∧
      ∃ found, (peers.read requests).outcome = .ok found := by
  intro at_ block files asked nothing plain indexed requests log peers
  obtain ⟨logs, clusters⟩ := reads_apart (show (requests.map (·.id)).Nodup by decide)
  have ends {s : Source} (h : (s.read requests).outcome.toOption.isSome = true) :
      ∃ found, (s.read requests).outcome = .ok found := by
    cases outcome : (s.read requests).outcome with
    | ok found => exact ⟨found, rfl⟩
    | error e =>
      rw [outcome] at h
      cases h
  exact ⟨(logs _).1, clusters _ _ ⟨fun _ => rfl, fun _ none => by cases none⟩,
    ends (by decide +kernel), ends (by decide +kernel)⟩

end Backfill
