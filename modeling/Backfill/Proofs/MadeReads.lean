import Backfill.Proofs.DataRead
import Backfill.Proofs.MergeLaws
import Backfill.Proofs.PeerIndex
import Backfill.Proofs.ReplayIndex

/-!
Whatever a read returns is made by the operations on recoveries, if what it was asked is made by
those on coverages. So the laws of merging are about the results of all sources, and about those of
their chains.
-/

namespace Backfill

namespace Coverage

variable {c : Coverage}

theorem Made.get (h : c.Made) (shard : Shard) : (c.get shard).Made := by
  induction h with
  | empty =>
    rw [get_empty]
    exact .empty
  | ofShards shards r =>
    refine List.foldlRecOn (motive := fun c : Coverage => (c.get shard).Made) shards _ ?_
      fun c hc other _ => ?_
    · rw [get_empty]
      exact .empty
    · rw [get_add]
      split
      · rename_i here
        exact here ▸ hc.add r
      · exact hc
  | set _ other hs ih =>
    rw [get_set]
    split
    · exact hs
    · exact ih
  | add _ other r ih =>
    rw [get_add]
    split
    · rename_i here
      exact here ▸ ih.add r
    · exact ih
  | addSet _ other hs ih =>
    rw [get_addSet]
    split
    · rename_i here
      exact here ▸ ih.union hs
    · exact ih
  | union _ _ iha ihb =>
    rw [get_union]
    exact iha.union ihb
  | diff _ _ iha ihb =>
    rw [get_diff]
    exact iha.diff ihb
  | intersect _ _ iha ihb =>
    rw [get_intersect]
    exact iha.intersect ihb
  | restrict _ shards ih =>
    rw [get_restrict]
    split
    · exact ih
    · exact .empty

theorem Made.entry (h : c.Made) {e : Shard × TimeSet} (he : e ∈ c.entries) : e.2.Made :=
  get_of_mem_entries he ▸ h.get e.1

end Coverage

/-- What is asked for is made by the operations on coverages. -/
structure Request.Made (r : Request) : Prop where
  data : r.data.ranges.Made
  index : r.index.ranges.Made

theorem Request.Made.indexRanges {r : Request} (h : r.Made) : r.indexRanges.Made := by
  unfold Request.indexRanges
  split
  · exact h.index
  · exact .empty

theorem Request.made_recovery (r : Request) : r.recovery.Made := ⟨.empty, .empty, .empty⟩

namespace RecoveredIndex

variable {f : RecoveredIndex}

theorem Made.addMissing (h : f.Made) (shard : Shard) (part : Interval) :
    (f.addMissing shard part).Made := ⟨h.index, h.missing.add shard part⟩

theorem Made.addAllMissing (h : f.Made) {c : Coverage} (hc : c.Made) : (f.addAllMissing c).Made :=
  ⟨h.index, h.missing.union hc⟩

end RecoveredIndex

namespace FlushQueue

variable {q q' : FlushQueue}

theorem made_move (h : q.missing.Made) {m : Move} (hm : q.move? m = some q') :
    q'.missing.Made := by
  cases m with
  | offer f =>
    cases hm
    exact h
  | enter ticket f =>
    simp only [move?, enter?] at hm
    split at hm
    · cases hm
      exact h
    · cases hm
  | refuse ticket =>
    simp only [move?, refuse?] at hm
    split at hm
    · cases hm
      exact h
    · cases hm
  | receive =>
    simp only [move?, receive?] at hm
    split at hm
    · cases hm
      exact h
    · cases hm
  | settle written =>
    simp only [move?, settle?] at hm
    split at hm
    · cases hm
      dsimp only
      split
      · exact h
      · exact h.add _ _
    · cases hm
  | die =>
    simp only [move?, die?] at hm
    split at hm
    · cases hm
      exact h
    · cases hm

theorem made_moves {l : List Move} (h : q.missing.Made) (hl : q.moves? l = some q') :
    q'.missing.Made := by
  induction l generalizing q with
  | nil =>
    cases hl
    exact h
  | cons m l ih =>
    obtain ⟨next, hm, hl⟩ := Option.bind_eq_some_iff.mp hl
    exact ih (made_move h hm) hl

theorem made_close (h : q.missing.Made) : q.close.missing.Made :=
  List.foldlRecOn q.ledger _ h fun _ hc e _ => hc.add e.shard e.part

end FlushQueue

namespace Peers

variable {t : Tuning} {c : Cluster} {nth : Nat} {r : Request}

theorem made_lost {ε : Type} {l : List (ShardWork ε)} (asked : ∀ w ∈ l, w.asked.Made) :
    (ShardWork.lost l).Made :=
  List.foldlRecOn _ _ Coverage.Made.empty fun _ hc w hw =>
    hc.addSet w.shard (asked w (List.mem_filter.mp hw).1)

/-- What the workers share is made by the operations. -/
structure DataState.Made (s : DataState) : Prop where
  data : s.data.Made
  queue : s.queue.missing.Made

namespace DataState

variable {s : DataState}

theorem Made.flush (h : s.Made) (target : Disk × FlushTarget) (f : Flush) :
    (s.flush target f).Made := by
  unfold DataState.flush
  dsimp only
  split
  · rename_i queue passed
    exact ⟨h.data, FlushQueue.made_moves h.queue passed⟩
  · exact ⟨h.data.addMissing f.shard f.part, h.queue⟩

theorem Made.act (h : s.Made) (target : Option (Disk × FlushTarget)) (a : Shard × DataAction) :
    (s.act target a).Made := by
  unfold DataState.act
  split
  · exact ⟨h.data, h.queue⟩
  · exact ⟨h.data.addMissing _ _, h.queue⟩
  · exact ⟨h.data.addShard _ _, h.queue⟩
  · exact h.flush _ _
  · exact ⟨h.data.addMissing _ _, h.queue⟩

theorem Made.run (h : s.Made) (target : Option (Disk × FlushTarget))
    (l : List (Shard × DataAction)) : (s.run target l).Made :=
  List.foldlRecOn l _ h fun _ hs a _ => hs.act target a

theorem Made.finish (h : s.Made) (disk : Disk) {asked : Coverage} (ha : asked.Made) :
    (s.finish disk asked).data.Made := by
  have closed := h.data.addAllMissing (FlushQueue.made_close h.queue)
  unfold DataState.finish
  dsimp only
  split
  · exact closed
  · exact closed.addAllMissing ha

end DataState

theorem readData_made (hr : r.Made) {data : RecoveredData}
    (h : (readData t c nth r).outcome = .ok data) : data.Made := by
  cases hne : r.data.ranges.isEmpty with
  | true =>
    rw [readData, if_pos hne] at h
    cases h
    exact .empty
  | false =>
    obtain ⟨session, target, _, _, rfl⟩ := readData_ok hne h
    have start : (DataState.ofCapacity t.queueCapacity).Made := ⟨.empty, .empty⟩
    have acted := start.run target
      ((dataWork t session (delivery r target) r).flatMap ShardWork.actions)
    refine .addAllMissing ?_ (made_lost fun w hw => ?_)
    · unfold dataOutcome
      dsimp only
      split
      · exact acted.finish _ hr.data
      · exact acted.data
    · obtain ⟨e, he, rfl⟩ := List.mem_map.mp hw
      exact hr.data.entry he

/-- What bad entries spoil is put together interval by interval. -/
theorem IndexWindow.made_lost {p : Policy} {v : TimeSet.Slice} {l : List BlockMetadata}
    {w : IndexWindow} (h : ofEntries p v l = .ok w) : w.lost.Made := by
  refine foldlM_keeps (P := fun w : IndexWindow => w.lost.Made) (fun m _ w w' hw step => ?_)
    .empty h
  unfold addEntry at step
  split at step
  · obtain ⟨_, _, rfl⟩ := map_eq_ok.mp step
    exact hw
  · obtain ⟨start, _, step⟩ := bind_eq_ok.mp step
    obtain ⟨block, _, step⟩ := bind_eq_ok.mp step
    cases step
    cases block.intersect w.part with
    | none => exact hw
    | some part => exact hw.add part

theorem IndexWork.slice_absorbs {session : Session} {p : Policy} {fetch : Interval → Fetch}
    {v : Nat × TimeSet.Slice} {w : IndexWindow}
    (h : .absorb w ∈ (slice session p fetch v).entries) : w.lost.Made := by
  rcases Trail.mem_entries_bind h with h | ⟨_, _, h⟩
  · cases List.mem_singleton.mp h
  · split at h
    · rcases Trail.mem_entries_bind h with h | ⟨_, _, h⟩
      · cases List.mem_singleton.mp h
      · rcases Trail.mem_entries_bind h with h | ⟨m, hm, h⟩
        · cases h
        · cases List.mem_singleton.mp h
          exact IndexWindow.made_lost hm
    · simp [Trail.notes] at h
    · cases h

theorem IndexWork.shard_absorbs {session : Session} {p : Policy} {fetch : Interval → Fetch}
    {asked : TimeSet} {w : IndexWindow}
    (h : .absorb w ∈ (shard session p fetch asked).entries) : w.lost.Made := by
  rcases Trail.mem_entries_bind h with h | ⟨_, _, h⟩
  · rw [TimeSet.foldSlices_eq] at h
    rcases Trail.mem_entries_bind h with h | ⟨_, _, h⟩
    · obtain ⟨n, v, _, h⟩ := Trail.mem_entries_foldEach h
      exact slice_absorbs (Trail.mem_entries_counted h)
    · cases h
  · cases h

theorem IndexWindow.absorb_made {f : RecoveredIndex} (h : f.Made) (shard : Shard) {w : IndexWindow}
    (lost : w.lost.Made) : (w.absorb f shard).Made := by
  have inserted : (w.documents.foldl (fun i d => i.insert d.1 d.2.1 d.2.2) f.index).Made :=
    List.foldlRecOn w.documents _ h.index fun _ hi d _ => hi.insert d.1 d.2.1 d.2.2
  have indexed : w.indexed.Made := (TimeSet.Made.ofInterval w.part).diff lost
  refine ⟨?_, h.missing.addSet shard lost⟩
  unfold absorb
  dsimp only
  split
  · exact inserted
  · exact inserted.mark w.start (Coverage.Made.empty.addSet shard indexed)

theorem IndexState.run_made {l : List (Shard × IndexAction)}
    (lost : ∀ a ∈ l, ∀ w, a.2 = .absorb w → w.lost.Made) : (run l).index.Made := by
  refine List.foldlRecOn (motive := fun s : IndexState => s.index.Made) l _ ⟨.empty, .empty⟩
    fun s hs a ha => ?_
  unfold act
  split
  · exact hs
  · exact hs.addMissing _ _
  · rename_i w absorbs
    exact IndexWindow.absorb_made hs a.1 (lost a ha w absorbs)

theorem readIndex_made (hr : r.Made) {f : RecoveredIndex}
    (h : (readIndex t c nth r).outcome = .ok f) : f.Made := by
  cases hne : r.index.ranges.isEmpty with
  | true =>
    rw [readIndex, if_pos hne] at h
    cases h
    exact ⟨.empty, .empty⟩
  | false =>
    obtain ⟨session, _, rfl⟩ := readIndex_ok hne h
    refine .addAllMissing (IndexState.run_made fun a ha w absorbs => ?_)
      (made_lost fun w hw => ?_)
    · obtain ⟨work, hw, ha⟩ := List.mem_flatMap.mp ha
      obtain ⟨e, _, rfl⟩ := List.mem_map.mp hw
      obtain ⟨b, hb, rfl⟩ := List.mem_map.mp ha
      cases absorbs
      exact IndexWork.shard_absorbs hb
    · obtain ⟨e, he, rfl⟩ := List.mem_map.mp hw
      exact hr.index.entry he

theorem read_made {requests : List Request} (made : ∀ r ∈ requests, r.Made) {found : Recoveries}
    (h : (read t c requests).outcome = .ok found) : found.Made := by
  obtain ⟨p, hp, h⟩ := Trail.outcome_bind_eq_ok.mp h
  obtain ⟨p', hp', h⟩ := Trail.outcome_bind_eq_ok.mp h
  cases h
  rw [Trail.outcome_foldEach] at hp hp'
  have data : p.2.Made := by
    refine foldlM_keeps (P := fun p : Progress => p.2.Made) (fun r hr p p' hp step => ?_) .empty hp
    obtain ⟨_, data, read, eq⟩ := readDataOf_ok step
    rw [eq]
    exact hp.insert r.id ⟨readData_made (made r hr) read, r.made_recovery.index⟩
  refine foldlM_keeps (P := fun p : Progress => p.2.Made) (fun r hr p p' hp step => ?_) data hp'
  obtain ⟨_, index, read, eq⟩ := readIndexOf_ok step
  rw [eq]
  exact hp.modify r.id fun old ho =>
    ⟨ho.data, readIndex_made (made r (List.mem_filter.mp hr).1) read⟩

end Peers

/-- A replay of a request that is made, with all it found made as well. -/
structure Replay.Made (r : Replay) : Prop where
  request : r.request.Made
  index : r.index.Made
  missingData : r.missingData.Made
  missingIndex : r.missingIndex.Made

namespace Replay

variable {r r' : Replay} {e : LogEntry} {fate : EntryFate}

theorem made_ofRequest {r : Request} (h : r.Made) : (ofRequest r).Made :=
  ⟨h, .empty, .empty, .empty⟩

theorem made_lasting : Lasting Made where
  gather _ _ _ h := ⟨h.request, h.index, h.missingData, h.missingIndex⟩
  note _ _ h := ⟨h.request, h.index, h.missingData, h.missingIndex⟩
  missShard _ shard h := ⟨h.request, h.index,
    h.missingData.addSet shard (h.request.data.get shard), h.missingIndex⟩
  missBlock _ shard block h := ⟨h.request, h.index,
    h.missingData.addSet shard ((h.request.data.get shard).clip block), h.missingIndex⟩

theorem Made.applyIndex (h : r.Made) (ha : r.applyIndex e = .ok r') : r'.Made := by
  obtain ⟨start, _, ha⟩ := bind_eq_ok.mp ha
  have touched := h.index.touch start
  dsimp only at ha
  split at ha
  · cases ha
    exact ⟨h.request, touched, h.missingData, h.missingIndex⟩
  · split at ha
    · cases ha
      exact ⟨h.request, touched.insert _ _ _, h.missingData, h.missingIndex⟩
    · obtain ⟨block, _, ha⟩ := bind_eq_ok.mp ha
      cases ha
      exact ⟨h.request, touched, h.missingData,
        h.missingIndex.addSet _ ((h.request.indexRanges.get _).clip _)⟩

theorem Made.apply (h : r.Made) (ha : r.apply e = .ok (r', fate)) : r'.Made := by
  obtain ⟨m, _, index, data⟩ := apply_parts ha
  have between : m.Made := by
    split at index
    · exact h.applyIndex index
    · cases index
      exact h
  split at data
  · obtain ⟨start, _, data⟩ := bind_eq_ok.mp data
    dsimp only at data
    split at data
    · cases data
      exact between
    · cases data
      exact ⟨between.request, between.index, between.missingData, between.missingIndex⟩
  · cases data
    exact between

/-- One block that is added makes a shard of its own. -/
theorem Made.closeBucket (h : r.Made) {d d' : RecoveredData} (hd : d.Made) {b : Bucket}
    (hc : r.closeBucket d b = .ok d') : d'.Made := by
  unfold Replay.closeBucket at hc
  split at hc
  · rename_i block _
    cases hc
    have alone : (ShardData.empty.addBlock b.id b.tags b.start block).isEmpty = false := rfl
    have added := hd.addShard b.shard (ShardData.empty.addBlock b.id b.tags b.start block)
    rw [RecoveredData.addShard, alone] at added
    rw [funext fun d : ShardData => d.addBlock_eq_merge b.id b.tags b.start block]
    exact added
  · obtain ⟨block, _, rfl⟩ := map_eq_ok.mp hc
    exact hd.setMissing (hd.missing.addSet b.shard ((h.request.data.get b.shard).clip block))

theorem Made.finishData (h : r.Made) {missAll : Bool} {d : RecoveredData}
    (hf : r.finishData missAll = .ok d) : d.Made := by
  obtain ⟨m, hm, hf⟩ := bind_eq_ok.mp hf
  have start : RecoveredData.Made ⟨.empty, r.missingData⟩ := .setMissing .empty h.missingData
  have closed : m.Made := foldlM_keeps (P := RecoveredData.Made)
    (fun b _ _ _ hd step => h.closeBucket hd step) start hm
  cases missAll with
  | true =>
    cases hf
    exact closed.addAllMissing h.request.data
  | false =>
    cases hf
    exact closed

theorem made_shardMarks {size : Duration} {shard : Shard} {done : TimeSet} {i : Index}
    (h : shardMarks size shard done = .ok i) : i.Made := by
  obtain ⟨_, _, rfl⟩ := map_eq_ok.mp h
  rw [← List.foldl_reverse]
  exact List.foldlRecOn _ _ Index.Made.empty fun _ hi v _ =>
    hi.mark v.window.start (Coverage.Made.empty.set shard (.ofInterval v.part))

theorem Made.finishIndex (h : r.Made) {missAll : Bool} {f : RecoveredIndex}
    (hf : r.finishIndex missAll = .ok f) : f.Made := by
  obtain ⟨index, hindex, hf⟩ := bind_eq_ok.mp hf
  cases hf
  refine ⟨foldlM_keeps (P := Index.Made) (fun e _ i i' hi step => ?_) h.index hindex, ?_⟩
  · obtain ⟨marks, hmarks, rfl⟩ := map_eq_ok.mp step
    exact hi.merge (made_shardMarks hmarks)
  · cases missAll with
    | true => exact h.missingIndex.union h.request.indexRanges
    | false => exact h.missingIndex

end Replay

namespace CommitLog

variable {o : Options} {requests : List Request} {replays replays' : Replays}

/-- Every replay is made. -/
def MadeReplays (replays : Replays) : Prop :=
  ∀ id replay, replays.get? id = some replay → replay.Made

theorem MadeReplays.insert (h : MadeReplays replays) (id : NamespaceId) {replay : Replay}
    (hr : replay.Made) : MadeReplays (replays.insert id replay) := by
  intro other s hs
  rw [SortedMap.get?_insert] at hs
  split at hs
  · cases hs
    exact hr
  · exact h other s hs

theorem madeReplays_begin (made : ∀ r ∈ requests, r.Made) : MadeReplays (begin requests) :=
  List.foldlRecOn (motive := MadeReplays) _ _ (fun _ _ h => by cases h) fun _ hm r hr =>
    hm.insert r.id (Replay.made_ofRequest (made r (List.mem_filter.mp hr).1))

theorem MadeReplays.applyEntries (h : MadeReplays replays) {l : List LogEntry}
    (ha : (Trail.foldEach applyEntry replays l).outcome = .ok replays') : MadeReplays replays' := by
  rw [Trail.outcome_foldEach] at ha
  refine foldlM_keeps (P := MadeReplays) (fun e _ m m' hm step => ?_) h ha
  unfold applyEntry at step
  split at step
  · cases step
    exact hm
  · rename_i replay held
    obtain ⟨⟨replay', fate⟩, applied, step⟩ := Trail.outcome_bind_eq_ok.mp step
    cases step
    exact hm.insert _ ((hm _ _ held).apply (Run.ofFaulty_eq_ok.mp applied))

theorem MadeReplays.finishRequests (h : MadeReplays replays) {missAll : Bool}
    {found found' : Recoveries} (hf : found.Made)
    (finished : requests.foldlM (finishRequest missAll) (replays, found) = .ok (replays', found')) :
    found'.Made := by
  refine (foldlM_keeps (P := fun s : Replays × Recoveries => MadeReplays s.1 ∧ s.2.Made)
    (fun r _ s s' hs step => ?_) ⟨h, hf⟩ finished).2
  rcases finishRequest_ok step with ⟨_, rfl⟩ | ⟨replay, data, index, held, both, rfl⟩
  · exact hs
  · obtain ⟨hdata, hindex⟩ := Replay.finish_eq_ok.mp both
    have made := hs.1 _ _ held
    refine ⟨fun id s hid => ?_, hs.2.insert r.id ⟨made.finishData hdata, made.finishIndex hindex⟩⟩
    rw [SortedMap.get?_erase] at hid
    split at hid
    · cases hid
    · exact hs.1 id s hid

theorem read_made (made : ∀ r ∈ requests, r.Made) {found : Recoveries}
    (h : (read o requests).outcome = .ok found) : found.Made := by
  have idle : ((requests.filter isIdle).foldl (fun m r => m.insert r.id r.recovery)
      Recoveries.empty).Made :=
    List.foldlRecOn _ _ Recoveries.Made.empty fun _ hm r _ => hm.insert r.id r.made_recovery
  unfold read at h
  dsimp only at h
  split at h
  · cases h
    exact idle
  · obtain ⟨all, hall, h⟩ := Trail.outcome_bind_eq_ok.mp h
    obtain ⟨_, _, h⟩ := Trail.outcome_bind_eq_ok.mp h
    cases h
    obtain ⟨restored, hrestored, hall⟩ := Trail.outcome_bind_eq_ok.mp hall
    obtain ⟨_, _, hall⟩ := Trail.outcome_bind_eq_ok.mp hall
    have seeded : MadeReplays restored :=
      Replay.made_lasting.restoreRequests hrestored (madeReplays_begin made)
    split at hall
    · cases hall
      refine List.foldlRecOn _ _ idle fun _ hm r hr => ?_
      have asked := made r (List.mem_filter.mp hr).1
      exact hm.insert r.id
        ⟨RecoveredData.Made.empty.setMissing asked.data, .empty, asked.indexRanges⟩
    · obtain ⟨replayed, hreplayed, hall⟩ := Trail.outcome_bind_eq_ok.mp hall
      obtain ⟨⟨_, all⟩, finished, hall⟩ := Trail.outcome_bind_eq_ok.mp hall
      cases hall
      exact (seeded.applyEntries hreplayed).finishRequests idle (Run.ofFaulty_eq_ok.mp finished)

end CommitLog

/-- What the source provides and what it returns is made, if it was asked for what is made. -/
structure Source.Makes (s : Source) : Prop where
  data : ∀ id policy ranges options c, ranges.Made →
    s.availableData id policy ranges options = .ok c → c.Made
  index : ∀ id policy ranges options c, ranges.Made →
    s.availableIndex id policy ranges options = .ok c → c.Made
  read : ∀ requests, (∀ r ∈ requests, r.Made) → ∀ found,
    (s.read requests).outcome = .ok found → found.Made

theorem CommitLog.source_makes (o : Options) : (source o).Makes where
  data _ _ _ _ _ h same := Except.ok.inj same ▸ h
  index _ _ _ _ _ h same := Except.ok.inj same ▸ h
  read _ made _ h := read_made made h

theorem Topology.mem_of_mem_admitted {t : Topology} {level : Consistency}
    {l k : List (Shard × TimeSet)} (h : t.admitted level l = .ok k) : ∀ e ∈ k, e ∈ l := by
  induction l generalizing k with
  | nil =>
    cases h
    exact fun _ he => he
  | cons d l ih =>
    obtain ⟨here, _, h⟩ := bind_eq_ok.mp h
    obtain ⟨rest, hrest, h⟩ := bind_eq_ok.mp h
    cases h
    intro e he
    split at he
    · rcases List.mem_cons.mp he with rfl | he
      · exact List.mem_cons_self
      · exact List.mem_cons_of_mem _ (ih hrest e he)
    · exact List.mem_cons_of_mem _ (ih hrest e he)

theorem Topology.made_available {t : Topology} {level : Consistency} {requested c : Coverage}
    (made : requested.Made) (h : t.available level requested = .ok c) : c.Made := by
  obtain ⟨l, hl, rfl⟩ := map_eq_ok.mp h
  exact List.foldlRecOn l _ Coverage.Made.empty fun _ hc e he =>
    hc.set e.1 (made.entry (mem_of_mem_admitted hl e he))

theorem Peers.source_makes (t : Tuning) (c : Cluster) : (source t c).Makes where
  data _ _ _ _ _ made h := Topology.made_available made h
  index _ _ _ _ _ made h := Topology.made_available made h
  read _ made _ h := read_made made h

namespace Chain

variable {s : Source} {left asked : List Request} {found merged : Recoveries}

theorem made_narrow (makes : s.Makes) {r a : Request} (h : r.Made) (hn : narrow s r = .ok a) :
    a.Made := by
  obtain ⟨data, hd, hn⟩ := bind_eq_ok.mp hn
  obtain ⟨index, hi, hn⟩ := bind_eq_ok.mp hn
  cases hn
  exact ⟨makes.data _ _ _ _ _ h.data hd, makes.index _ _ _ _ _ h.index hi⟩

theorem made_asked (makes : s.Makes) (made : ∀ r ∈ left, r.Made)
    (h : left.mapM (narrow s) = .ok asked) : ∀ a ∈ asked, a.Made := by
  induction left generalizing asked with
  | nil =>
    cases h
    exact fun a ha => by cases ha
  | cons r left ih =>
    rw [List.mapM_cons] at h
    obtain ⟨a, hn, h⟩ := bind_eq_ok.mp h
    obtain ⟨rest, hrest, h⟩ := bind_eq_ok.mp h
    cases h
    obtain ⟨first, others⟩ := List.forall_mem_cons.mp made
    exact List.forall_mem_cons.mpr ⟨made_narrow makes first hn, ih others hrest⟩

theorem made_settle (hf : found.Made) {r a : Request} (hr : r.Made) (ha : a.Made) :
    (settle found r a).Made := by
  unfold settle
  split
  · exact hr
  · rename_i f held
    have read := hf.recovery held
    refine ⟨hr.data.diff (ha.data.diff read.data.missing), ?_⟩
    dsimp only
    split
    · exact hr.index.diff (ha.index.diff read.index.missing)
    · exact hr.index

theorem made_conclude (hm : merged.Made) {r : Request} (hr : r.Made) :
    (conclude merged r).Made := by
  unfold conclude
  refine Recoveries.Made.modify ?_ r.id fun old ho =>
    ⟨ho.data.setMissing hr.data, ho.index.index, hr.indexRanges⟩
  split
  · exact hm
  · exact hm.insert r.id r.made_recovery

theorem runFrom_made {sources : List Source} (makes : ∀ s ∈ sources, s.Makes)
    (made : ∀ r ∈ left, r.Made) (hm : merged.Made)
    (h : (runFrom sources left merged).outcome = .ok found) : found.Made := by
  induction sources generalizing left merged with
  | nil =>
    cases h
    exact List.foldlRecOn left _ hm fun _ hm r hr => made_conclude hm (made r hr)
  | cons s rest ih =>
    obtain ⟨first, others⟩ := List.forall_mem_cons.mp makes
    unfold runFrom at h
    split at h
    · cases h
    · rename_i asked hasked
      have narrowed := made_asked first made hasked
      dsimp only at h
      split at h
      · cases h
      · rename_i read hread
        have readMade := first.read asked narrowed read hread
        refine ih others (fun r hr => ?_) (hm.merge readMade) h
        rw [← List.map_uncurry_zip_eq_zipWith] at hr
        obtain ⟨⟨l, a⟩, both, rfl⟩ := List.mem_map.mp hr
        obtain ⟨hl, ha⟩ := List.of_mem_zip both
        exact made_settle readMade (made l hl) (narrowed a ha)

/-- However sources are chained, what comes of them is made. -/
theorem run_made {sources : List Source} {requests : List Request}
    (makes : ∀ s ∈ sources, s.Makes) (made : ∀ r ∈ requests, r.Made)
    (h : (run sources requests).outcome = .ok found) : found.Made :=
  runFrom_made makes made .empty h

/-- So what two chains have found is joined by merging it. -/
theorem run_joins {sources sources' : List Source} {requests requests' : List Request}
    (makes : ∀ s ∈ sources, s.Makes) (makes' : ∀ s ∈ sources', s.Makes)
    (made : ∀ r ∈ requests, r.Made) (made' : ∀ r ∈ requests', r.Made) {found' : Recoveries}
    (h : (run sources requests).outcome = .ok found)
    (h' : (run sources' requests').outcome = .ok found') :
    Recoveries.Joins found found' (found.merge found') :=
  (run_made makes made h).joins (run_made makes' made' h')

end Chain

end Backfill
