import Backfill.Proofs.WorkerOrder

/-!
Which documents a read of the index from peers ends with: one for every series and block that a
valid entry of the metadata names, with the tags of such an entry. A window that cannot be fetched
and an entry that cannot be indexed take no document away; the entry leaves its data block missing.
-/

namespace Backfill

namespace Tags

theorem pairLe_iff {a b : Bytes × Bytes} :
    pairLe a b = true ↔ a.1 < b.1 ∨ a.1 = b.1 ∧ a.2 ≤ b.2 := by
  simp [pairLe]

theorem pairLe_trans (a b c : Bytes × Bytes) (hab : pairLe a b = true) (hbc : pairLe b c = true) :
    pairLe a c = true := by
  rw [pairLe_iff] at *
  rcases hab with lt | ⟨same, le⟩
  · rcases hbc with lt' | ⟨same', _⟩
    · exact .inl (List.lt_trans lt lt')
    · exact .inl (same' ▸ lt)
  · rcases hbc with lt' | ⟨same', le'⟩
    · exact .inl (same ▸ lt')
    · exact .inr ⟨same.trans same', List.le_trans le le'⟩

theorem pairLe_total (a b : Bytes × Bytes) : (pairLe a b || pairLe b a) = true := by
  rw [Bool.or_eq_true, pairLe_iff, pairLe_iff]
  by_cases same : a.1 = b.1
  · rcases List.le_total a.2 b.2 with le | le
    · exact .inl (.inr ⟨same, le⟩)
    · exact .inr (.inr ⟨same.symm, le⟩)
  · by_cases lt : a.1 < b.1
    · exact .inl (.inl lt)
    · have le : b.1 ≤ a.1 := lt
      exact .inr (.inl ((List.le_iff_lt_or_eq.mp le).resolve_right (Ne.symm same)))

/-- The same pairs, by name and then by value. -/
structure Sorts (t : Tags) (pairs : List (Bytes × Bytes)) : Prop where
  perm : t.pairs.Perm pairs
  ascends : t.pairs.Pairwise (pairLe · · = true)

theorem ofList_sorts (pairs : List (Bytes × Bytes)) : (ofList pairs).Sorts pairs :=
  ⟨List.mergeSort_perm pairs pairLe, List.pairwise_mergeSort pairLe_trans pairLe_total pairs⟩

theorem named_ofList {pairs : List (Bytes × Bytes)} :
    (ofList pairs).Named ↔ ∀ p ∈ pairs, p.1 ≠ [] :=
  forall_congr' fun _ => imp_congr_left (ofList_sorts pairs).perm.mem_iff

end Tags

theorem Document.validate_eq_ok {id : SeriesId} {tags : Tags} :
    validate id tags = .ok () ↔ id ≠ [] ∧ tags.Named := by
  unfold validate Tags.validate
  by_cases hid : id = []
  · simp [hid]
  · by_cases named : tags.Named <;> simp [hid, named]

namespace Peers

namespace BlockMetadata

/-- The name of the series and the names of its tags have bytes. -/
def Indexable (m : BlockMetadata) : Prop := m.id ≠ [] ∧ m.tags.Named

instance (m : BlockMetadata) : Decidable m.Indexable :=
  inferInstanceAs (Decidable (m.id ≠ [] ∧ m.tags.Named))

/-- The entry names a document for `id` in the block at `start`. -/
structure Names (m : BlockMetadata) (size : Duration) (start : Instant) (id : SeriesId) : Prop where
  indexable : m.Indexable
  block : m.start.floor size = start
  series : m.id = id

instance (m : BlockMetadata) (size : Duration) (start : Instant) (id : SeriesId) :
    Decidable (m.Names size start id) :=
  decidable_of_iff (m.Indexable ∧ m.start.floor size = start ∧ m.id = id)
    ⟨fun h => ⟨h.1, h.2.1, h.2.2⟩, fun h => ⟨h.indexable, h.block, h.series⟩⟩

def document (m : BlockMetadata) (size : Duration) : Instant × SeriesId × Tags :=
  (m.start.floor size, m.id, m.tags)

/-- The documents that a list of entries names. -/
def documents (size : Duration) (l : List BlockMetadata) : List (Instant × SeriesId × Tags) :=
  (l.filter (decide ·.Indexable)).map (·.document size)

variable {size : Duration} {start : Instant} {id : SeriesId} {tags : Tags}

theorem mem_documents {l : List BlockMetadata} : (start, id, tags) ∈ documents size l ↔
    ∃ m ∈ l, m.Names size start id ∧ m.tags = tags := by
  simp only [documents, List.mem_map, List.mem_filter, decide_eq_true_eq]
  constructor
  · intro h
    obtain ⟨m, ⟨hm, indexable⟩, same⟩ := h
    cases same
    exact ⟨m, hm, ⟨indexable, rfl, rfl⟩, rfl⟩
  · intro h
    obtain ⟨m, hm, ⟨indexable, rfl, rfl⟩, rfl⟩ := h
    exact ⟨m, ⟨hm, indexable⟩, rfl⟩

theorem first?_documents (l : List BlockMetadata) :
    Index.first? (documents size l) start id =
      (l.find? (decide <| ·.Names size start id)).map (·.tags) := by
  rw [Index.first?, documents, List.find?_map, List.find?_filter, Option.map_map]
  refine congrArg (Option.map (·.tags)) (congrArg (List.find? · l) (funext fun m => ?_))
  rw [decide_eq_decide]
  simp only [document, Function.comp_apply, Bool.and_eq_true, decide_eq_true_eq]
  exact ⟨fun h => ⟨h.1, h.2.1, h.2.2⟩, fun h => ⟨h.indexable, h.block, h.series⟩⟩

end BlockMetadata

/-- The windows of the index that are asked for of a shard. -/
def indexSlices (r : Request) (shard : Shard) : List TimeSet.Slice :=
  ((r.index.ranges.get shard).slices r.policy.indexBlockSize).entries

/-- What the peers tell of a window. A fetch that fails tells nothing. -/
def told (t : Tuning) (session : Session) (r : Request) (shard : Shard) (v : TimeSet.Slice) :
    List BlockMetadata :=
  (session.metadata 0 (indexFetch t r shard v.window)).ok?.getD []

/-- What the peers tell of a shard, in the order in which its windows are fetched. -/
def heard (t : Tuning) (session : Session) (r : Request) (shard : Shard) : List BlockMetadata :=
  (indexSlices r shard).flatMap (told t session r shard)

namespace IndexWindow

variable {p : Policy}

theorem addEntry_documents (fits : IndexFits p) {w w' : IndexWindow} {m : BlockMetadata}
    (hm : FitsWord m.start) (h : addEntry p w m = .ok w') :
    w'.documents = w.documents ++ BlockMetadata.documents p.indexBlockSize [m] := by
  unfold addEntry at h
  split at h
  · rename_i valid
    rw [Instant.windowStart_eq fits.indexSize_pos fits.indexSize hm] at h
    obtain ⟨_, same, rfl⟩ := map_eq_ok.mp h
    cases same
    have indexable : m.Indexable := Document.validate_eq_ok.mp valid
    simp [BlockMetadata.documents, BlockMetadata.document, indexable]
  · rename_i e invalid
    obtain ⟨_, _, h⟩ := bind_eq_ok.mp h
    obtain ⟨_, _, h⟩ := bind_eq_ok.mp h
    cases h
    have unindexable : ¬ m.Indexable := fun named => by
      rw [Document.validate_eq_ok.mpr named] at invalid
      cases invalid
    simp [BlockMetadata.documents, unindexable]

theorem foldlM_addEntry_documents (fits : IndexFits p) {l : List BlockMetadata}
    (hl : ∀ m ∈ l, FitsWord m.start) {w w' : IndexWindow}
    (h : l.foldlM (addEntry p) w = .ok w') :
    w'.documents = w.documents ++ BlockMetadata.documents p.indexBlockSize l := by
  induction l generalizing w with
  | nil =>
    cases h
    exact (List.append_nil _).symm
  | cons m l ih =>
    rw [List.foldlM_cons] at h
    obtain ⟨next, added, h⟩ := bind_eq_ok.mp h
    rw [ih (fun n hn => hl n (List.mem_cons_of_mem _ hn)) h,
      addEntry_documents fits (hl m List.mem_cons_self) added, List.append_assoc]
    simp only [BlockMetadata.documents, ← List.map_append, ← List.filter_append]
    rfl

end IndexWindow

variable {t : Tuning} {c : Cluster} {nth : Nat} {r : Request} {session : Session}

/-- A window puts in what it is told, if it can be indexed. -/
theorem slice_documents (steady : session.SteadyMetadata r.id) (fits : IndexFits r.policy)
    (shard : Shard) (v : TimeSet.Slice) :
    (IndexWork.slice session r.policy (indexFetch t r shard) (0, v)).entries.flatMap
        IndexAction.documents =
      BlockMetadata.documents r.policy.indexBlockSize (told t session r shard v) := by
  simp only [IndexWork.slice, told]
  cases h : session.metadata 0 (indexFetch t r shard v.window) with
  | crash => exact absurd h (steady.calm _ rfl)
  | error e => rfl
  | ok l =>
    have words := steady.fits _ l rfl h
    obtain ⟨w, ok, _⟩ := IndexWindow.ofEntries_ok fits v words
    have documents : w.documents = BlockMetadata.documents _ l :=
      IndexWindow.foldlM_addEntry_documents fits words ok
    simp only [ok]
    change ([.event _, .event _, .absorb w] : List IndexAction).flatMap IndexAction.documents = _
    rw [show Reply.ok? (.ok l) = some l from rfl, Option.getD_some, ← documents]
    simp [IndexAction.documents]

theorem indexWork_apart (t : Tuning) (session : Session) (r : Request) :
    (indexWork t session r).Pairwise (·.shard ≠ ·.shard) :=
  List.pairwise_map.mpr r.index.ranges.sets.keys_distinct

section Work

variable (steady : session.SteadyMetadata r.id) (fits : IndexFits r.policy)
  (words : r.index.ranges.FitsWords)

include steady fits words

/-- Of all actions, those of one shard are those about its windows, in order. -/
theorem filter_indexActions (shard : Shard) :
    ((indexWork t session r).flatMap ShardWork.actions).filter (·.1 = shard) =
      ((indexSlices r shard).flatMap fun v => (IndexWork.slice session r.policy
        (indexFetch t r shard) (0, v)).entries).map (shard, ·) := by
  rw [indexWork_eq steady fits words, List.flatMap_map]
  refine (SortedMap.filter_flatMap_entries r.index.ranges.sets (fun shard asked =>
    (asked.slices r.policy.indexBlockSize).entries.flatMap fun v =>
      (IndexWork.slice session r.policy (indexFetch t r shard) (0, v)).entries) shard).trans ?_
  rw [indexSlices, Coverage.get]
  cases r.index.ranges.sets.get? shard <;> rfl

theorem mem_turns_of_slice {l : List (Shard × IndexAction)}
    (turns : Interleaves ((indexWork t session r).map ShardWork.actions) l) {shard : Shard}
    {v : TimeSet.Slice} (hv : v ∈ indexSlices r shard) {a : IndexAction}
    (ha : a ∈ (IndexWork.slice session r.policy (indexFetch t r shard) (0, v)).entries) :
    (shard, a) ∈ l := by
  have here : (shard, a) ∈ l.filter (·.1 = shard) := by
    rw [filter_turns turns (indexWork_apart t session r) shard,
      filter_indexActions steady fits words]
    exact List.mem_map_of_mem (List.mem_flatMap.mpr ⟨v, hv, ha⟩)
  exact (List.mem_filter.mp here).1

/-- Whatever the turns, a shard puts in what was heard of it. -/
theorem turns_documents {l : List (Shard × IndexAction)}
    (turns : Interleaves ((indexWork t session r).map ShardWork.actions) l) (shard : Shard) :
    (l.filter (·.1 = shard)).flatMap (·.2.documents) =
      BlockMetadata.documents r.policy.indexBlockSize (heard t session r shard) := by
  rw [filter_turns turns (indexWork_apart t session r) shard,
    filter_indexActions steady fits words, List.flatMap_map, List.flatMap_assoc, heard,
    BlockMetadata.documents, List.filter_flatMap, List.map_flatMap]
  exact List.flatMap_congr fun v _ => slice_documents steady fits shard v

theorem mem_turns_documents {l : List (Shard × IndexAction)}
    (turns : Interleaves ((indexWork t session r).map ShardWork.actions) l) {start : Instant}
    {id : SeriesId} {tags : Tags} : (start, id, tags) ∈ l.flatMap (·.2.documents) ↔
      ∃ shard, ∃ m ∈ heard t session r shard,
        m.Names r.policy.indexBlockSize start id ∧ m.tags = tags := by
  simp only [← BlockMetadata.mem_documents, ← turns_documents steady fits words turns,
    List.mem_flatMap, List.mem_filter, decide_eq_true_eq]
  constructor
  · intro h
    obtain ⟨a, ha, hd⟩ := h
    exact ⟨a.1, a, ⟨ha, rfl⟩, hd⟩
  · intro h
    obtain ⟨_, a, ⟨ha, _⟩, hd⟩ := h
    exact ⟨a, ha, hd⟩

/-- In the order of a read, the shards put in what was heard of them one after the other. -/
theorem actions_documents :
    ((indexWork t session r).flatMap ShardWork.actions).flatMap (·.2.documents) =
      r.index.ranges.entries.flatMap fun e => (indexSlices r e.1).flatMap fun v =>
        BlockMetadata.documents r.policy.indexBlockSize (told t session r e.1 v) := by
  rw [indexWork_eq steady fits words, List.flatMap_map, List.flatMap_assoc]
  refine List.flatMap_congr fun e he => ?_
  rw [indexSlices, Coverage.get_of_mem_entries he, ShardWork.actions, List.flatMap_map,
    List.flatMap_assoc]
  exact List.flatMap_congr fun v _ => slice_documents steady fits e.1 v

end Work

/-- The documents of an index are those that the metadata names, and what it tells of series that
cannot be indexed is missing. -/
structure Documented (t : Tuning) (session : Session) (r : Request) (f : RecoveredIndex) :
    Prop where
  present : ∀ start id, (f.index.document? start id).isSome = true ↔
    ∃ shard, ∃ m ∈ heard t session r shard, m.Names r.policy.indexBlockSize start id
  fields : ∀ start id tags, f.index.document? start id = some tags →
    ∃ shard, ∃ m ∈ heard t session r shard, m.Names r.policy.indexBlockSize start id ∧
      m.tags = tags ∧ ∀ pairs, m.tags = .ofList pairs → tags.Sorts pairs
  first : ∀ start id shard, (∀ other, ∀ m ∈ heard t session r other,
      m.Names r.policy.indexBlockSize start id → other = shard) →
    f.index.document? start id = ((heard t session r shard).find?
      (decide <| ·.Names r.policy.indexBlockSize start id)).map (·.tags)
  invalid : ∀ shard, ∀ v ∈ indexSlices r shard, ∀ m ∈ told t session r shard v, ¬ m.Indexable →
    ∀ x ∈ Interval.around m.start r.policy.blockSize, x ∈ v.part → (shard, x) ∈ f.missing

section Read

variable (steady : session.SteadyMetadata r.id) (fits : IndexFits r.policy)
  (words : r.index.ranges.FitsWords)

include steady fits words

theorem documented_of_turns {l : List (Shard × IndexAction)}
    (turns : Interleaves ((indexWork t session r).map ShardWork.actions) l) (lost : Coverage) :
    Documented t session r ((IndexState.run l).index.addAllMissing lost) := by
  have named {start : Instant} {id : SeriesId} {tags : Tags} :
      (start, id, tags) ∈ l.flatMap (·.2.documents) ↔ _ :=
    mem_turns_documents steady fits words turns
  refine ⟨fun start id => ?_, fun start id tags found => ?_, fun start id shard alone => ?_,
    fun shard v hv m hm unindexable x hx asked => ?_⟩
  · change ((IndexState.run l).index.index.document? start id).isSome = true ↔ _
    rw [IndexState.run_document?, Index.first?_isSome]
    constructor
    · intro h
      obtain ⟨tags, found⟩ := h
      obtain ⟨shard, m, hm, names, _⟩ := named.mp found
      exact ⟨shard, m, hm, names⟩
    · intro h
      obtain ⟨shard, m, hm, names⟩ := h
      exact ⟨m.tags, named.mpr ⟨shard, m, hm, names, rfl⟩⟩
  · change (IndexState.run l).index.index.document? start id = some tags at found
    rw [IndexState.run_document?] at found
    obtain ⟨shard, m, hm, names, rfl⟩ := named.mp (Index.mem_of_first? found)
    exact ⟨shard, m, hm, names, rfl, fun pairs same => same ▸ Tags.ofList_sorts pairs⟩
  · change (IndexState.run l).index.index.document? start id = _
    have own : ∀ a ∈ l, ∀ tags, (start, id, tags) ∈ a.2.documents → a.1 = shard := by
      intro a ha tags hd
      have here : (start, id, tags) ∈ (l.filter (·.1 = a.1)).flatMap (·.2.documents) :=
        List.mem_flatMap.mpr ⟨a, List.mem_filter.mpr ⟨ha, by simp⟩, hd⟩
      rw [turns_documents steady fits words turns] at here
      obtain ⟨m, hm, names, _⟩ := BlockMetadata.mem_documents.mp here
      exact alone a.1 m hm names
    rw [IndexState.run_document?,
      IndexAction.first?_filter fun a ha tags hd => decide_eq_true (own a ha tags hd),
      turns_documents steady fits words turns, BlockMetadata.first?_documents]
  · have handles : IndexWork.Handles
        (IndexWork.slice session r.policy (indexFetch t r shard) (0, v)) session r.policy
        (indexFetch t r shard v.window) shard v :=
      IndexWork.slice_handles steady fits (fun _ => rfl) shard 0 v
    obtain ⟨sound, missing, _⟩ := IndexState.run_steps l
    refine (Coverage.mem_union sound.missing).mpr (.inl ((missing _).mpr ?_))
    have spoils : m.Spoils r.policy x :=
      ⟨fun valid => unindexable (Document.validate_eq_ok.mp valid), hx⟩
    have unindexed : session.Unindexed r.policy (indexFetch t r shard v.window) x := by
      rw [told] at hm
      cases h : session.metadata 0 (indexFetch t r shard v.window) with
      | ok entries =>
        rw [h] at hm
        exact .inr ⟨entries, h, m, hm, spoils⟩
      | error e => exact .inl ⟨e, h⟩
      | crash => exact absurd h (steady.calm _ rfl)
    obtain ⟨a, ha, loses⟩ := (handles.loses x).mpr ⟨asked, unindexed⟩
    exact ⟨(shard, a), mem_turns_of_slice steady fits words turns hv ha, loses⟩

/-- After a read of the index there is a document just where a valid entry of the metadata names it,
with the tags of such an entry, however the workers took turns. What is there stays, and the
documents are the same as if no fetch had failed and no entry had been invalid. -/
theorem readIndex_documents (opened : c.openSession nth = .ok session) :
    ∃ f, (readIndex t c nth r).outcome = .ok f ∧ Documented t session r f ∧
      (∀ l, Interleaves ((indexWork t session r).map ShardWork.actions) l →
        Documented t session r ((IndexState.run l).index.addAllMissing
          (ShardWork.lost (indexWork t session r))) ∧
        ∀ before after, l = before ++ after → ∀ start id tags,
          (IndexState.run before).index.index.document? start id = some tags →
            (IndexState.run l).index.index.document? start id = some tags) ∧
      ∀ c' nth' session', c'.openSession nth' = .ok session' → session'.SteadyMetadata r.id →
        (∀ shard, ∀ v ∈ indexSlices r shard,
          (told t session' r shard v).filter (decide ·.Indexable) =
            (told t session r shard v).filter (decide ·.Indexable)) →
        ∃ f', (readIndex t c' nth' r).outcome = .ok f' ∧
          ∀ start id, f'.index.document? start id = f.index.document? start id := by
  refine ⟨_, readIndex_eq opened, documented_of_turns steady fits words (.flatten _) _,
    fun l turns => ⟨documented_of_turns steady fits words turns _, ?_⟩,
    fun c' nth' session' opened' steady' same => ⟨_, readIndex_eq opened', fun start id => ?_⟩⟩
  · rintro before after rfl start id tags found
    rw [IndexState.run_document?] at found ⊢
    rw [List.flatMap_append, Index.first?_append, found, Option.some_or]
  · change (IndexState.run _).index.index.document? start id =
      (IndexState.run _).index.index.document? start id
    rw [IndexState.run_document?, IndexState.run_document?,
      actions_documents steady' fits words, actions_documents steady fits words]
    refine congrArg (Index.first? · start id) (List.flatMap_congr fun e _ => ?_)
    refine List.flatMap_congr fun v hv => ?_
    rw [BlockMetadata.documents, same e.1 v hv, BlockMetadata.documents]

end Read

/-- Answers for the window at 15 only, with a series whose tags are not in order after one that has
no name. -/
def garbled : Session where
  blocks _ _ := .ok .empty
  metadata _ f :=
    if f.window.start = 15 then
      .ok [⟨[], .empty, 22⟩, ⟨[1], .ofList [([2], []), ([1], [])], 16⟩]
    else .error (.validation "unreachable")

theorem mem_garbled {f : Fetch} {l : List BlockMetadata} (h : garbled.metadata 0 f = .ok l)
    {m : BlockMetadata} (hm : m ∈ l) :
    m = ⟨[], .empty, 22⟩ ∨ m = ⟨[1], .ofList [([2], []), ([1], [])], 16⟩ := by
  simp only [garbled] at h
  split at h
  · cases h
    simpa using hm
  · cases h

theorem mem_told_garbled {t : Tuning} {r : Request} {shard : Shard} {v : TimeSet.Slice}
    {m : BlockMetadata} (hm : m ∈ told t garbled r shard v) :
    m = ⟨[], .empty, 22⟩ ∨ m = ⟨[1], .ofList [([2], []), ([1], [])], 16⟩ := by
  rw [told] at hm
  cases h : garbled.metadata 0 (indexFetch t r shard v.window) with
  | ok l =>
    rw [h] at hm
    exact mem_garbled h hm
  | error e =>
    rw [h] at hm
    cases hm
  | crash =>
    rw [h] at hm
    cases hm

theorem garbled_steady (id : NamespaceId) : garbled.SteadyMetadata id := by
  refine ⟨fun _ _ _ => rfl, fun f _ => ?_, fun f l _ h m hm => ?_⟩
  · simp only [garbled]
    split <;> simp
  · obtain rfl | rfl := mem_garbled h hm <;> decide

/-- The series with a name is found with its tags in order, and the block of the other is
missing. -/
theorem readIndex_documents_garbled :
    let policy : Policy :=
      ⟨{ blockSize := 10, indexed := true, indexBlockSize := 15 }, by decide, by decide⟩
    let options : RunOptions := ⟨{}, .ofOrigin [] 0⟩
    let request : Request :=
      ⟨[7], policy, [0], none, ⟨.empty, options⟩, ⟨Coverage.empty.add 0 ⟨5, 40⟩, options⟩⟩
    let tuning : Tuning := ⟨1, 1, 1, 1, .majority, .lru⟩
    let cluster : Cluster := ⟨fun _ => .ok garbled, none, none⟩
    ∃ f, (readIndex tuning cluster 0 request).outcome = .ok f ∧
      (∃ tags, f.index.document? 15 [1] = some tags ∧ tags.Sorts [([2], []), ([1], [])]) ∧
      f.index.document? 15 [] = none ∧ (0, 20) ∈ f.missing := by
  intro policy options request tuning cluster
  have words : request.index.ranges.FitsWords := Coverage.fitsWords_of_entries (by decide)
  obtain ⟨f, ok, documented, _⟩ := readIndex_documents (t := tuning) (garbled_steady [7])
    ⟨rfl, by decide, by decide⟩ words (show cluster.openSession 0 = .ok garbled from rfl)
  have slice : (⟨⟨15, 30⟩, ⟨15, 30⟩⟩ : TimeSet.Slice) ∈ indexSlices request 0 := by decide +kernel
  have hears {m : BlockMetadata} (hm : m ∈ told tuning garbled request 0 ⟨⟨15, 30⟩, ⟨15, 30⟩⟩) :
      m ∈ heard tuning garbled request 0 := List.mem_flatMap.mpr ⟨_, slice, hm⟩
  refine ⟨f, ok, ?_, ?_, ?_⟩
  · have indexable : BlockMetadata.Indexable ⟨[1], .ofList [([2], []), ([1], [])], 16⟩ :=
      ⟨by decide, Tags.named_ofList.mpr (by decide)⟩
    have present := (documented.present 15 [1]).mpr
      ⟨0, _, hears (List.mem_cons_of_mem _ List.mem_cons_self), indexable, by decide, rfl⟩
    obtain ⟨tags, found⟩ := Option.isSome_iff_exists.mp present
    obtain ⟨shard, m, hm, names, _, sorts⟩ := documented.fields 15 [1] tags found
    obtain ⟨v, _, hm⟩ := List.mem_flatMap.mp hm
    obtain rfl | rfl := mem_told_garbled hm
    · cases names.series
    · exact ⟨tags, found, sorts _ rfl⟩
  · rw [← Option.not_isSome_iff_eq_none, documented.present]
    rintro ⟨_, m, _, names⟩
    exact names.indexable.1 names.series
  · exact documented.invalid 0 _ slice _ List.mem_cons_self (by decide) 20 (by decide) (by decide)

end Peers

end Backfill
