import Backfill.Proofs.ChainedData
import Backfill.Proofs.Durability

/-!
What is on a disk that takes every call: each flush is one whole session, so the last session for
some files has the blocks of the last flush into them.
-/

namespace Backfill

/-- The disk takes every call. -/
structure Disk.Willing (disk : Disk) : Prop where
  answer : ∀ nth call, disk.answer nth call = .ok ()
  done : disk.done = .ok ()

/-- The last session put the block into the files, whatever tags it came with. -/
def Fileset.Took (f : Fileset) (h : DiskHistory) (id : SeriesId) (b : Block) : Prop :=
  ∃ last, f.lastSession h = some last ∧ ∃ tags, (.persist f id tags b, .ok ()) ∈ last

namespace Flush

variable {disk : Disk} {f : Fileset} {d : ShardData}

/-- The calls that one block takes. -/
def blockCalls (f : Fileset) (b : SeriesId × Tags × Block) : DiskHistory :=
  [(.persist f b.1 b.2.1 b.2.2, .ok ()), (.register f.shard b.1 f.start b.2.2.checksum, .ok ())]

/-- The blocks that start where the files do. -/
def blocksFor (f : Fileset) (d : ShardData) : List (SeriesId × Tags × Block) :=
  d.series.entries.filterMap fun e => (e.2.blocks.get? f.start).map (e.1, e.2.tags, ·)

/-- The calls after the files were opened. -/
def sessionCalls (f : Fileset) (d : ShardData) : DiskHistory :=
  (blocksFor f d).flatMap (blockCalls f) ++ [(.close f, .ok ())]

theorem mem_blocksFor {id : SeriesId} {b : Block} :
    (∃ tags, (id, tags, b) ∈ blocksFor f d) ↔ d.block? id f.start = some b := by
  simp only [blocksFor, ShardData.block?, List.mem_filterMap, Option.map_eq_some_iff,
    Option.bind_eq_some_iff]
  constructor
  · intro h
    obtain ⟨tags, ⟨id, s⟩, held, b, here, same⟩ := h
    cases same
    exact ⟨s, SortedMap.get?_eq_some_iff.mpr held, here⟩
  · intro h
    obtain ⟨s, held, here⟩ := h
    exact ⟨s.tags, (id, s), SortedMap.get?_eq_some_iff.mp held, b, here, rfl⟩

theorem mem_sessionCalls {e : DiskCall × Reply Unit} : e ∈ sessionCalls f d ↔
    (∃ b ∈ blocksFor f d, e ∈ blockCalls f b) ∨ e = (.close f, .ok ()) := by
  simp [sessionCalls]

variable (willing : disk.Willing)

include willing

theorem ask_willing (nth : Nat) (call : DiskCall) :
    ask disk nth call = ⟨[(call, .ok ())], .ok ()⟩ := by
  simp only [ask, willing.answer]

theorem register_willing (nth : Nat) (call : DiskCall) :
    register disk nth call = ⟨[(call, .ok ())], .ok ()⟩ := by
  simp only [register, willing.answer]

theorem persistBlock_willing (nth : Nat) (b : SeriesId × Tags × Block) :
    persistBlock disk f nth b = ⟨blockCalls f b, .ok ()⟩ := by
  rw [persistBlock, ask_willing willing, register_willing willing]
  rfl

theorem persistBlocks_willing (nth : Nat) (l : List (SeriesId × Tags × Block)) :
    persistBlocks disk f nth l = ⟨l.flatMap (blockCalls f), .ok ()⟩ := by
  induction l generalizing nth with
  | nil => rfl
  | cons b l ih =>
    simp only [persistBlocks]
    rw [persistBlock_willing willing, ih]
    rfl

theorem writeFileset_willing (nth : Nat) (d : ShardData) :
    writeFileset disk f nth d = ⟨(.prepare f, .ok ()) :: sessionCalls f d, .ok ()⟩ := by
  simp only [writeFileset, closeAfter]
  rw [ask_willing willing, persistBlocks_willing willing]
  simp only [Trail.bind]
  rw [ask_willing willing]
  rfl

theorem settles_willing (t : FlushTarget) {flush : Flush} {w : Interval}
    (hw : flush.part.windows t.blockSize = ⟨[w], .ok ()⟩) : flush.Settles (disk, t) False := by
  intro nth
  rw [write_eq t nth hw, writeFileset_willing willing]
  exact .inl ⟨not_false, rfl⟩

end Flush

namespace Peers

/-- The files of the window that the flush starts in. -/
def filesFor (t : FlushTarget) (f : Flush) : Fileset :=
  Flush.fileset t f.shard (f.part.start.floor t.blockSize)

/-- The calls that one flush takes. -/
def flushCalls (t : FlushTarget) (f : Flush) : DiskHistory :=
  (.prepare (filesFor t f), .ok ()) :: Flush.sessionCalls (filesFor t f) f.data

variable {disk : Disk} {t : FlushTarget} {s : DataState}

theorem DataAction.settles_of_willing (willing : disk.Willing) {a : Shard × DataAction}
    (one : a.2.OneWindow t.blockSize) (part : Interval) (d : ShardData)
    (flushes : a.2 = .flush part d) (target : Disk × FlushTarget)
    (ht : some (disk, t) = some target) : Flush.Settles ⟨a.1, d, part⟩ target False := by
  cases ht
  exact Flush.settles_willing willing t (one part d flushes)

namespace DataState

theorem act_willing (h : s.Sound) (willing : disk.Willing) {a : Shard × DataAction}
    (quiet : a.2.Quiet) (one : a.2.OneWindow t.blockSize) :
    (act (some (disk, t)) s a).Sound ∧ (act (some (disk, t)) s a).history =
      s.history ++ (QueueRun.flushOf a).toList.flatMap (flushCalls t) := by
  have steps : (act (some (disk, t)) s a).Sound ∧ ∀ p, (act (some (disk, t)) s a).Lacks p ↔
      s.Lacks p ∨ DataAction.LosesIf (some (disk, t)) (fun _ => False) a p :=
    act_settles h (DataAction.settles_of_willing willing one)
  refine ⟨steps.1, ?_⟩
  obtain ⟨shard, action⟩ := a
  cases action with
  | event e =>
    rw [event_history _ quiet]
    exact (List.append_nil _).symm
  | miss part => exact (List.append_nil _).symm
  | keep d => exact (List.append_nil _).symm
  | flush part d =>
    have written : Flush.write disk t s.calls ⟨shard, d, part⟩ =
        ⟨flushCalls t ⟨shard, d, part⟩, .ok ()⟩ := by
      rw [Flush.write_eq t s.calls (one part d rfl), Flush.writeFileset_willing willing]
      rfl
    have ends : FlushQueue.ending (Flush.write disk t s.calls ⟨shard, d, part⟩).outcome =
        .settle true := by rw [written]; rfl
    apply (flush_history disk t (FlushQueue.pass_settle h.ready ⟨shard, d, part⟩ ends)).trans
    rw [written]
    simp [QueueRun.flushOf]

/-- What a disk that takes every call was asked: the flushes one after the other. -/
theorem run_willing (h : s.Sound) (willing : disk.Willing) {l : List (Shard × DataAction)}
    (quiet : ∀ a ∈ l, a.2.Quiet) (one : ∀ a ∈ l, a.2.OneWindow t.blockSize) :
    (run (some (disk, t)) s l).history =
      s.history ++ (l.filterMap QueueRun.flushOf).flatMap (flushCalls t) := by
  induction l generalizing s with
  | nil => exact (List.append_nil _).symm
  | cons a l ih =>
    obtain ⟨sound, history⟩ :=
      act_willing h willing (quiet a List.mem_cons_self) (one a List.mem_cons_self)
    rw [run, List.foldl_cons]
    apply (ih sound (fun b hb => quiet b (List.mem_cons_of_mem _ hb))
      fun b hb => one b (List.mem_cons_of_mem _ hb)).trans
    rw [history, List.append_assoc, ← List.flatMap_append, List.filterMap_cons]
    cases QueueRun.flushOf a <;> rfl

end DataState

end Peers

theorem exists_last {α : Type} {p : α → Prop} {l : List α} (h : ∃ a ∈ l, p a) :
    ∃ before a after, l = before ++ a :: after ∧ p a ∧ ∀ b ∈ after, ¬ p b := by
  induction l with
  | nil =>
    obtain ⟨_, ha, _⟩ := h
    cases ha
  | cons c l ih =>
    by_cases later : ∃ a ∈ l, p a
    · obtain ⟨before, a, after, rfl, ha, none⟩ := ih later
      exact ⟨c :: before, a, after, rfl, ha, none⟩
    · refine ⟨[], c, l, rfl, ?_, fun b hb hp => later ⟨b, hb, hp⟩⟩
      obtain ⟨a, ha, hp⟩ := h
      rcases List.mem_cons.mp ha with rfl | ha
      · exact hp
      · exact absurd ⟨a, ha, hp⟩ later

theorem Fileset.mem_of_lastSession {f : Fileset} {h last : DiskHistory}
    (found : f.lastSession h = some last) {e : DiskCall × Reply Unit} (he : e ∈ last) : e ∈ h := by
  induction h with
  | nil => cases found
  | cons c h ih =>
    rw [lastSession] at found
    cases rest : f.lastSession h with
    | some l =>
      rw [rest] at found
      cases found
      exact List.mem_cons_of_mem _ (ih rest)
    | none =>
      rw [rest, Option.none_or] at found
      split at found
      · cases found
        exact List.mem_cons_of_mem _ he
      · cases found

namespace Peers

variable {t : FlushTarget} {flushes : List Flush} {f : Fileset}

/-- A flush opens its own files, and these only at its beginning. -/
theorem unopened_sessionCalls (f g : Fileset) (d : ShardData) :
    f.Unopened (Flush.sessionCalls g d) := by
  intro reply h
  rcases Flush.mem_sessionCalls.mp h with ⟨b, _, h⟩ | h
  · simp [Flush.blockCalls] at h
  · cases h

theorem unopened_flushes (others : ∀ flush ∈ flushes, filesFor t flush ≠ f) :
    f.Unopened (flushes.flatMap (flushCalls t)) := by
  intro reply h
  obtain ⟨flush, hf, h⟩ := List.mem_flatMap.mp h
  rcases List.mem_cons.mp h with h | h
  · cases h
    exact others flush hf rfl
  · exact unopened_sessionCalls _ _ _ _ h

theorem mem_persist {id : SeriesId} {tags : Tags} {b : Block} :
    (.persist f id tags b, .ok ()) ∈ flushes.flatMap (flushCalls t) ↔
      ∃ flush ∈ flushes, filesFor t flush = f ∧ (id, tags, b) ∈ Flush.blocksFor f flush.data := by
  simp only [List.mem_flatMap, flushCalls, List.mem_cons, Flush.mem_sessionCalls, Flush.blockCalls]
  constructor
  · intro h
    obtain ⟨flush, hf, h | ⟨⟨id', tags', b'⟩, hb, h | h | h⟩ | h⟩ := h <;> cases h
    exact ⟨flush, hf, rfl, hb⟩
  · intro h
    obtain ⟨flush, hf, rfl, hb⟩ := h
    exact ⟨flush, hf, .inr (.inl ⟨(id, tags, b), hb, .inl rfl⟩)⟩

theorem mem_register {shard : Shard} {id : SeriesId} {start : Instant} {sum : Checksum}
    {reply : Reply Unit} : (.register shard id start sum, reply) ∈ flushes.flatMap (flushCalls t) ↔
      reply = .ok () ∧ ∃ flush ∈ flushes, filesFor t flush = Flush.fileset t shard start ∧
        ∃ b, flush.data.block? id start = some b ∧ b.checksum = sum := by
  simp only [List.mem_flatMap, flushCalls, List.mem_cons, Flush.mem_sessionCalls, Flush.blockCalls]
  constructor
  · intro h
    obtain ⟨flush, hf, h | ⟨⟨id', tags', b'⟩, hb, h | h | h⟩ | h⟩ := h <;> cases h
    exact ⟨rfl, flush, hf, rfl, b', Flush.mem_blocksFor.mp ⟨tags', hb⟩, rfl⟩
  · intro h
    obtain ⟨rfl, flush, hf, same, b, held, rfl⟩ := h
    obtain ⟨tags, hb⟩ := Flush.mem_blocksFor.mpr
      (show flush.data.block? id (Flush.fileset t shard start).start = some b from held)
    exact ⟨flush, hf, .inr (.inl ⟨(id, tags, b), same ▸ hb, .inr (.inl (by rw [same]; rfl))⟩)⟩

/-- The last session is that of the last flush into the files. -/
theorem lastSession_flushes (h : ∃ flush ∈ flushes, filesFor t flush = f) :
    ∃ flush ∈ flushes, filesFor t flush = f ∧ ∃ later,
      f.lastSession (flushes.flatMap (flushCalls t)) =
        some (Flush.sessionCalls f flush.data ++ later) := by
  obtain ⟨before, last, after, rfl, there, none⟩ := exists_last h
  refine ⟨last, List.mem_append_right _ List.mem_cons_self, there,
    after.flatMap (flushCalls t), ?_⟩
  rw [List.flatMap_append, List.flatMap_cons, flushCalls, there, List.cons_append]
  exact Fileset.lastSession_append
    ((unopened_sessionCalls f f last.data).append (unopened_flushes none))

/-- Every last session was closed. -/
theorem closed_of_lastSession {last : DiskHistory}
    (found : f.lastSession (flushes.flatMap (flushCalls t)) = some last) :
    (.close f, .ok ()) ∈ last := by
  by_cases opened : ∃ flush ∈ flushes, filesFor t flush = f
  · obtain ⟨flush, _, _, later, session⟩ := lastSession_flushes opened
    cases found.symm.trans session
    exact List.mem_append_left _ (Flush.mem_sessionCalls.mpr (.inr rfl))
  · have none := unopened_flushes fun flush hf same => opened ⟨flush, hf, same⟩
    rw [Fileset.lastSession_of_unopened none] at found
    cases found

/-- All flushes into the same files bring the same data. -/
def Agree (t : FlushTarget) (flushes : List Flush) : Prop :=
  ∀ flush ∈ flushes, ∀ other ∈ flushes, filesFor t flush = filesFor t other →
    flush.data = other.data

/-- The last session has what any flush into the files brought, since they all bring the same. -/
theorem took_iff (agree : Agree t flushes) {id : SeriesId} {b : Block} :
    f.Took (flushes.flatMap (flushCalls t)) id b ↔
      ∃ flush ∈ flushes, filesFor t flush = f ∧ flush.data.block? id f.start = some b := by
  constructor
  · intro h
    obtain ⟨last, found, tags, taken⟩ := h
    obtain ⟨flush, hf, same, hb⟩ := mem_persist.mp (Fileset.mem_of_lastSession found taken)
    exact ⟨flush, hf, same, Flush.mem_blocksFor.mp ⟨tags, hb⟩⟩
  · intro h
    obtain ⟨flush, hf, same, held⟩ := h
    obtain ⟨last, hl, there, later, session⟩ := lastSession_flushes ⟨flush, hf, same⟩
    rw [agree flush hf last hl (same.trans there.symm)] at held
    obtain ⟨tags, hb⟩ := Flush.mem_blocksFor.mpr held
    refine ⟨_, session, tags, List.mem_append_left _ ?_⟩
    exact Flush.mem_sessionCalls.mpr (.inl ⟨_, hb, .head _⟩)

end Peers

end Backfill
