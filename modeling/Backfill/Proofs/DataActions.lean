import Backfill.Peers.Data
import Backfill.Proofs.Flush
import Backfill.Proofs.Folds
import Backfill.Proofs.ShardData
import Backfill.Proofs.Windows

/-!
What the actions of the workers add up to, whatever their order: an instant is missing when some
action loses it, and a shard holds what was kept for it.
-/

namespace Backfill

/-- Nothing is on its way. -/
structure FlushQueue.Ready (q : FlushQueue) : Prop where
  idle : q.consumer = .idle
  waiting : q.waiting = []
  ledger : q.ledger = []
  room : 0 < q.capacity

namespace FlushQueue

theorem ready_ofCapacity {capacity : Nat} (h : 0 < capacity) : (ofCapacity capacity).Ready :=
  ⟨rfl, rfl, rfl, h⟩

theorem pass_settle {q : FlushQueue} (h : q.Ready) (f : Flush) {outcome : Except Failure Unit}
    {written : Bool} (he : ending outcome = .settle written) :
    q.pass f outcome = some { q with
      next := q.next + 1
      missing := if written then q.missing else q.missing.add f.shard f.part
      settled := q.settled ++ [(q.next, written)] } := by
  obtain ⟨capacity, next, ledger, waiting, consumer, missing, settled⟩ := q
  obtain ⟨idle, hw, hl, room⟩ := h
  dsimp only at idle hw hl room
  subst idle hw hl
  simp [pass, he, moves?, move?, offer, enter?, receive?, settle?, strike, room]

end FlushQueue

namespace Peers

namespace DataAction

def kept : DataAction → Option ShardData
  | .keep d => some d
  | _ => none

/-- The action of a shard's worker loses `p`. -/
def Loses (target : Option (Disk × FlushTarget)) (a : Shard × DataAction) (p : Shard × Instant) :
    Prop :=
  p.1 = a.1 ∧
    match a.2, target with
    | .miss part, _ | .flush part _, none => p.2 ∈ part
    | .flush part d, some t =>
      p.2 ∈ part ∧
        t.1.Spoils (Flush.fileset t.2 a.1 (part.start.floor t.2.blockSize)) d
    | _, _ => False

/-- The action of a shard's worker loses `p`, where the flushes that go wrong are the `bad` ones. -/
def LosesIf (target : Option (Disk × FlushTarget)) (bad : Flush → Prop) (a : Shard × DataAction)
    (p : Shard × Instant) : Prop :=
  p.1 = a.1 ∧
    match a.2, target with
    | .miss part, _ | .flush part _, none => p.2 ∈ part
    | .flush part d, some _ => p.2 ∈ part ∧ bad ⟨a.1, d, part⟩
    | _, _ => False

/-- The disk spoils the files of the window that the flush starts in. -/
def Spoiled (target : Option (Disk × FlushTarget)) (f : Flush) : Prop :=
  ∀ t, target = some t →
    t.1.Spoils (Flush.fileset t.2 f.shard (f.part.start.floor t.2.blockSize)) f.data

theorem loses_iff {target : Option (Disk × FlushTarget)} {a : Shard × DataAction}
    {p : Shard × Instant} : Loses target a p ↔ LosesIf target (Spoiled target) a p := by
  obtain ⟨shard, a⟩ := a
  cases a with
  | flush part d => cases target <;> simp [Loses, LosesIf, Spoiled]
  | _ => simp [Loses, LosesIf]

/-- A flush covers no more than one window. -/
def OneWindow (size : Duration) (a : DataAction) : Prop :=
  ∀ part d, a = .flush part d →
    part.windows size = ⟨[Interval.around part.start size], .ok ()⟩

theorem settles_of_steady {target : Option (Disk × FlushTarget)}
    (steady : ∀ t, target = some t → t.1.Steady) {l : List (Shard × DataAction)}
    (one : ∀ a ∈ l, ∀ t, target = some t → a.2.OneWindow t.2.blockSize) (a : Shard × DataAction)
    (ha : a ∈ l) (part : Interval) (d : ShardData) (flushes : a.2 = .flush part d)
    (t : Disk × FlushTarget) (ht : target = some t) :
    Flush.Settles ⟨a.1, d, part⟩ t (Spoiled target ⟨a.1, d, part⟩) := by
  refine (Flush.settles_of_steady (steady t ht) t.2 (one a ha t ht part d flushes)).congr ?_
  simp [Spoiled, ht, Interval.around]

end DataAction

namespace DataState

/-- So far, `p` is missing. -/
def Lacks (s : DataState) (p : Shard × Instant) : Prop := p ∈ s.data.missing ∨ p ∈ s.queue.missing

structure Sound (s : DataState) : Prop where
  ready : s.queue.Ready
  data : s.data.missing.Canonical
  queue : s.queue.missing.Canonical
  filled : s.data.Filled

theorem sound_ofCapacity {capacity : Nat} (h : 0 < capacity) : (ofCapacity capacity).Sound :=
  ⟨FlushQueue.ready_ofCapacity h, .empty, .empty, fun _ _ h => by cases h⟩

variable {s : DataState} {target : Option (Disk × FlushTarget)}

theorem Sound.event (h : s.Sound) (log : List Event) : Sound { s with log } :=
  ⟨h.ready, h.data, h.queue, h.filled⟩

theorem Sound.addMissing (h : s.Sound) (shard : Shard) (part : Interval) :
    Sound { s with data := s.data.addMissing shard part } :=
  ⟨h.ready, h.data.add shard part, h.queue, h.filled⟩

theorem lacks_addMissing (h : s.Sound) (shard : Shard) (part : Interval) (p : Shard × Instant) :
    Lacks { s with data := s.data.addMissing shard part } p ↔
      s.Lacks p ∨ p.1 = shard ∧ p.2 ∈ part := by
  simp only [Lacks, RecoveredData.addMissing, Coverage.mem_add h.data, or_right_comm]

theorem Sound.addShard (h : s.Sound) (shard : Shard) (d : ShardData) :
    Sound { s with data := s.data.addShard shard d } :=
  ⟨h.ready, by rw [RecoveredData.addShard_missing]; exact h.data, h.queue,
    h.filled.addShard shard d⟩

theorem flush_shards (t : Disk × FlushTarget) (s : DataState) (f : Flush) :
    (s.flush t f).data.shards = s.data.shards := by
  unfold flush
  dsimp only
  split <;> rfl

theorem act_held (target : Option (Disk × FlushTarget)) (s : DataState) (a : Shard × DataAction)
    (shard : Shard) : (act target s a).data.held shard =
      (a.2.kept.toList.filter fun _ => a.1 = shard).foldl .merge (s.data.held shard) := by
  obtain ⟨own, action⟩ := a
  cases action with
  | event e => rfl
  | miss part => rfl
  | keep d =>
    simp only [act, RecoveredData.held_addShard, DataAction.kept, Option.toList_some,
      List.filter_cons, List.filter_nil]
    by_cases eq : own = shard
    · simp [eq]
    · simp [eq, Ne.symm eq]
  | flush part d =>
    cases target with
    | none => rfl
    | some t => exact congrArg (fun m => (m.get? shard).getD .empty) (flush_shards t s _)

theorem act_filled {a : Shard × DataAction} (h : s.data.Filled) : (act target s a).data.Filled := by
  obtain ⟨own, action⟩ := a
  cases action with
  | event e => exact h
  | miss part => exact h
  | keep d => exact h.addShard own d
  | flush part d =>
    cases target with
    | none => exact h
    | some t =>
      have same := flush_shards t s ⟨own, d, part⟩
      exact fun shard e he => h shard e (same ▸ he)

/-- The actions of a shard's worker that keep something, in order. -/
def keptFor (shard : Shard) (l : List (Shard × DataAction)) : List ShardData :=
  (l.filter (·.1 = shard)).filterMap (·.2.kept)

/-- Whatever else happens, a shard holds what was kept for it. -/
theorem run_held (target : Option (Disk × FlushTarget)) (s : DataState)
    (l : List (Shard × DataAction)) (shard : Shard) :
    (run target s l).data.held shard = (keptFor shard l).foldl .merge (s.data.held shard) := by
  induction l generalizing s with
  | nil => rfl
  | cons a l ih =>
    rw [run, List.foldl_cons]
    apply (ih _).trans
    rw [act_held, ← List.foldl_append]
    congr 1
    simp only [keptFor, List.filter_cons]
    by_cases eq : a.1 = shard
    · simp only [eq, decide_true, ↓reduceIte, List.filterMap_cons]
      cases a.2.kept <;> simp
    · simp [eq]

theorem run_filled (l : List (Shard × DataAction)) (h : s.data.Filled) :
    (run target s l).data.Filled := by
  refine List.foldlRecOn (motive := fun s => s.data.Filled) l (act target) h ?_
  exact fun _ before _ _ => act_filled before

/-- A flush is written or its part is missing, and the queue is ready for the next. -/
theorem flush_ends (h : s.Sound) {t : Disk × FlushTarget} {f : Flush} {bad : Prop}
    (ends : Flush.Ends (f.write t.1 t.2 s.calls) bad) :
    (s.flush t f).Sound ∧
      ∀ p, (s.flush t f).Lacks p ↔ s.Lacks p ∨ p.1 = f.shard ∧ p.2 ∈ f.part ∧ bad := by
  simp only [flush]
  rcases ends with ⟨hgood, ho⟩ | ⟨hbad, e, ho⟩
  · have he : FlushQueue.ending (f.write t.1 t.2 s.calls).outcome = .settle true := by rw [ho]; rfl
    rw [FlushQueue.pass_settle h.ready f he]
    refine ⟨⟨⟨h.ready.idle, h.ready.waiting, h.ready.ledger, h.ready.room⟩, h.data, h.queue,
      h.filled⟩, fun p => ?_⟩
    constructor
    · exact .inl
    · intro hm
      rcases hm with hl | ⟨_, _, hb⟩
      · exact hl
      · exact absurd hb hgood
  · have he : FlushQueue.ending (f.write t.1 t.2 s.calls).outcome = .settle false := by rw [ho]; rfl
    rw [FlushQueue.pass_settle h.ready f he]
    refine ⟨⟨⟨h.ready.idle, h.ready.waiting, h.ready.ledger, h.ready.room⟩, h.data,
      h.queue.add _ _, h.filled⟩, fun p => ?_⟩
    simp only [Lacks, Bool.false_eq_true, ↓reduceIte, Coverage.mem_add h.queue, hbad, and_true,
      or_assoc]

theorem flush_settles (h : s.Sound) {t : Disk × FlushTarget} {f : Flush} {bad : Prop}
    (settles : f.Settles t bad) :
    (s.flush t f).Sound ∧
      ∀ p, (s.flush t f).Lacks p ↔ s.Lacks p ∨ p.1 = f.shard ∧ p.2 ∈ f.part ∧ bad :=
  flush_ends h (settles s.calls)

theorem act_missing (target : Option (Disk × FlushTarget)) (h : s.data.missing.Canonical)
    (a : Shard × DataAction) :
    (act target s a).data.missing.Canonical ∧ ∀ p ∈ (act target s a).data.missing,
      p ∈ s.data.missing ∨ DataAction.LosesIf target (fun _ => True) a p := by
  obtain ⟨shard, action⟩ := a
  have lost (part : Interval) {p : Shard × Instant} (hp : p ∈ s.data.missing.add shard part) :
      p ∈ s.data.missing ∨ p.1 = shard ∧ p.2 ∈ part := (Coverage.mem_add h).mp hp
  cases action with
  | event e => exact ⟨h, fun p hp => .inl hp⟩
  | miss part => exact ⟨h.add shard part, fun p hp => lost part hp⟩
  | keep d =>
    have same : (act target s (shard, .keep d)).data.missing = s.data.missing :=
      RecoveredData.addShard_missing _ _ _
    rw [same]
    exact ⟨h, fun p hp => .inl hp⟩
  | flush part d =>
    cases target with
    | none => exact ⟨h.add shard part, fun p hp => lost part hp⟩
    | some t =>
      simp only [act, flush]
      cases s.queue.pass _ (Flush.write t.1 t.2 s.calls ⟨shard, d, part⟩).outcome with
      | some queue => exact ⟨h, fun p hp => .inl hp⟩
      | none =>
        refine ⟨h.add shard part, fun p hp => ?_⟩
        simpa [DataAction.LosesIf] using lost part hp

/-- Whatever becomes of the flushes, no more is missing than the actions lose and flush. -/
theorem run_missing (target : Option (Disk × FlushTarget)) (h : s.data.missing.Canonical)
    (l : List (Shard × DataAction)) :
    (run target s l).data.missing.Canonical ∧ ∀ p ∈ (run target s l).data.missing,
      p ∈ s.data.missing ∨ ∃ a ∈ l, DataAction.LosesIf target (fun _ => True) a p := by
  induction l generalizing s with
  | nil => exact ⟨h, fun p hp => .inl hp⟩
  | cons a l ih =>
    obtain ⟨canonical, now⟩ := act_missing target h a
    obtain ⟨canonical', later⟩ := ih canonical
    refine ⟨canonical', fun p hp => ?_⟩
    rcases later p hp with before | ⟨b, hb, loses⟩
    · rcases now p before with before | loses
      · exact .inl before
      · exact .inr ⟨a, .head _, loses⟩
    · exact .inr ⟨b, .tail _ hb, loses⟩

variable {bad : Flush → Prop}

/-- One action keeps the state sound, and loses just what it says. -/
theorem act_settles (h : s.Sound) {a : Shard × DataAction}
    (settles : ∀ part d, a.2 = .flush part d → ∀ t, target = some t →
      Flush.Settles ⟨a.1, d, part⟩ t (bad ⟨a.1, d, part⟩)) :
    (act target s a).Sound ∧
      ∀ p, (act target s a).Lacks p ↔ s.Lacks p ∨ DataAction.LosesIf target bad a p := by
  obtain ⟨shard, action⟩ := a
  cases action with
  | event e => exact ⟨h.event _, fun p => by simp [act, Lacks, DataAction.LosesIf]⟩
  | miss part => exact ⟨h.addMissing _ _, fun p => lacks_addMissing h shard part p⟩
  | keep d =>
    refine ⟨h.addShard shard d, fun p => ?_⟩
    simp [act, Lacks, DataAction.LosesIf, RecoveredData.addShard_missing]
  | flush part d =>
    cases target with
    | none => exact ⟨h.addMissing _ _, fun p => lacks_addMissing h shard part p⟩
    | some t => exact flush_settles h (settles part d rfl t rfl)

theorem run_settles (h : s.Sound) {l : List (Shard × DataAction)}
    (settles : ∀ a ∈ l, ∀ part d, a.2 = .flush part d → ∀ t, target = some t →
      Flush.Settles ⟨a.1, d, part⟩ t (bad ⟨a.1, d, part⟩)) :
    (run target s l).Sound ∧
      ∀ p, (run target s l).Lacks p ↔ s.Lacks p ∨ ∃ a ∈ l, DataAction.LosesIf target bad a p :=
  foldl_adds Sound Lacks (DataAction.LosesIf target bad)
    (fun a ha _ hm => act_settles hm (settles a ha)) h

theorem mem_finish (h : s.data.missing.Canonical) (disk : Disk) (asked : Coverage)
    (p : Shard × Instant) : p ∈ (s.finish disk asked).data.missing ↔
      (p ∈ s.data.missing ∨ p ∈ s.queue.close.missing) ∨
        (∃ e, disk.done = .error e) ∧ p ∈ asked := by
  simp only [finish]
  cases disk.done with
  | ok u => simp [RecoveredData.addAllMissing, Coverage.mem_union h]
  | error e =>
    simp [RecoveredData.addAllMissing, Coverage.mem_union (h.union _), Coverage.mem_union h]

theorem finish_canonical (h : s.data.missing.Canonical) (disk : Disk) (asked : Coverage) :
    (s.finish disk asked).data.missing.Canonical := by
  simp only [finish]
  cases disk.done with
  | ok u => exact h.union _
  | error e => exact (h.union _).union _

theorem finish_shards (s : DataState) (disk : Disk) (asked : Coverage) :
    (s.finish disk asked).data.shards = s.data.shards := by
  simp only [finish]
  cases disk.done <;> rfl

/-- Closing a ready queue and committing adds nothing, unless the commit fails. -/
theorem finish_step (h : s.Sound) (disk : Disk) (asked : Coverage) (p : Shard × Instant) :
    p ∈ (s.finish disk asked).data.missing ↔
      s.Lacks p ∨ (∃ e, disk.done = .error e) ∧ p ∈ asked := by
  have hq : s.queue.close.missing = s.queue.missing := by
    simp [FlushQueue.close, h.ready.ledger]
  rw [mem_finish h.data, hq]
  rfl

end DataState

end Peers

end Backfill
