import Backfill.Proofs.IndexDocuments
import Backfill.Proofs.Interleaving
import Backfill.Proofs.QueueSchedules

/-!
What a read from peers comes to when the workers of the shards take turns in another way. Of the
data of a shard only its own worker has a say, and what is missing adds up. Flushes go through one
disk, whose answers may depend on the calls before; so which of them are written may depend on the
turns. Documents of the index are shared between shards, and the first of a series goes into a
block; so which tags it has does depend on the turns, unless a series comes with the same tags from
everywhere.
-/

namespace Backfill

/-- If it ends with or without an error whatever came before, it does so from the start. -/
theorem Flush.Settles.refused {f : Flush} {d : Disk × FlushTarget} {bad : Prop}
    (h : f.Settles d bad) : f.Settles d (∃ e, (f.write d.1 d.2 0).outcome = .error (.error e)) := by
  refine h.congr ?_
  rcases h 0 with ⟨good, ok⟩ | ⟨bad, failed⟩
  · simp [good, ok]
  · simp [bad, failed]

/-- `p` is missing where the flush is not written. -/
def Flush.Covers (f : Flush) (p : Shard × Instant) : Prop := p.1 = f.shard ∧ p.2 ∈ f.part

namespace Peers

variable {t : Tuning} {c : Cluster} {nth : Nat} {r : Request} {session : Session}

section Turns

variable {ε : Type} {work : List (ShardWork ε)} {l : List (Shard × ε)}

theorem mem_turns (h : Interleaves (work.map ShardWork.actions) l) (a : Shard × ε) :
    a ∈ l ↔ a ∈ work.flatMap ShardWork.actions := h.mem_iff

/-- The actions of each shard come in the order of its worker. -/
theorem filter_turns (h : Interleaves (work.map ShardWork.actions) l)
    (apart : work.Pairwise (·.shard ≠ ·.shard)) (shard : Shard) :
    l.filter (·.1 = shard) = (work.flatMap ShardWork.actions).filter (·.1 = shard) := by
  have none {w : ShardWork ε} (other : w.shard ≠ shard) :
      w.actions.filter (·.1 = shard) = [] := by
    rw [List.filter_eq_nil_iff]
    intro a ha
    obtain ⟨_, _, rfl⟩ := List.mem_map.mp ha
    simpa using other
  refine h.filter_eq (List.pairwise_map.mpr (apart.imp fun {v w} differ => ?_))
  by_cases here : v.shard = shard
  · exact .inr (none fun there => differ (here.trans there.symm))
  · exact .inl (none here)

end Turns

section Data

variable {target : Option (Disk × FlushTarget)} {l l' : List (Shard × DataAction)}

theorem dataWork_apart (t : Tuning) (session : Session) (how : Delivery) (r : Request) :
    (dataWork t session how r).Pairwise (·.shard ≠ ·.shard) :=
  List.pairwise_map.mpr r.data.ranges.sets.keys_distinct

/-- Why the flushes of two orders fare alike: they come in one order, or what becomes of each does
not depend on the calls before it. -/
inductive FlushAlike (d : Disk × FlushTarget) (l l' : List (Shard × DataAction)) : Prop
  | ordered (h : l.filterMap QueueRun.flushOf = l'.filterMap QueueRun.flushOf)
  | settled (h : ∀ f ∈ l.filterMap QueueRun.flushOf, ∃ bad, f.Settles d bad)

/-- `s'` has come as far as `s`, and is missing `extra` besides. -/
structure Ahead (extra : Shard × Instant → Prop) (s s' : DataState) : Prop where
  queue : s'.queue = s.queue
  calls : s'.calls = s.calls
  canonical : s.data.missing.Canonical
  canonical' : s'.data.missing.Canonical
  missing : ∀ p, p ∈ s'.data.missing ↔ p ∈ s.data.missing ∨ extra p

variable {extra extra' : Shard × Instant → Prop} {s s' : DataState}

theorem Ahead.congr (h : Ahead extra s s') (iff : ∀ p, extra p ↔ extra' p) : Ahead extra' s s' :=
  ⟨h.queue, h.calls, h.canonical, h.canonical', fun p =>
    (h.missing p).trans (or_congr_right (iff p))⟩

theorem Ahead.flush (h : Ahead extra s s') (d : Disk × FlushTarget) (f : Flush) :
    Ahead extra (s.flush d f) (s'.flush d f) := by
  simp only [DataState.flush, h.queue, h.calls]
  cases s.queue.pass f (f.write d.1 d.2 s.calls).outcome with
  | some queue => exact ⟨rfl, rfl, h.canonical, h.canonical', h.missing⟩
  | none =>
    refine ⟨rfl, rfl, h.canonical.add _ _, h.canonical'.add _ _, fun p => ?_⟩
    simp only [RecoveredData.addMissing, Coverage.mem_add h.canonical,
      Coverage.mem_add h.canonical', h.missing, or_right_comm]

/-- The flushes alone come as far as the whole run. -/
theorem Ahead.run (h : Ahead extra s s') (d : Disk × FlushTarget) (l : List (Shard × DataAction)) :
    Ahead (fun p => extra p ∨ ∃ a ∈ l, DataAction.LosesIf (some d) (fun _ => False) a p)
      ((l.filterMap QueueRun.flushOf).foldl (·.flush d) s) (s'.run (some d) l) := by
  induction l generalizing extra s s' with
  | nil => exact h.congr fun p => by simp
  | cons a l ih =>
    obtain ⟨shard, action⟩ := a
    cases action with
    | event e =>
      have next : Ahead extra s (s'.act (some d) (shard, .event e)) :=
        ⟨h.queue, h.calls, h.canonical, h.canonical', h.missing⟩
      exact (ih next).congr fun p => by simp [DataAction.LosesIf]
    | miss part =>
      have next : Ahead (fun p => extra p ∨ p.1 = shard ∧ p.2 ∈ part) s
          (s'.act (some d) (shard, .miss part)) := by
        refine ⟨h.queue, h.calls, h.canonical, h.canonical'.add _ _, fun p => ?_⟩
        rw [← or_assoc, ← h.missing]
        exact Coverage.mem_add h.canonical'
      exact (ih next).congr fun p => by simp [DataAction.LosesIf, or_assoc]
    | keep data =>
      have same : (s'.data.addShard shard data).missing = s'.data.missing :=
        RecoveredData.addShard_missing _ _ _
      have next : Ahead extra s (s'.act (some d) (shard, .keep data)) :=
        ⟨h.queue, h.calls, h.canonical, same ▸ h.canonical', fun p => same ▸ h.missing p⟩
      exact (ih next).congr fun p => by simp [DataAction.LosesIf]
    | flush part data =>
      exact (ih (h.flush d ⟨shard, data, part⟩)).congr fun p => by simp [DataAction.LosesIf]

/-- What is missing after a run that persists follows from the order of its flushes and from which
parts its workers miss. -/
theorem dataOutcome_ordered (t : Tuning) (r : Request) (d : Disk × FlushTarget)
    (l : List (Shard × DataAction)) :
    let s := (l.filterMap QueueRun.flushOf).foldl (·.flush d) (DataState.ofCapacity t.queueCapacity)
    (dataOutcome t (some d) r l).data.missing.Canonical ∧
      ∀ p, p ∈ (dataOutcome t (some d) r l).data.missing ↔
        ((p ∈ s.data.missing ∨ ∃ a ∈ l, DataAction.LosesIf (some d) (fun _ => False) a p) ∨
          p ∈ s.queue.close.missing) ∨ (∃ e, d.1.done = .error e) ∧ p ∈ r.data.ranges := by
  have start : Ahead (fun _ => False) (.ofCapacity t.queueCapacity)
      (.ofCapacity t.queueCapacity) :=
    ⟨rfl, rfl, .empty, .empty, fun p => by simp⟩
  have ahead := start.run d l
  refine ⟨DataState.finish_canonical ahead.canonical' _ _, fun p => ?_⟩
  apply (DataState.mem_finish ahead.canonical' d.1 r.data.ranges p).trans
  rw [ahead.missing, ahead.queue, false_or]

/-- Orders of the same actions lose the same, where it is clear which flushes are bad. -/
theorem missing_of_settles (valid : t.validate = .ok ()) (same : ∀ a, a ∈ l ↔ a ∈ l')
    (bad : Flush → Prop) (settles : ∀ a ∈ l, ∀ part d, a.2 = .flush part d →
      ∀ t, target = some t → Flush.Settles ⟨a.1, d, part⟩ t (bad ⟨a.1, d, part⟩)) :
    (dataOutcome t target r l).data.missing = (dataOutcome t target r l').data.missing := by
  obtain ⟨canonical, missing⟩ := dataOutcome_settles (r := r) valid settles
  obtain ⟨canonical', missing'⟩ := dataOutcome_settles (r := r) valid
    fun a ha => settles a ((same a).mpr ha)
  refine canonical.ext canonical' fun p => ?_
  rw [missing, missing']
  simp only [same]

theorem missing_of_alike (valid : t.validate = .ok ()) (same : ∀ a, a ∈ l ↔ a ∈ l')
    (alike : ∀ d, target = some d → FlushAlike d l l') :
    (dataOutcome t target r l).data.missing = (dataOutcome t target r l').data.missing := by
  cases target with
  | none =>
    exact missing_of_settles valid same (fun _ => False) fun _ _ _ _ _ _ none => by cases none
  | some d =>
    cases alike d rfl with
    | ordered h =>
      obtain ⟨canonical, missing⟩ := dataOutcome_ordered t r d l
      obtain ⟨canonical', missing'⟩ := dataOutcome_ordered t r d l'
      refine canonical.ext canonical' fun p => ?_
      rw [missing, missing', h]
      simp only [same]
    | settled h =>
      refine missing_of_settles valid same
        (fun f => ∃ e, (f.write d.1 d.2 0).outcome = .error (.error e))
        fun a ha part data flushes t ht => ?_
      obtain ⟨bad, settles⟩ := h ⟨a.1, data, part⟩
        (List.mem_filterMap.mpr ⟨a, ha, by simp [QueueRun.flushOf, flushes]⟩)
      cases ht
      exact settles.refused

/-- Where nothing is flushed, orders of the same actions miss the same. -/
theorem missing_of_unflushed (valid : t.validate = .ok ()) (same : ∀ a, a ∈ l ↔ a ∈ l')
    {p : Shard × Instant} (unflushed : ∀ f ∈ l.filterMap QueueRun.flushOf, ¬ f.Covers p)
    (missing : p ∈ (dataOutcome t target r l).data.missing) :
    p ∈ (dataOutcome t target r l').data.missing := by
  cases target with
  | none =>
    rw [← missing_of_settles valid same (fun _ => False) fun _ _ _ _ _ _ none => by cases none]
    exact missing
  | some d =>
    obtain ⟨_, there⟩ := dataOutcome_ordered t r d l'
    refine (there p).mpr ?_
    rcases QueueRun.finish_within d.1 d.2 (Tuning.queueCapacity_pos valid) _ missing with
      ⟨⟨shard, action⟩, ha, loses⟩ | failed
    · refine .inl (.inl (.inr ⟨_, (same _).mp ha, ?_⟩))
      cases action with
      | flush part data =>
        -- it would be flushed
        obtain ⟨own, inside, _⟩ := loses
        have sent : (⟨shard, data, part⟩ : Flush) ∈ l.filterMap QueueRun.flushOf :=
          List.mem_filterMap.mpr ⟨_, ha, rfl⟩
        exact absurd ⟨own, inside⟩ (unflushed _ sent)
      | _ => exact loses
    · exact .inr failed

theorem shards_of_own (own : ∀ shard, l.filter (·.1 = shard) = l'.filter (·.1 = shard)) :
    (dataOutcome t target r l).data.shards = (dataOutcome t target r l').data.shards := by
  ext1 shard
  rw [dataOutcome_held, dataOutcome_held, DataState.keptFor, DataState.keptFor, own]

theorem dataOutcome_canonical (t : Tuning) (target : Option (Disk × FlushTarget)) (r : Request)
    (l : List (Shard × DataAction)) : (dataOutcome t target r l).data.missing.Canonical := by
  cases target with
  | none => exact (DataState.run_missing none .empty l).1
  | some d => exact (dataOutcome_ordered t r d l).1

/-- A read whose workers have taken turns as in `l` has come to `s` and found `found`. One whose
workers came one after the other, as in `one`, has found `data`. -/
structure InTurns (target : Option (Disk × FlushTarget)) (one l : List (Shard × DataAction))
    (s : DataState) (found data : RecoveredData) : Prop where
  shards : found.shards = data.shards
  /-- Of what is not flushed, the same is missing. -/
  unflushed : ∀ p, (∀ f ∈ l.filterMap QueueRun.flushOf, ¬ f.Covers p) →
    (p ∈ found.missing ↔ p ∈ data.missing)
  /-- The queue gives its tickets to the flushes in order, and each is written or missing. -/
  flushed : ∀ d, target = some d → ∀ ticket f, (l.filterMap QueueRun.flushOf)[ticket]? = some f →
    ((ticket, true) ∈ s.queue.settled ∧ ∃ nth, (f.write d.1 d.2 nth).outcome = .ok ()) ∨
      ∀ t ∈ f.part, (f.shard, t) ∈ found.missing
  same : (∀ d, target = some d → FlushAlike d one l) → found = data

theorem dataOutcome_inTurns (valid : t.validate = .ok ()) (same : ∀ a, a ∈ l ↔ a ∈ l')
    (own : ∀ shard, l.filter (·.1 = shard) = l'.filter (·.1 = shard)) (lost : Coverage) :
    InTurns target l l' (dataOutcome t target r l')
      ((dataOutcome t target r l').data.addAllMissing lost)
      ((dataOutcome t target r l).data.addAllMissing lost) := by
  have shards : (dataOutcome t target r l').data.shards = (dataOutcome t target r l).data.shards :=
    (shards_of_own own).symm
  have canonical := dataOutcome_canonical t target r l
  have canonical' := dataOutcome_canonical t target r l'
  constructor
  case shards => exact shards
  case unflushed =>
    intro p unflushed
    have flushes (f : Flush) (hf : f ∈ l.filterMap QueueRun.flushOf) : ¬ f.Covers p := by
      obtain ⟨a, ha, flushes⟩ := List.mem_filterMap.mp hf
      exact unflushed f (List.mem_filterMap.mpr ⟨a, (same a).mp ha, flushes⟩)
    apply (Coverage.mem_union canonical').trans
    apply Iff.trans (or_congr_left ?_) (Coverage.mem_union canonical).symm
    exact ⟨missing_of_unflushed valid (fun a => (same a).symm) unflushed,
      missing_of_unflushed valid same flushes⟩
  case flushed =>
    intro d hd ticket f sent
    subst hd
    rcases QueueRun.finish_keeps d.1 d.2 (Tuning.queueCapacity_pos valid) r.data.ranges sent with
      ⟨settled, written⟩ | missing
    · exact .inl ⟨List.mem_append_left _ settled, written⟩
    · exact .inr fun time ht => (Coverage.mem_union canonical').mpr (.inl (missing time ht))
  case same =>
    intro alike
    have missing : (dataOutcome t target r l').data.missing =
        (dataOutcome t target r l).data.missing := (missing_of_alike valid same alike).symm
    have outcome := congr (congrArg RecoveredData.mk shards) missing
    exact congrArg (RecoveredData.addAllMissing · lost) outcome

end Data

end Peers

/-- The same blocks, with the same series and the same marks, and the same is missing. -/
structure RecoveredIndex.Alike (f f' : RecoveredIndex) : Prop where
  blocks : ∀ start, f.index.blocks.contains start = f'.index.blocks.contains start
  series : ∀ start id, f.index.holds start id = f'.index.holds start id
  marks : ∀ start, f.index.marks start = f'.index.marks start
  missing : f.missing = f'.missing

namespace Peers

/-- Wherever a series comes from, it comes with the same tags. -/
def SameTags (l : List (Shard × IndexAction)) : Prop :=
  ∀ d ∈ l.flatMap (·.2.documents), ∀ d' ∈ l.flatMap (·.2.documents), d.2.1 = d'.2.1 → d.2.2 = d'.2.2

instance (l : List (Shard × IndexAction)) : Decidable (SameTags l) :=
  inferInstanceAs (Decidable (∀ d ∈ l.flatMap (·.2.documents), ∀ d' ∈ l.flatMap (·.2.documents),
    d.2.1 = d'.2.1 → d.2.2 = d'.2.2))

namespace IndexState

variable {l l' : List (Shard × IndexAction)}

theorem run_alike (same : ∀ a, a ∈ l ↔ a ∈ l') : (run l).index.Alike (run l').index := by
  obtain ⟨sound, missing, marks⟩ := run_steps l
  obtain ⟨sound', missing', marks'⟩ := run_steps l'
  refine ⟨fun start => ?_, fun start id => ?_, fun start => ?_, ?_⟩
  · rw [Bool.eq_iff_iff, run_contains, run_contains]
    simp only [same]
  · rw [Index.holds_eq, Index.holds_eq, run_document?, run_document?, Bool.eq_iff_iff,
      Index.first?_isSome, Index.first?_isSome]
    simp only [List.mem_flatMap, same]
  · refine (sound.index start).ext (sound'.index start) fun q => ?_
    rw [marks, marks']
    simp only [same]
  · refine sound.missing.ext sound'.missing fun q => ?_
    rw [missing, missing']
    simp only [same]

/-- With the same tags from everywhere it does not matter which document comes first. -/
theorem run_eq (same : ∀ a, a ∈ l ↔ a ∈ l') (tags : SameTags l) :
    (run l).index = (run l').index := by
  have alike := run_alike same
  have documents (start : Instant) (id : SeriesId) :
      (run l).index.index.document? start id = (run l').index.index.document? start id := by
    have series := alike.series start id
    rw [Index.holds_eq, Index.holds_eq] at series
    rw [run_document?, run_document?] at series ⊢
    cases first : Index.first? (l.flatMap (·.2.documents)) start id with
    | none =>
      rw [first] at series
      exact (Option.isNone_iff_eq_none.mp (Option.isSome_eq_false_iff.mp series.symm)).symm
    | some a =>
      rw [first] at series
      obtain ⟨b, first'⟩ := Option.isSome_iff_exists.mp series.symm
      have there : (start, id, b) ∈ l.flatMap (·.2.documents) := by
        have here := Index.mem_of_first? first'
        simp only [List.mem_flatMap, ← same] at here ⊢
        exact here
      rw [first']
      exact congrArg some (tags _ (Index.mem_of_first? first) _ there rfl)
  have index := Index.ext_views (fun start => Bool.eq_iff_iff.mp (alike.blocks start))
    alike.marks documents
  have mk := congr (congrArg RecoveredIndex.mk index) alike.missing
  exact mk

end IndexState

theorem readData_eq {target : Option (Disk × FlushTarget)}
    (opened : c.openSession nth = .ok session)
    (ht : (openTarget t c nth r).outcome = .ok target) :
    let work := dataWork t session (delivery r target) r
    (readData t c nth r).outcome = .ok ((dataOutcome t target r
      (work.flatMap ShardWork.actions)).data.addAllMissing (ShardWork.lost work)) := by
  intro work
  rw [readData]
  split
  · rename_i none
    have idle : work = [] := dataWork_eq_nil none
    rw [idle]
    cases target with
    | none => rfl
    | some d =>
      simp only [dataOutcome, DataState.finish, Coverage.eq_empty_of_isEmpty none]
      cases d.1.done <;> rfl
  · refine Trail.outcome_bind_eq_ok.mpr ⟨(), rfl, ?_⟩
    refine Trail.outcome_bind_eq_ok.mpr ⟨session, by rw [opened]; rfl, ?_⟩
    exact Trail.outcome_bind_eq_ok.mpr ⟨target, ht, rfl⟩

theorem readIndex_eq (opened : c.openSession nth = .ok session) :
    let work := indexWork t session r
    (readIndex t c nth r).outcome = .ok ((IndexState.run
      (work.flatMap ShardWork.actions)).index.addAllMissing (ShardWork.lost work)) := by
  intro work
  rw [readIndex]
  split
  · rename_i none
    have idle : work = [] := by
      rw [show work = indexWork t session r from rfl, indexWork,
        Coverage.eq_empty_of_isEmpty none]
      rfl
    rw [idle]
    rfl
  · refine Trail.outcome_bind_eq_ok.mpr ⟨(), rfl, ?_⟩
    exact Trail.outcome_bind_eq_ok.mpr ⟨session, by rw [opened]; rfl, rfl⟩

/-- Has one series in every window, and says so. -/
def talkative : Session where
  blocks _ f := .ok (ShardData.empty.addBlock [1] .empty f.window.start ⟨[], 0⟩)
  metadata _ f := .ok [⟨[1], .empty, f.window.start⟩]

/-- Has one series for shard 0, and nothing for the other shards. -/
def oneSided : Session where
  blocks _ f := .ok (if f.shard = 0 then
    ShardData.empty.addBlock [1] .empty f.window.start ⟨[], 0⟩ else .empty)
  metadata _ _ := .ok []

/-- Takes everything, but breaks off when readers are told of a block. -/
def unannounced : Disk where
  answer _ call := if call matches .register .. then .crash else .ok ()
  done := .ok ()

end Peers

end Backfill
