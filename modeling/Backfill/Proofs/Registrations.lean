import Mathlib.Data.List.Pairwise
import Backfill.Proofs.Bracketing
import Backfill.Proofs.DeliveryModes
import Backfill.Proofs.FlushContents
import Backfill.Proofs.MergeLaws
import Backfill.Proofs.WorkerOrder

/-!
What readers are pointed at. A block is registered as soon as the disk has taken it, before anybody
knows whether its files will be finished, and this is never taken back. So where a later block is
refused, or the files cannot be closed, readers are pointed at files that nobody finished; what was
asked for of them is then missing.
-/

namespace Backfill

section Sessions

variable {f : Fileset} {h before after : DiskHistory} {e : Option Error} {shard : Shard}
  {id : SeriesId} {start : Instant} {sum : Checksum} {reply : Reply Unit}

/-- What stands before the last element. -/
theorem split_before_last {α : Type} {l before after : List α} {x last : α}
    (h : l ++ [last] = before ++ x :: after) (other : last ≠ x) :
    ∃ after', l = before ++ x :: after' ∧ after = after' ++ [last] := by
  rcases List.append_eq_append_iff.mp h with ⟨rest, rfl, tail⟩ | ⟨rest, rfl, tail⟩
  · cases rest with
    | nil => exact absurd (List.cons.inj tail).1 other
    | cons c rest => simp at tail
  · cases rest with
    | nil => exact absurd (List.cons.inj tail).1.symm other
    | cons c rest =>
      obtain ⟨rfl, rfl⟩ := List.cons.inj tail
      exact ⟨rest, rfl, rfl⟩

/-- A block is registered right after it was taken. -/
theorem Fileset.Filling.registered (filled : f.Filling h e)
    (split : h = before ++ (.register shard id start sum, reply) :: after) :
    shard = f.shard ∧ start = f.start ∧ ∃ opened tags b,
      before = opened ++ [(.persist f id tags b, .ok ())] ∧ b.checksum = sum := by
  induction filled generalizing before with
  | done => simp at split
  | taken id' tags b reply' next ih =>
    cases before with
    | nil => simp at split
    | cons c before =>
      cases before with
      | nil =>
        simp only [List.cons_append, List.nil_append, List.cons.injEq, Prod.mk.injEq,
          DiskCall.register.injEq] at split
        obtain ⟨rfl, ⟨⟨rfl, rfl, rfl, rfl⟩, rfl⟩, rfl⟩ := split
        exact ⟨rfl, rfl, [], tags, b, rfl, rfl⟩
      | cons c' before =>
        simp only [List.cons_append, List.cons.injEq] at split
        obtain ⟨rfl, rfl, split⟩ := split
        obtain ⟨here, there, opened, tags', b', rfl, checksum⟩ := ih split
        exact ⟨here, there, _ :: _ :: opened, tags', b', rfl, checksum⟩
  | refused id' tags b e' =>
    cases before with
    | nil => simp at split
    | cons c before => simp at split

theorem Fileset.Bracket.registered (bracket : f.Bracket h e)
    (split : h = before ++ (.register shard id start sum, reply) :: after) :
    shard = f.shard ∧ start = f.start ∧ ∃ opened tags b,
      before = opened ++ [(.persist f id tags b, .ok ())] ∧ b.checksum = sum := by
  -- Nothing is registered before the files are opened, and closing them is the last call.
  have inside {filling : DiskHistory} {e : Option Error} {closing : Reply Unit}
      (filled : f.Filling filling e)
      (whole : (.prepare f, .ok ()) :: (filling ++ [(.close f, closing)]) =
        before ++ (.register shard id start sum, reply) :: after) :
      shard = f.shard ∧ start = f.start ∧ ∃ opened tags b,
        before = opened ++ [(.persist f id tags b, .ok ())] ∧ b.checksum = sum := by
    cases before with
    | nil => simp at whole
    | cons c before =>
      simp only [List.cons_append, List.cons.injEq] at whole
      obtain ⟨rfl, rest⟩ := whole
      obtain ⟨_, rest, _⟩ := split_before_last rest (by simp)
      obtain ⟨here, there, opened, tags, b, rfl, checksum⟩ := filled.registered rest
      exact ⟨here, there, _ :: opened, tags, b, rfl, checksum⟩
  cases bracket with
  | unopened e =>
    cases before with
    | nil => simp at split
    | cons c before => simp at split
  | closed filled => exact inside filled split
  | unclosed filled e' => exact inside filled split

end Sessions

/-- An element of one of several lists, one after the other. -/
theorem split_flatMap {α β : Type} {f : α → List β} {l : List α} {before after : List β} {x : β}
    (h : l.flatMap f = before ++ x :: after) :
    ∃ first a rest front back, l = first ++ a :: rest ∧ f a = front ++ x :: back ∧
      before = first.flatMap f ++ front ∧ after = back ++ rest.flatMap f := by
  induction l generalizing before with
  | nil => simp at h
  | cons a l ih =>
    rw [List.flatMap_cons] at h
    have later {past : List β} (split : l.flatMap f = past ++ x :: after)
        (eq : before = f a ++ past) :
        ∃ first b rest front back, a :: l = first ++ b :: rest ∧ f b = front ++ x :: back ∧
          before = first.flatMap f ++ front ∧ after = back ++ rest.flatMap f := by
      obtain ⟨first, b, rest, front, back, rfl, here, rfl, rfl⟩ := ih split
      refine ⟨a :: first, b, rest, front, back, rfl, here, ?_, rfl⟩
      rw [eq, List.flatMap_cons, List.append_assoc]
    rcases List.append_eq_append_iff.mp h with ⟨past, eq, split⟩ | ⟨back, eq, split⟩
    · exact later split eq
    · cases back with
      | nil =>
        rw [List.append_nil] at eq
        exact @later [] split.symm (by rw [eq, List.append_nil])
      | cons c back =>
        obtain ⟨rfl, rfl⟩ := List.cons.inj split
        exact ⟨[], a, l, before, back, rfl, eq, rfl, rfl⟩

/-- The flushes with what the disk was asked for each. -/
def Flush.writes (disk : Disk) (t : FlushTarget) :
    (nth : Nat) → List Flush → List (Flush × Flush.DiskTrail)
  | _, [] => []
  | nth, f :: rest =>
    let written := f.write disk t nth
    (f, written) :: writes disk t (nth + written.entries.length) rest

namespace Flush

variable {disk : Disk} {t : FlushTarget}

theorem map_writes (nth : Nat) (l : List Flush) : (writes disk t nth l).map (·.1) = l := by
  induction l generalizing nth with
  | nil => rfl
  | cons f l ih => rw [writes, List.map_cons, ih]

theorem writes_append (nth : Nat) (l m : List Flush) :
    writes disk t nth (l ++ m) = writes disk t nth l ++
      writes disk t (nth + ((writes disk t nth l).flatMap (·.2.entries)).length) m := by
  induction l generalizing nth with
  | nil => rfl
  | cons f l ih =>
    rw [List.cons_append, writes, writes, ih, List.cons_append, List.flatMap_cons,
      List.length_append, Nat.add_assoc]

theorem mem_writes {nth : Nat} {l : List Flush} {turn : Flush × DiskTrail}
    (h : turn ∈ writes disk t nth l) : turn.1 ∈ l ∧ ∃ n, turn.2 = turn.1.write disk t n := by
  induction l generalizing nth with
  | nil => cases h
  | cons f l ih =>
    rcases List.mem_cons.mp h with rfl | h
    · exact ⟨List.mem_cons_self, nth, rfl⟩
    · exact ⟨List.mem_cons_of_mem _ (ih h).1, (ih h).2⟩

/-- A flush of one window on a disk that never breaks off is one session, and ends with it. -/
theorem write_bracket (calm : disk.Calm) (nth : Nat) {flush : Flush} {w : Interval}
    (hw : flush.part.windows t.blockSize = ⟨[w], .ok ()⟩) :
    ∃ e, (fileset t flush.shard w.start).Bracket (write disk t nth flush).entries e ∧
      (write disk t nth flush).outcome = outcomeOf e := by
  rw [write_eq t nth hw]
  exact writeFileset_bracket calm _ nth flush.data

theorem ends_calm (calm : disk.Calm) (nth : Nat) {flush : Flush} {w : Interval}
    (hw : flush.part.windows t.blockSize = ⟨[w], .ok ()⟩) :
    Ends (write disk t nth flush) ((write disk t nth flush).outcome ≠ .ok ()) := by
  obtain ⟨e, _, outcome⟩ := write_bracket calm nth hw
  rw [Ends, outcome]
  cases e with
  | none => exact .inl ⟨not_not.mpr rfl, rfl⟩
  | some e => exact .inr ⟨by simp [outcomeOf], e, rfl⟩

end Flush

/-- A queue that is ready passes on what comes to an end. -/
theorem FlushQueue.passes {q : FlushQueue} (ready : q.Ready) (f : Flush) {x : Flush.DiskTrail}
    {bad : Prop} (ends : Flush.Ends x bad) : ∃ q', q.pass f x.outcome = some q' := by
  rcases ends with ⟨_, outcome⟩ | ⟨_, e, outcome⟩
  · rw [outcome]
    exact ⟨_, pass_settle ready f rfl⟩
  · rw [outcome]
    exact ⟨_, pass_settle ready f rfl⟩

namespace Peers

namespace DataState

variable {disk : Disk} {t : FlushTarget} {s s' : DataState}

/-- `p` is lost with one of the flushes that did not end well. -/
def LostIn (turns : List (Flush × Flush.DiskTrail)) (p : Shard × Instant) : Prop :=
  ∃ turn ∈ turns, turn.2.outcome ≠ .ok () ∧ p.1 = turn.1.shard ∧ p.2 ∈ turn.1.part

/-- `p` is lost by one of the workers, which did not get so far as to flush it. -/
def MissedIn (l : List (Shard × DataAction)) (p : Shard × Instant) : Prop :=
  ∃ part, (p.1, .miss part) ∈ l ∧ p.2 ∈ part

/-- What the actions `l` did: the disk was asked for the flushes in turn, and what is missing
besides are the parts of those that did not end well, and what no flush was made for. -/
structure Writes (disk : Disk) (t : FlushTarget) (l : List (Shard × DataAction)) (s s' : DataState)
    (turns : List (Flush × Flush.DiskTrail)) : Prop where
  written : turns = Flush.writes disk t s.calls (l.filterMap QueueRun.flushOf)
  sound : s'.Sound
  history : s'.history = s.history ++ turns.flatMap (·.2.entries)
  calls : s'.calls = s.calls + (turns.flatMap (·.2.entries)).length
  missing : ∀ p, s'.Lacks p ↔ s.Lacks p ∨ MissedIn l p ∨ LostIn turns p

theorem Writes.trans {s'' : DataState} {l l' : List (Shard × DataAction)}
    {turns turns' : List (Flush × Flush.DiskTrail)} (h : Writes disk t l s s' turns)
    (h' : Writes disk t l' s' s'' turns') : Writes disk t (l ++ l') s s'' (turns ++ turns') where
  written := by
    rw [List.filterMap_append, Flush.writes_append, ← h.written, ← h.calls, ← h'.written]
  sound := h'.sound
  history := by rw [h'.history, h.history, List.flatMap_append, List.append_assoc]
  calls := by rw [h'.calls, h.calls, List.flatMap_append, List.length_append, Nat.add_assoc]
  missing p := by
    have missed : MissedIn (l ++ l') p ↔ MissedIn l p ∨ MissedIn l' p := by
      simp only [MissedIn, List.mem_append, or_and_right, exists_or]
    have lost : LostIn (turns ++ turns') p ↔ LostIn turns p ∨ LostIn turns' p := by
      simp only [LostIn, List.mem_append, or_and_right, exists_or]
    rw [h'.missing, h.missing, missed, lost, or_assoc, or_or_or_comm]

/-- One action. -/
theorem act_writes (h : s.Sound) (calm : disk.Calm) {a : Shard × DataAction} (quiet : a.2.Quiet)
    (one : a.2.OneWindow t.blockSize) :
    Writes disk t [a] s (act (some (disk, t)) s a)
      (Flush.writes disk t s.calls (QueueRun.flushOf a).toList) := by
  obtain ⟨shard, action⟩ := a
  cases action with
  | event e =>
    exact ⟨rfl, h.event _, (event_history _ quiet).trans (List.append_nil _).symm, rfl,
      fun p => by simp [MissedIn, LostIn, Flush.writes, QueueRun.flushOf, act, Lacks]⟩
  | miss part =>
    refine ⟨rfl, h.addMissing shard part, (List.append_nil _).symm, rfl, fun p => ?_⟩
    refine (lacks_addMissing h shard part p).trans (or_congr_right ?_)
    obtain ⟨own, x⟩ := p
    simp [MissedIn, LostIn, Flush.writes, QueueRun.flushOf]
  | keep d =>
    refine ⟨rfl, h.addShard shard d, (List.append_nil _).symm, rfl, fun p => ?_⟩
    simp [MissedIn, LostIn, Flush.writes, QueueRun.flushOf, act, Lacks,
      RecoveredData.addShard_missing]
  | flush part d =>
    have ends : Flush.Ends (Flush.write disk t s.calls ⟨shard, d, part⟩) _ :=
      Flush.ends_calm calm s.calls (one part d rfl)
    obtain ⟨sound, missing⟩ := flush_ends (t := (disk, t)) h ends
    obtain ⟨queue, passed⟩ := FlushQueue.passes h.ready ⟨shard, d, part⟩ ends
    have calls : (s.flush (disk, t) ⟨shard, d, part⟩).calls =
        s.calls + (Flush.write disk t s.calls ⟨shard, d, part⟩).entries.length := by
      simp only [flush, passed]
    refine ⟨rfl, sound, (flush_history disk t passed).trans ?_, calls.trans ?_,
      fun p => (missing p).trans (or_congr_right ?_)⟩
    · simp [Flush.writes, QueueRun.flushOf]
    · simp [Flush.writes, QueueRun.flushOf]
    · simp [MissedIn, LostIn, Flush.writes, QueueRun.flushOf]
      tauto

/-- On a disk that never breaks off, a run is its flushes one after the other. -/
theorem run_writes (h : s.Sound) (calm : disk.Calm) {l : List (Shard × DataAction)}
    (quiet : ∀ a ∈ l, a.2.Quiet) (one : ∀ a ∈ l, a.2.OneWindow t.blockSize) :
    ∃ turns, Writes disk t l s (run (some (disk, t)) s l) turns := by
  induction l generalizing s with
  | nil =>
    exact ⟨[], rfl, h, (List.append_nil _).symm, rfl, fun p => by simp [LostIn, MissedIn, run]⟩
  | cons a l ih =>
    have first := act_writes h calm (quiet a List.mem_cons_self) (one a List.mem_cons_self)
    obtain ⟨turns, rest⟩ := ih first.sound (fun b hb => quiet b (List.mem_cons_of_mem _ hb))
      fun b hb => one b (List.mem_cons_of_mem _ hb)
    exact ⟨_, first.trans rest⟩

end DataState

namespace DataAction

/-- The part of a window that the action hands on. -/
def part? : DataAction → Option Interval
  | .miss part | .flush part _ => some part
  | _ => none

/-- No instant is in what both hand on. -/
def Apart (a b : DataAction) : Prop :=
  ∀ p q, a.part? = some p → b.part? = some q → ∀ x ∈ p, x ∉ q

theorem Apart.symm {a b : DataAction} (h : a.Apart b) : b.Apart a :=
  fun p q hp hq x hx hx' => h q p hq hp x hx' hx

/-- The actions are of different shards, or hand on different instants. -/
def KeptApart (a b : Shard × DataAction) : Prop := a.1 = b.1 → a.2.Apart b.2

instance : Std.Symm KeptApart := ⟨fun _ _ h same => (h same.symm).symm⟩

end DataAction

/-- The flushes are of different shards, or for different instants. -/
def TurnsApart (a b : Flush × Flush.DiskTrail) : Prop :=
  a.1.shard = b.1.shard → ∀ x ∈ a.1.part, x ∉ b.1.part

instance : Std.Symm TurnsApart := ⟨fun _ _ h same x hx hx' => h same.symm x hx' hx⟩

section Apart

variable {t : Tuning} {r : Request} {session : Session} {shard : Shard}

theorem DataWork.slice_apart (fetch : Interval → Fetch) (n : Nat) (v : TimeSet.Slice) :
    (slice session .persist fetch shard (n, v)).entries.Pairwise DataAction.Apart := by
  unfold slice
  dsimp only
  cases session.blocks n (fetch v.window) <;>
    simp [Trail.bind, Trail.note, Trail.notes, Trail.fail, deliver, DataAction.Apart,
      DataAction.part?]

theorem DataWork.part?_slice {fetch : Interval → Fetch} {n : Nat} {v : TimeSet.Slice}
    {a : DataAction} (h : a ∈ (slice session .persist fetch shard (n, v)).entries) {p : Interval}
    (hp : a.part? = some p) : p = v.part := by
  rcases mem_slice_persist h with rfl | ⟨_, rfl⟩ | handed
  · cases hp
  · cases hp
  · cases handed <;> exact (Option.some.inj hp).symm

/-- A worker hands on every instant once at the most. -/
theorem workFor_apart (canonical : (r.data.ranges.get shard).Canonical) :
    (workFor t session .persist r shard).entries.Pairwise DataAction.Apart := by
  rw [workFor, DataWork.shard_eq_counted, Trail.entries_bind_silent _ fun _ => rfl, Trail.foldOver,
    Trail.entries_bind_silent _ fun _ => rfl]
  have apart := TimeSet.slices_apart r.policy.blockSize_pos canonical
  refine Trail.pairwise_foldEach (fun n v _ => ?_) (apart.imp fun {u v} before n m a ha b hb => ?_)
  · rw [Trail.entries_counted]
    exact DataWork.slice_apart _ n v
  · rw [Trail.entries_counted] at ha hb
    intro p q hp hq x hx hx'
    cases DataWork.part?_slice ha hp
    cases DataWork.part?_slice hb hq
    exact Int.lt_irrefl x (Int.lt_of_lt_of_le hx.2 (Int.le_trans before hx'.1))

/-- What holds between elements with one key holds wherever keys agree. -/
theorem pairwise_of_filters {α κ : Type} [DecidableEq κ] {key : α → κ} {R : α → α → Prop}
    {l : List α} (h : ∀ k, (l.filter (key · = k)).Pairwise R) :
    l.Pairwise fun a b => key a = key b → R a b := by
  induction l with
  | nil => exact .nil
  | cons a l ih =>
    refine List.pairwise_cons.mpr ⟨fun b hb same => ?_, ih fun k => ?_⟩
    · have own := h (key a)
      rw [List.filter_cons_of_pos (by simp)] at own
      exact (List.pairwise_cons.mp own).1 b (List.mem_filter.mpr ⟨hb, by simp [same]⟩)
    · exact (h k).sublist ((List.sublist_cons_self a l).filter _)

/-- However the workers take turns, they hand on every instant of a shard once at the most. -/
theorem turns_apart {l : List (Shard × DataAction)} (canonical : r.data.ranges.Canonical)
    (turns : Interleaves ((dataWork t session .persist r).map ShardWork.actions) l) :
    l.Pairwise DataAction.KeptApart := by
  refine pairwise_of_filters fun shard => ?_
  rw [filter_turns turns (dataWork_apart t session .persist r), filter_actions]
  exact List.pairwise_map.mpr (workFor_apart (canonical shard))

end Apart

/-- What becomes of every registration in the history. It was made for a window that was asked for,
right after the files there had taken the block. Their session went on to its end, and if it came to
an error, then what was asked for of the window is missing, and otherwise it is not. -/
def Vouched (r : Request) (history : DiskHistory) (missing : Coverage) : Prop :=
  ∀ before shard id start sum reply after,
    history = before ++ (.register shard id start sum, reply) :: after →
    ∃ v ∈ slicesFor r shard, v.window.start = start ∧
      let f := filesOf r shard v.window
      ∃ front opened tags b rest back e,
        before = front ++ (opened ++ [(.persist f id tags b, .ok ())]) ∧ b.checksum = sum ∧
        after = rest ++ back ∧
        f.Bracket (opened ++ [(.persist f id tags b, .ok ())] ++
          (.register shard id start sum, reply) :: rest) e ∧
        (e ≠ none → ∀ x ∈ v.part, (shard, x) ∈ missing) ∧
        (e = none → r.data.ranges.Canonical → ∀ x ∈ v.part, (shard, x) ∉ missing)

variable {t : Tuning} {c : Cluster} {nth : Nat} {r : Request} {session : Session} {disk : Disk}

theorem oneWindow_handed (fits : Fits r) {a : Shard × DataAction}
    (ha : a ∈ (dataWork t session .persist r).flatMap ShardWork.actions) :
    a.2.OneWindow r.policy.blockSize := by
  obtain ⟨shard, action⟩ := a
  intro part d flushes
  dsimp only at flushes
  subst flushes
  obtain ⟨_, v, hv, rfl, _⟩ := exists_fetched ha
  exact oneWindow_flush fits hv d v.part d rfl

theorem flushes_apart {l : List (Shard × DataAction)} (apart : l.Pairwise DataAction.KeptApart)
    {turns : List (Flush × Flush.DiskTrail)} (map : turns.map (·.1) = l.filterMap QueueRun.flushOf) :
    turns.Pairwise TurnsApart := by
  have flushes : (l.filterMap QueueRun.flushOf).Pairwise fun f g =>
      f.shard = g.shard → ∀ x ∈ f.part, x ∉ g.part := by
    refine apart.filterMap _ fun a b h f hf g hg same x hx => ?_
    obtain ⟨shard, action⟩ := a
    obtain ⟨shard', action'⟩ := b
    cases action <;> cases hf
    cases action' <;> cases hg
    exact h same _ _ rfl rfl x hx
  rw [← map] at flushes
  exact (List.pairwise_map.mp flushes).imp fun h => h

/-- Of what a flush that ended well was for, nothing is missing. -/
theorem not_missing_of_ok {l : List (Shard × DataAction)} (apart : l.Pairwise DataAction.KeptApart)
    {turns : List (Flush × Flush.DiskTrail)} (map : turns.map (·.1) = l.filterMap QueueRun.flushOf)
    {turn : Flush × Flush.DiskTrail} (hm : turn ∈ turns) (ok : turn.2.outcome = .ok ()) {x : Instant}
    (hx : x ∈ turn.1.part) :
    ¬ DataState.MissedIn l (turn.1.shard, x) ∧ ¬ DataState.LostIn turns (turn.1.shard, x) := by
  have flushed : turn.1 ∈ l.filterMap QueueRun.flushOf := map ▸ List.mem_map_of_mem hm
  constructor
  · rintro ⟨part, missed, hx'⟩
    exact apart.forall missed (mem_flushes.mp flushed) (by simp) rfl part turn.1.part rfl rfl x hx' hx
  · rintro ⟨other, ho, failed, here, hx'⟩
    have different : turn ≠ other := by
      rintro rfl
      exact failed ok
    exact (flushes_apart apart map).forall hm ho different here x hx hx'

/-- However the workers take turns. -/
theorem dataOutcome_vouched (valid : t.validate = .ok ()) (fits : Fits r) (calm : disk.Calm)
    (done : disk.done = .ok ()) {l : List (Shard × DataAction)}
    (turns : Interleaves ((dataWork t session .persist r).map ShardWork.actions) l) :
    let s := dataOutcome t (some (disk, flushTarget r)) r l
    Vouched r s.history s.data.missing := by
  intro s
  have handed {a : Shard × DataAction} (ha : a ∈ l) := (mem_turns turns a).mp ha
  obtain ⟨writes, run⟩ := DataState.run_writes (t := flushTarget r)
    (DataState.sound_ofCapacity (Tuning.queueCapacity_pos valid)) calm
    (fun a ha => actions_quiet (handed ha)) fun a ha => oneWindow_handed fits (handed ha)
  have map : writes.map (·.1) = l.filterMap QueueRun.flushOf := by
    rw [run.written, Flush.map_writes]
  have missing (p : Shard × Instant) :
      p ∈ s.data.missing ↔ DataState.MissedIn l p ∨ DataState.LostIn writes p := by
    refine (DataState.finish_step run.sound disk r.data.ranges p).trans ?_
    rw [done, run.missing]
    simp [DataState.Lacks, DataState.ofCapacity, FlushQueue.ofCapacity, RecoveredData.empty]
  have history : s.history = writes.flatMap (·.2.entries) :=
    (DataState.finish_history _ disk r.data.ranges).trans run.history
  intro before shard id start sum reply after split
  obtain ⟨first, turn, last, front, back, eq, entries, rfl, rfl⟩ :=
    split_flatMap (history.symm.trans split)
  have hm : turn ∈ writes := eq ▸ List.mem_append_right _ List.mem_cons_self
  obtain ⟨flushed, n, written⟩ := Flush.mem_writes (run.written ▸ hm)
  obtain ⟨_, v, hv, part, _⟩ := exists_fetched (handed (mem_flushes.mp flushed))
  have window : turn.1.part.windows (flushTarget r).blockSize = ⟨[v.window], .ok ()⟩ := by
    rw [part]
    exact windows_part fits hv
  obtain ⟨e, bracket, outcome⟩ := Flush.write_bracket calm n window
  rw [← written] at bracket outcome
  obtain ⟨rfl, rfl, opened, tags, b, rfl, checksum⟩ := bracket.registered entries
  rw [entries] at bracket
  refine ⟨v, hv, rfl, first.flatMap (·.2.entries), opened, tags, b, back,
    last.flatMap (·.2.entries), e, rfl, checksum, rfl, bracket, fun failed x hx => ?_,
    fun ok canonical x hx => ?_⟩
  · refine (missing _).mpr (.inr ⟨turn, hm, ?_, rfl, part ▸ hx⟩)
    rw [outcome]
    cases e with
    | none => exact absurd rfl failed
    | some e =>
      intro ok
      cases ok
  · subst ok
    obtain ⟨got, kept⟩ :=
      not_missing_of_ok (turns_apart canonical turns) map hm outcome (part ▸ hx : x ∈ turn.1.part)
    exact fun lost => ((missing _).mp lost).elim got kept

/-- On a disk that never breaks off and takes the whole in the end: readers are pointed at nothing
but blocks that were taken, and where they are pointed at files that were not finished, what was
asked for of these is missing. It does not matter how the workers take turns. -/
theorem readData_registers {data : RecoveredData} (valid : t.validate = .ok ()) (fits : Fits r)
    (moves : shouldPersist t r = true) (opened : c.openSession nth = .ok session)
    (talks : session.CalmBlocks) (found : c.disk? nth = some disk) (calm : disk.Calm)
    (done : disk.done = .ok ()) (h : (readData t c nth r).outcome = .ok data) :
    Vouched r (diskHistory (readData t c nth r).entries) data.missing ∧
      ∀ l, Interleaves ((dataWork t session .persist r).map ShardWork.actions) l →
        let s := dataOutcome t (some (disk, flushTarget r)) r l
        Vouched r s.history s.data.missing := by
  refine ⟨?_, fun l turns => dataOutcome_vouched valid fits calm done turns⟩
  cases none : r.data.ranges.isEmpty with
  | true =>
    intro before shard id start sum reply after split
    have entries : (readData t c nth r).entries = [] := by
      rw [readData, if_pos none]
      rfl
    simp [entries, diskHistory] at split
  | false =>
    obtain ⟨session', target, opened', ht, rfl⟩ := readData_ok none h
    cases opened.symm.trans opened'
    rcases openTarget_ok ht with ⟨stays, _⟩ | ⟨_, disk', found', rfl⟩
    · rw [moves] at stays
      cases stays
    cases found.symm.trans found'
    have lost : ShardWork.lost (dataWork t session .persist r) = .empty :=
      lost_calm talks trivial fits
    have all := dataOutcome_vouched valid fits calm done
      (Interleaves.flatten ((dataWork t session .persist r).map ShardWork.actions))
    rw [← List.flatMap_def] at all
    rw [readData_history opened ht, delivery, lost]
    change Vouched r _ (Coverage.union _ .empty)
    rw [Coverage.union_empty]
    exact all

/-- Has two series in every window. -/
def twofold : Session where
  blocks _ f := .ok ((ShardData.empty.addBlock [1] .empty f.window.start ⟨[], 0⟩).addBlock [2] .empty
    f.window.start ⟨[], 1⟩)
  metadata _ _ := .ok []

theorem refusing_calm (first : Nat) : (refusing first).Calm := by
  intro nth call
  cases call with
  | persist f id tags b =>
    simp only [refusing]
    split <;> simp
  | _ => simp [refusing]

/-- The second block of the window at 0 is refused, when readers have been pointed at the first. -/
theorem readData_registers_refused :
    let policy : Policy := ⟨{ blockSize := 10 }, by decide, by decide⟩
    let options : RunOptions := ⟨⟨true, .flush⟩, .ofOrigin [] 0⟩
    let request : Request :=
      ⟨[7], policy, [0], none, ⟨Coverage.empty.add 0 ⟨3, 14⟩, options⟩, ⟨.empty, options⟩⟩
    let tuning : Tuning := ⟨1, 1, 1, 1, .majority, .lru⟩
    let cluster : Cluster :=
      ⟨fun _ => .ok twofold, some fun _ => .ok (refusing 3), some fun _ => .ok ()⟩
    let data : RecoveredData := ⟨.empty, Coverage.empty.add 0 ⟨3, 10⟩⟩
    let history := diskHistory (readData tuning cluster 0 request).entries
    (readData tuning cluster 0 request).outcome = .ok data ∧
      (.register 0 [1] 0 0, .ok ()) ∈ history ∧ Vouched request history data.missing := by
  intro policy options request tuning cluster data history
  have ok : (readData tuning cluster 0 request).outcome = .ok data := by decide +kernel
  have fits : Fits request := ⟨by decide, Coverage.fitsWords_of_entries (by decide)⟩
  obtain ⟨vouched, _⟩ := readData_registers (by decide) fits (by decide) rfl
    (fun _ _ => nofun : twofold.CalmBlocks) rfl (refusing_calm 3) rfl ok
  exact ⟨ok, by decide +kernel, vouched⟩

/-- Readers are pointed at files only that were closed at some time. -/
def OnlyFinished (r : Request) (history : DiskHistory) : Prop :=
  ∀ shard id start sum reply, (.register shard id start sum, reply) ∈ history →
    (.close (Flush.fileset (flushTarget r) shard start), .ok ()) ∈ history

/-- Takes every block and does not close the files. -/
def jammed : Disk where
  answer _ call :=
    match call with
    | .close _ => .error (.persist "busy")
    | _ => .ok ()
  done := .ok ()

/-- Readers are pointed at a block in files that nobody could close, though nothing breaks off and
the disk takes the whole in the end. What was asked for of the window is missing. -/
theorem readData_registers_unfinished :
    let policy : Policy := ⟨{ blockSize := 10 }, by decide, by decide⟩
    let options : RunOptions := ⟨⟨true, .flush⟩, .ofOrigin [] 0⟩
    let request : Request :=
      ⟨[7], policy, [0], none, ⟨Coverage.empty.add 0 ⟨0, 10⟩, options⟩, ⟨.empty, options⟩⟩
    let tuning : Tuning := ⟨1, 1, 1, 1, .majority, .lru⟩
    let cluster : Cluster :=
      ⟨fun _ => .ok plain, some fun _ => .ok jammed, some fun _ => .ok ()⟩
    let data : RecoveredData := ⟨.empty, Coverage.empty.add 0 ⟨0, 10⟩⟩
    let history := diskHistory (readData tuning cluster 0 request).entries
    let f : Fileset := ⟨[7], 0, 0, 0, .flush, true⟩
    tuning.validate = .ok () ∧ shouldPersist tuning request = true ∧ plain.CalmBlocks ∧
      jammed.Calm ∧ jammed.done = .ok () ∧
      (readData tuning cluster 0 request).outcome = .ok data ∧
      history = [(.prepare f, .ok ()), (.persist f [1] .empty ⟨[], 0⟩, .ok ()),
        (.register 0 [1] 0 0, .ok ()), (.close f, .error (.persist "busy"))] ∧
      ¬ OnlyFinished request history := by
  intro policy options request tuning cluster data history f
  have calls : history = [(.prepare f, .ok ()), (.persist f [1] .empty ⟨[], 0⟩, .ok ()),
      (.register 0 [1] 0 0, .ok ()), (.close f, .error (.persist "busy"))] := by decide +kernel
  refine ⟨by decide, by decide, fun _ _ => nofun, fun nth call => ?_, rfl, by decide +kernel, calls,
    fun finished => ?_⟩
  · cases call <;> simp [jammed]
  · have closed := finished 0 [1] 0 0 (.ok ()) (by rw [calls]; decide)
    rw [calls] at closed
    simp at closed

end Peers

end Backfill
