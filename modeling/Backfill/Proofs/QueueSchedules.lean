import Backfill.Proofs.DataActions
import Backfill.Proofs.QueueAccounts

/-!
How a read passes on its flushes, each through the queue before the next one comes, is one of the
runs of the queue. So what holds of all of them holds of a read, also on a disk that breaks off.
-/

namespace Backfill.Peers.QueueRun

variable {disk : Disk} {target : FlushTarget} {capacity : Nat} {s : QueueRun}

/-- The consumer makes all the calls about the flush in its hands. -/
theorem Reaches.makeCalls (h : Reaches disk target capacity s) {ticket : Nat} {f : Flush}
    (writing : s.queue.consumer = .writing ticket f) {calls : List (DiskCall × Reply Unit)}
    (rest : s.rest.entries = calls) : Reaches disk target capacity { s with
      rest := ⟨[], s.rest.outcome⟩
      calls := s.calls + calls.length
      log := s.log ++ calls.map fun c => (ticket, .disk c.1 c.2) } := by
  induction calls generalizing s with
  | nil =>
    have same : s.rest = ⟨[], s.rest.outcome⟩ := by rw [← rest]
    rw [← same]
    simpa using h
  | cons c more ih =>
    have next := ih (h.step (.call ticket f writing c more rest)) writing rfl
    simpa [Nat.add_assoc, Nat.add_comm 1] using next

/-- Nothing is on its way, and the consumer has died or is waiting for the next flush. -/
structure Resting (s : QueueRun) : Prop where
  pending : s.pending = []
  waiting : s.queue.waiting = []
  ready : s.queue.consumer = .idle ∨ s.queue.consumer = .dead
  room : 0 < s.queue.capacity

theorem ending_settles_or_dies (outcome : Except Failure Unit) :
    (∃ written, FlushQueue.ending outcome = .settle written) ∨
      FlushQueue.ending outcome = .die ∧ DataState.flushed outcome = [] := by
  cases outcome with
  | ok u => exact .inl ⟨true, rfl⟩
  | error e =>
    cases e with
    | error e => exact .inl ⟨false, rfl⟩
    | fault x => exact .inr ⟨rfl, rfl⟩

theorem outcome_of_ending {outcome : Except Failure Unit}
    (h : FlushQueue.ending outcome = .settle true) : outcome = .ok () := by
  cases outcome with
  | ok u => rfl
  | error e => cases e <;> cases h

/-- A flush that finds the consumer idle goes all the way. -/
theorem Reaches.pass (h : Reaches disk target capacity s) (resting : s.Resting)
    (idle : s.queue.consumer = .idle) (f : Flush) :
    ∃ s', Reaches disk target capacity s' ∧ s'.Resting ∧
      s.queue.pass f (f.write disk target s.calls).outcome = some s'.queue ∧
      s'.offered = s.offered ++ [(s.queue.next, f)] ∧ s'.refused = s.refused ∧
      s'.calls = s.calls + (f.write disk target s.calls).entries.length ∧
      s'.log.map (·.2) = s.log.map (·.2) ++
        ((f.write disk target s.calls).entries.map (fun e => .disk e.1 e.2) ++
          DataState.flushed (f.write disk target s.calls).outcome) := by
  obtain ⟨queue, pending, offered, entered, refused, rest, calls, log⟩ := s
  obtain ⟨capacity', next, ledger, waiting, consumer, missing, settled⟩ := queue
  obtain ⟨hp, hw, _, room⟩ := resting
  dsimp only at hp hw idle room
  subst hp hw idle
  have inLine := (h.step (.offer f)).step (.enter (next, f) (.head _) _
    (FlushQueue.enter?_eq_some.mpr ⟨⟨by simp [FlushQueue.offer], room⟩, rfl⟩))
  have taken : Reaches disk target capacity
      ⟨⟨capacity', next + 1, ledger ++ [⟨next, f.shard, f.part⟩], [], .writing next f, missing,
        settled⟩, [], offered ++ [(next, f)], entered ++ [(next, f)], refused,
        f.write disk target calls, calls, log⟩ := by
    simpa [FlushQueue.offer] using inLine.step (.receive _ rfl next f rfl)
  have made := taken.makeCalls rfl rfl
  have through (last : FlushQueue.Move) : FlushQueue.moves?
      ⟨capacity', next, ledger, [], .idle, missing, settled⟩
      [.offer f, .enter next f, .receive, last] = FlushQueue.move? ⟨capacity', next + 1,
        ledger ++ [⟨next, f.shard, f.part⟩], [], .writing next f, missing, settled⟩ last := by
    simp [FlushQueue.moves?, FlushQueue.move?, FlushQueue.offer, FlushQueue.enter?,
      FlushQueue.receive?, room]
  rcases ending_settles_or_dies (f.write disk target calls).outcome with
    ⟨written, ends⟩ | ⟨ends, silent⟩
  · have finished := made.step (.finish next f rfl rfl written ends _ rfl)
    refine ⟨_, finished, ⟨rfl, rfl, .inl rfl, room⟩, ?_, rfl, rfl, rfl, ?_⟩
    · rw [FlushQueue.pass, through, ends]
      rfl
    · simp [Function.comp_def]
  · have died := made.step (.die _ rfl)
    refine ⟨_, died, ⟨rfl, rfl, .inr rfl, room⟩, ?_, rfl, rfl, rfl, ?_⟩
    · rw [FlushQueue.pass, through, ends]
      rfl
    · simp [silent, Function.comp_def]

/-- A flush that finds the consumer dead goes back. -/
theorem Reaches.turnAway (h : Reaches disk target capacity s) (resting : s.Resting)
    (dead : s.queue.consumer = .dead) (f : Flush) :
    ∃ s', Reaches disk target capacity s' ∧ s'.Resting ∧ s'.queue = s.queue.turnAway f ∧
      s'.offered = s.offered ++ [(s.queue.next, f)] ∧
      s'.refused = s.refused ++ [s.queue.next] ∧ s'.calls = s.calls ∧ s'.log = s.log := by
  obtain ⟨pending, waiting, _, room⟩ := resting
  have offered := h.step (.offer f)
  rw [pending, List.nil_append] at offered
  have refused := offered.step (.refuse (s.queue.next, f) (.head _) _
    (FlushQueue.refuse?_eq_some.mpr ⟨dead, rfl⟩))
  exact ⟨_, refused, ⟨by simp, waiting, .inr dead, room⟩, rfl, rfl, rfl, rfl, rfl⟩

def flushOf (a : Shard × DataAction) : Option Flush :=
  match a.2 with
  | .flush part d => some ⟨a.1, d, part⟩
  | _ => none

/-- A run has come to where a read is that has taken the actions `l`. -/
structure Follows (disk : Disk) (target : FlushTarget) (capacity : Nat)
    (l : List (Shard × DataAction)) (d : DataState) (s : QueueRun) : Prop where
  reaches : Reaches disk target capacity s
  resting : s.Resting
  queue : s.queue = d.queue
  calls : s.calls = d.calls
  log : (s.log.map (·.2)).Sublist d.events
  offered : s.offered.map (·.2) = l.filterMap flushOf
  canonical : d.data.missing.Canonical
  refused : ∀ p ∈ s.offered, p.1 ∈ s.refused → ∀ t ∈ p.2.part, (p.2.shard, t) ∈ d.data.missing

theorem pass_eq_none (q : FlushQueue) (dead : q.consumer = .dead) (f : Flush)
    (outcome : Except Failure Unit) : q.pass f outcome = none := by
  simp [FlushQueue.pass, FlushQueue.moves?, FlushQueue.move?, FlushQueue.offer, FlushQueue.enter?,
    dead]

theorem follows_flush {l : List (Shard × DataAction)} {d : DataState}
    (h : Follows disk target capacity l d s) (shard : Shard) (part : Interval) (data : ShardData) :
    ∃ s', Follows disk target capacity (l ++ [(shard, .flush part data)])
      (d.flush (disk, target) ⟨shard, data, part⟩) s' := by
  have tickets := (sound_of_reaches h.reaches).tickets
  rw [DataState.flush]
  rcases h.resting.ready with idle | dead
  · obtain ⟨s', reaches, resting, queue, offered, refused, calls, log⟩ :=
      h.reaches.pass h.resting idle ⟨shard, data, part⟩
    rw [← h.queue, ← h.calls, queue]
    refine ⟨s', reaches, resting, rfl, calls, ?_, ?_, h.canonical, fun p hp hr => ?_⟩
    · rw [log]
      simpa [DataState.events, DataState.logged] using h.log
    · simp [offered, h.offered, flushOf]
    · rw [offered] at hp
      rw [refused] at hr
      rcases List.mem_append.mp hp with hp | hp
      · exact h.refused p hp hr
      · cases List.mem_singleton.mp hp
        exact absurd (tickets.refused _ hr) (Nat.lt_irrefl _)
  · obtain ⟨s', reaches, resting, queue, offered, refused, calls, log⟩ :=
      h.reaches.turnAway h.resting dead ⟨shard, data, part⟩
    rw [← h.queue, pass_eq_none _ dead]
    refine ⟨s', reaches, resting, queue, calls.trans h.calls, ?_, ?_, h.canonical.add _ _,
      fun p hp hr => ?_⟩
    · rw [log]
      exact h.log
    · simp [offered, h.offered, flushOf]
    · intro t ht
      apply (Coverage.mem_add h.canonical).mpr
      rw [offered] at hp
      rw [refused] at hr
      rcases List.mem_append.mp hp with hp | hp
      · rcases List.mem_append.mp hr with hr | hr
        · exact .inl (h.refused p hp hr t ht)
        · have := tickets.lt hp
          have := List.mem_singleton.mp hr
          omega
      · cases List.mem_singleton.mp hp
        exact .inr ⟨rfl, ht⟩

theorem follows_act {l : List (Shard × DataAction)} {d : DataState}
    (h : Follows disk target capacity l d s) (a : Shard × DataAction) :
    ∃ s', Follows disk target capacity (l ++ [a]) (DataState.act (some (disk, target)) d a) s' := by
  obtain ⟨shard, action⟩ := a
  cases action with
  | event e =>
    refine ⟨s, h.reaches, h.resting, h.queue, h.calls, ?_, ?_, h.canonical, h.refused⟩
    · apply h.log.trans
      simp [DataState.events, DataState.act]
    · simp [h.offered, flushOf]
  | miss part =>
    refine ⟨s, h.reaches, h.resting, h.queue, h.calls, h.log, ?_, h.canonical.add shard part,
      fun p hp hr t ht => ?_⟩
    · simp [h.offered, flushOf]
    · exact (Coverage.mem_add h.canonical).mpr (.inl (h.refused p hp hr t ht))
  | keep data =>
    have missing : (d.data.addShard shard data).missing = d.data.missing :=
      RecoveredData.addShard_missing _ _ _
    refine ⟨s, h.reaches, h.resting, h.queue, h.calls, h.log, ?_, ?_, fun p hp hr t ht => ?_⟩
    · simp [h.offered, flushOf]
    · change Coverage.Canonical (d.data.addShard shard data).missing
      rw [missing]
      exact h.canonical
    · change _ ∈ (d.data.addShard shard data).missing
      rw [missing]
      exact h.refused p hp hr t ht
  | flush part data => exact follows_flush h shard part data

theorem follows_run {before : List (Shard × DataAction)} {d : DataState}
    (h : Follows disk target capacity before d s) (l : List (Shard × DataAction)) :
    ∃ s', Follows disk target capacity (before ++ l) (d.run (some (disk, target)) l) s' := by
  induction l generalizing before d s with
  | nil =>
    rw [List.append_nil]
    exact ⟨s, h⟩
  | cons a l ih =>
    obtain ⟨s', h'⟩ := follows_act h a
    rw [← List.singleton_append, ← List.append_assoc]
    exact ih h'

/-- Every read that persists is a run of the queue. -/
theorem run_follows (disk : Disk) (target : FlushTarget) (room : 0 < capacity)
    (l : List (Shard × DataAction)) :
    ∃ s, Follows disk target capacity l
      ((DataState.ofCapacity capacity).run (some (disk, target)) l) s := by
  have begins : Follows disk target capacity [] (.ofCapacity capacity) (start capacity) :=
    ⟨.start, ⟨rfl, rfl, .inl rfl, room⟩, rfl, rfl, .slnil, rfl, .empty, fun p hp => by cases hp⟩
  exact follows_run begins l

/-- The tickets are given out in the order of the flushes. -/
theorem Follows.mem_offered {l : List (Shard × DataAction)} {d : DataState}
    (h : Follows disk target capacity l d s) {ticket : Nat} {f : Flush}
    (sent : (l.filterMap flushOf)[ticket]? = some f) : (ticket, f) ∈ s.offered := by
  rw [← h.offered, List.getElem?_map] at sent
  obtain ⟨⟨ticket', f⟩, hp, rfl⟩ := Option.map_eq_some_iff.mp sent
  have taken : (s.offered.map (·.1))[ticket]? = some ticket' := by rw [List.getElem?_map, hp]; rfl
  rw [(sound_of_reaches h.reaches).tickets.offered] at taken
  obtain ⟨_, same⟩ := List.getElem?_eq_some_iff.mp taken
  rw [List.getElem_range] at same
  cases same
  exact List.mem_of_getElem? hp

/-- In a read that closes its queue, whatever was flushed is written or missing. -/
theorem finish_keeps (disk : Disk) (target : FlushTarget) (room : 0 < capacity) (asked : Coverage)
    {l : List (Shard × DataAction)} {ticket : Nat} {f : Flush}
    (sent : (l.filterMap flushOf)[ticket]? = some f) :
    let s := (DataState.ofCapacity capacity).run (some (disk, target)) l
    ((ticket, true) ∈ s.queue.settled ∧ ∃ nth, (f.write disk target nth).outcome = .ok ()) ∨
      ∀ t ∈ f.part, (f.shard, t) ∈ (s.finish disk asked).data.missing := by
  intro d
  obtain ⟨s, h⟩ := run_follows disk target room l
  have sound := sound_of_reaches h.reaches
  have offered := h.mem_offered sent
  rcases sound.kept offered with refused | written | missing
  · refine .inr fun t ht => (DataState.mem_finish h.canonical disk asked _).mpr (.inl (.inl ?_))
    exact h.refused _ offered refused t ht
  · obtain ⟨before, g, after, entered, outcome⟩ := sound.line.settled _ written
    have taken : (ticket, g) ∈ s.offered := sound.tickets.entered _ (by simp [entered])
    cases sound.tickets.unique offered taken rfl
    rw [← h.queue]
    exact .inl ⟨written, _, outcome_of_ending outcome⟩
  · refine .inr fun t ht => (DataState.mem_finish h.canonical disk asked _).mpr (.inl (.inr ?_))
    rw [← h.queue]
    exact missing t ht

/-- No more is missing of it than its actions lose or flush, unless the commit fails. -/
theorem finish_within (disk : Disk) (target : FlushTarget) (room : 0 < capacity) (asked : Coverage)
    {l : List (Shard × DataAction)} {p : Shard × Instant} :
    let s := (DataState.ofCapacity capacity).run (some (disk, target)) l
    p ∈ (s.finish disk asked).data.missing →
      (∃ a ∈ l, DataAction.LosesIf (some (disk, target)) (fun _ => True) a p) ∨
        (∃ e, disk.done = .error e) ∧ p ∈ asked := by
  intro d hp
  obtain ⟨s, h⟩ := run_follows disk target room l
  rcases (DataState.mem_finish h.canonical disk asked p).mp hp with (missing | closed) | failed
  · obtain ⟨_, within⟩ := DataState.run_missing (some (disk, target))
      (show (DataState.ofCapacity capacity).data.missing.Canonical from .empty) l
    rcases within p missing with begun | lost
    · simp [DataState.ofCapacity, RecoveredData.empty] at begun
    · exact .inl lost
  · rw [← h.queue] at closed
    obtain ⟨⟨_, f⟩, offered, _, _, shard, part⟩ :=
      ((sound_of_reaches h.reaches).mem_close p).mp closed
    have sent : f ∈ l.filterMap flushOf := h.offered ▸ List.mem_map_of_mem offered
    obtain ⟨⟨shard', action⟩, ha, flushes⟩ := List.mem_filterMap.mp sent
    cases action with
    | flush part' data =>
      cases flushes
      exact .inl ⟨_, ha, shard, part, trivial⟩
    | _ => cases flushes
  · exact .inr failed

end Backfill.Peers.QueueRun
