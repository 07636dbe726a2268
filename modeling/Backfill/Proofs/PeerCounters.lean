import Backfill.Proofs.LogCounters
import Backfill.Proofs.Registrations
import Backfill.Proofs.WindowFetches

/-!
What the counters of a read from peers say. A window that is walked is fetched once and counted
once, whatever becomes of it; and of what is fetched to be written, each flush is counted once. None
of this depends on how the workers take turns, but for which of the flushes fail.
-/

namespace Backfill

namespace Interval

/-- Windows from where the interval is reached on meet it. -/
theorem walk_meet {size : Duration} (hs : 0 < size) {r : Interval} (some : r.start < r.stop)
    {fuel : Nat} {b : Instant} (reach : r.start < b + size) {w : Interval}
    (h : w ∈ (walk (Instant.shift · size) r.stop fuel b).entries) : (w.intersect r).isSome = true := by
  induction fuel generalizing b with
  | zero => cases h
  | succ fuel ih =>
    unfold walk at h
    cases next : Instant.shift b size with
    | error f =>
      rw [next] at h
      cases h
    | ok next' =>
      have stop : next' = b + size := by
        unfold Instant.shift at next
        split at next
        · exact (Except.ok.inj next).symm
        · cases next
      subst stop
      rw [next] at h
      dsimp only at h
      split at h
      · rcases List.mem_cons.mp h with rfl | h
        · have inhabited : ¬ (Interval.mk (max b r.start) (min (b + size) r.stop)).isEmpty = true := by
            simp only [isEmpty, decide_eq_true_eq]
            lia
          rw [intersect, if_neg inhabited]
          rfl
        · exact ih (by lia) h
      · cases h

/-- None of the windows of an interval is looked at in vain. -/
theorem windows_meet {size : Duration} (hs : 0 < size) {r w : Interval}
    (h : w ∈ (r.windows size).entries) : (w.intersect r).isSome = true := by
  unfold windows windowsUpTo at h
  split at h
  · cases h
  · rename_i some
    cases start : Instant.windowStart r.start size with
    | error f =>
      rw [start] at h
      cases h
    | ok b =>
      rw [start, Trail.bind_lift_ok] at h
      exact walk_meet hs (isEmpty_eq_false_iff.mp (Bool.eq_false_iff.mpr some))
        (Instant.mem_window hs start).2 h

end Interval

/-- The windows that each interval of the set reaches into. -/
def TimeSet.walk (s : TimeSet) (size : Duration) : List (Interval × Interval) :=
  s.intervals.flatMap fun r => (r.windows size).entries.map (r, ·)

theorem TimeSet.walk_eq {s : TimeSet} {size : Duration} (hs : 0 < size)
    (ends : (s.slices size).outcome = .ok ()) : (s.walk size).map (·.2) = s.windows size := by
  have same : (s.slices size).entries = s.intervals.flatMap (slicesOf size) := Trail.each_ends ends
  rw [windows, same, walk, List.map_flatMap, List.map_flatMap]
  refine List.flatMap_congr fun r _ => ?_
  rw [map_window_slicesOf, List.filter_eq_self.mpr fun w hw => Interval.windows_meet hs hw,
    List.map_map]
  exact List.map_id _

namespace Coverage

/-- The windows that are gone through for each interval of a shard. -/
def walk (c : Coverage) (size : Duration) : List (Shard × Interval × Interval) :=
  c.entries.flatMap fun e => (e.2.walk size).map (e.1, ·)

/-- Whether each window is answered, with the windows of a shard counted one after the other. -/
def answers (c : Coverage) (size : Duration) (answered : Shard → Nat → Interval → Bool) :
    List Bool :=
  c.entries.flatMap fun e => (e.2.walk size).zipIdx.map fun p => answered e.1 p.2 p.1.2

theorem length_answers (c : Coverage) (size : Duration) (answered : Shard → Nat → Interval → Bool) :
    (c.answers size answered).length = (c.walk size).length := by
  simp [answers, walk, List.length_flatMap]

theorem walk_of_isEmpty {c : Coverage} (none : c.isEmpty = true) (size : Duration) :
    c.walk size = [] := by
  rw [eq_empty_of_isEmpty none]
  rfl

end Coverage

namespace Peers

def DataAction.amount (m : Metric) : DataAction → Nat
  | .event e => e.amount m
  | _ => 0

def IndexAction.amount (m : Metric) : IndexAction → Nat
  | .event e => e.amount m
  | _ => 0

theorem DataAction.Plain.amount {a : DataAction} (h : a.Plain) (m : Metric) : a.amount m = 0 := by
  cases a with
  | event e => cases e <;> first | rfl | exact h.elim
  | _ => rfl

/-- How often a fetch came back with an answer, and how often with an error. -/
theorem weigh_fetched (kind : FetchKind) (ok : Bool) (l : List Bool) :
    weigh (fun b => (DataWork.fetched kind b).amount (.fetches kind ok)) l = l.count ok := by
  induction l with
  | nil => rfl
  | cons b l ih =>
    rw [weigh_cons, ih, List.count_cons, Nat.add_comm]
    cases kind <;> cases b <;> cases ok <;> rfl

theorem weigh_fetched_of_ne {m : Metric} (kind : FetchKind) (other : ∀ ok, m ≠ .fetches kind ok)
    (l : List Bool) : weigh (fun b => (DataWork.fetched kind b).amount m) l = 0 :=
  weigh_eq_zero fun b _ => Event.amount_counted_of_ne (other b).symm 1

section Workers

variable {session : Session} {how : Delivery} {fetch : Interval → Fetch} {shard : Shard}

/-- Whatever a window comes to, it is counted for whether its fetch was answered. -/
theorem DataWork.weigh_slice (m : Metric) {n : Nat} {v : TimeSet.Slice}
    (h : (slice session how fetch shard (n, v)).outcome = .ok ()) :
    weigh (DataAction.amount m) (slice session how fetch shard (n, v)).entries =
      (fetched .blocks (session.blocks n (fetch v.window)).ok?.isSome).amount m := by
  unfold slice at h ⊢
  dsimp only at h ⊢
  cases reply : session.blocks n (fetch v.window) with
  | ok d =>
    have plain : weigh (DataAction.amount m) (deliver how shard v.part d).entries = 0 :=
      weigh_eq_zero fun a ha => (plain_deliver ha).amount m
    change 0 + ((fetched .blocks true).amount m + weigh _ (deliver how shard v.part d).entries) = _
    rw [plain, Nat.zero_add, Nat.add_zero]
    rfl
  | error e =>
    change 0 + ((fetched .blocks false).amount m + 0) = _
    rw [Nat.zero_add, Nat.add_zero]
    rfl
  | crash =>
    rw [reply] at h
    cases h

theorem IndexWork.weigh_slice (m : Metric) {p : Policy} {n : Nat} {v : TimeSet.Slice}
    (h : (slice session p fetch (n, v)).outcome = .ok ()) :
    weigh (IndexAction.amount m) (slice session p fetch (n, v)).entries =
      (DataWork.fetched .metadata (session.metadata n (fetch v.window)).ok?.isSome).amount m := by
  unfold slice at h ⊢
  dsimp only at h ⊢
  cases reply : session.metadata n (fetch v.window) with
  | ok l =>
    rw [reply] at h
    obtain ⟨_, _, h⟩ := Trail.outcome_bind_eq_ok.mp h
    obtain ⟨_, _, h⟩ := Trail.outcome_bind_eq_ok.mp h
    obtain ⟨w, gathered, _⟩ := Trail.outcome_bind_eq_ok.mp h
    have gathered : IndexWindow.ofEntries p v l = .ok w := gathered
    dsimp only
    rw [gathered]
    change 0 + ((DataWork.fetched .metadata true).amount m + (0 + 0)) = _
    rw [Nat.zero_add, Nat.add_zero]
    rfl
  | error e =>
    change 0 + ((DataWork.fetched .metadata false).amount m + 0) = _
    rw [Nat.zero_add, Nat.add_zero]
    rfl
  | crash =>
    rw [reply] at h
    cases h

/-- Nothing but what became of the fetches is counted. -/
theorem DataWork.amount_slice {m : Metric} (other : ∀ ok, m ≠ .fetches .blocks ok) {n : Nat}
    {v : TimeSet.Slice} {a : DataAction}
    (h : a ∈ (slice session how fetch shard (n, v)).entries) : a.amount m = 0 := by
  unfold slice at h
  dsimp only at h
  rcases Trail.mem_entries_bind h with h | ⟨_, _, h⟩
  · cases List.mem_singleton.mp h
    rfl
  · split at h
    · rcases Trail.mem_entries_bind h with h | ⟨_, _, h⟩
      · cases List.mem_singleton.mp h
        exact Event.amount_counted_of_ne (other true).symm 1
      · exact (plain_deliver h).amount m
    · rcases List.mem_cons.mp h with rfl | h
      · exact Event.amount_counted_of_ne (other false).symm 1
      · cases List.mem_singleton.mp h
        rfl
    · cases h

theorem IndexWork.amount_slice {m : Metric} (other : ∀ ok, m ≠ .fetches .metadata ok) {p : Policy}
    {n : Nat} {v : TimeSet.Slice} {a : IndexAction}
    (h : a ∈ (slice session p fetch (n, v)).entries) : a.amount m = 0 := by
  unfold slice at h
  dsimp only at h
  rcases Trail.mem_entries_bind h with h | ⟨_, _, h⟩
  · cases List.mem_singleton.mp h
    rfl
  · split at h
    · rcases Trail.mem_entries_bind h with h | ⟨_, _, h⟩
      · cases List.mem_singleton.mp h
        exact Event.amount_counted_of_ne (other true).symm 1
      · rcases Trail.mem_entries_bind h with h | ⟨_, _, h⟩
        · cases h
        · cases List.mem_singleton.mp h
          rfl
    · rcases List.mem_cons.mp h with rfl | h
      · exact Event.amount_counted_of_ne (other false).symm 1
      · cases List.mem_singleton.mp h
        rfl
    · cases h

/-- What a worker did of which one of the flushes is made. -/
def DataAction.handed : DataAction → Nat
  | .flush _ _ => 1
  | _ => 0

/-- What is fetched to be written is handed on, once. -/
theorem DataWork.handed_slice {n : Nat} {v : TimeSet.Slice}
    (h : (slice session .persist fetch shard (n, v)).outcome = .ok ()) :
    weigh DataAction.handed (slice session .persist fetch shard (n, v)).entries =
      if (session.blocks n (fetch v.window)).ok?.isSome then 1 else 0 := by
  unfold slice at h ⊢
  dsimp only at h ⊢
  cases reply : session.blocks n (fetch v.window) with
  | ok d => rfl
  | error e => rfl
  | crash =>
    rw [reply] at h
    cases h

end Workers

section Walks

variable {ε : Type} {f : Shard → Nat × TimeSet.Slice → Trail ε Fault Unit} {c : Coverage}
  {size : Duration} {w : ε → Nat} {answered : Shard → Nat → Interval → Bool} {g : Bool → Nat}

/-- One worker for each shard, which counts its slices. -/
def workers (f : Shard → Nat × TimeSet.Slice → Trail ε Fault Unit) (c : Coverage)
    (size : Duration) : List (ShardWork ε) :=
  c.entries.map fun e => ⟨e.1, e.2,
    (Trail.foldOver (Trail.counted (f e.1)) 0 (e.2.slices size)).bind fun _ => .pure ()⟩

theorem weigh_worker (hs : 0 < size) {shard : Shard} {asked : TimeSet}
    (each : ∀ n v, (f shard (n, v)).outcome = .ok () →
      weigh w (f shard (n, v)).entries = g (answered shard n v.window))
    (ends : ((Trail.foldOver (Trail.counted (f shard)) 0 (asked.slices size)).bind
      fun _ => (.pure () : Trail ε Fault Unit)).outcome = .ok ()) :
    weigh w ((Trail.foldOver (Trail.counted (f shard)) 0 (asked.slices size)).bind
      fun _ => (.pure () : Trail ε Fault Unit)).entries =
        weigh g ((asked.walk size).zipIdx.map fun p => answered shard p.2 p.1.2) := by
  obtain ⟨_, walked, _⟩ := Trail.outcome_bind_eq_ok.mp ends
  obtain ⟨m, folded, rest⟩ := Trail.outcome_bind_eq_ok.mp walked
  obtain ⟨here, entries⟩ := Trail.foldEach_counted_ends folded
  have sliced : (asked.slices size).outcome = .ok () := by
    cases all : (asked.slices size).outcome with
    | ok u => rfl
    | error e =>
      rw [all] at rest
      cases rest
  have windows : ((asked.walk size).zipIdx.map fun p => answered shard p.2 p.1.2) =
      (asked.slices size).entries.zipIdx.map fun p => answered shard p.2 p.1.window := by
    have same := congrArg (fun l => l.zipIdx.map fun p => answered shard p.2 p.1)
      (TimeSet.walk_eq hs sliced)
    simpa only [TimeSet.windows, List.zipIdx_map, List.map_map, Function.comp_def, Prod.map, id_eq]
      using same
  rw [Trail.entries_bind_silent _ fun _ => rfl, Trail.foldOver,
    Trail.entries_bind_silent _ fun _ => rfl, entries, windows, weigh_flatMap, weigh_map]
  exact weigh_congr fun p hp => each p.2 p.1 (here p hp)

/-- What all workers do weighs what their windows do. -/
theorem weigh_workers (hs : 0 < size)
    (each : ∀ shard n v, (f shard (n, v)).outcome = .ok () →
      weigh w (f shard (n, v)).entries = g (answered shard n v.window))
    (ends : ∀ x ∈ workers f c size, x.work.outcome = .ok ()) :
    weigh (fun a => w a.2) ((workers f c size).flatMap ShardWork.actions) =
      weigh g (c.answers size answered) := by
  rw [workers, List.flatMap_map, weigh_flatMap, Coverage.answers, weigh_flatMap]
  refine weigh_congr fun e he => ?_
  rw [ShardWork.actions, weigh_map]
  exact weigh_worker hs (each e.1) (ends _ (List.mem_map_of_mem he))

/-- Whatever is done is done about some window. -/
theorem mem_workers {a : Shard × ε} (h : a ∈ (workers f c size).flatMap ShardWork.actions) :
    ∃ shard n v, a.2 ∈ (f shard (n, v)).entries := by
  obtain ⟨x, hx, ha⟩ := List.mem_flatMap.mp h
  obtain ⟨e, _, rfl⟩ := List.mem_map.mp hx
  obtain ⟨b, hb, rfl⟩ := List.mem_map.mp ha
  rcases Trail.mem_entries_bind hb with hb | ⟨_, _, hb⟩
  · rcases Trail.mem_entries_bind hb with hb | ⟨_, _, hb⟩
    · obtain ⟨n, v, _, hb⟩ := Trail.mem_entries_foldEach hb
      exact ⟨e.1, n, v, Trail.mem_entries_counted hb⟩
    · cases hb
  · cases hb

end Walks

/-- The flushes among the actions, with what the disk was asked for each. -/
def writesOf (target : Option (Disk × FlushTarget)) (nth : Nat) (l : List (Shard × DataAction)) :
    List (Flush × Flush.DiskTrail) :=
  match target with
  | some d => Flush.writes d.1 d.2 nth (l.filterMap QueueRun.flushOf)
  | none => []

/-- No write breaks off. -/
def Survived (turns : List (Flush × Flush.DiskTrail)) : Prop :=
  ∀ turn ∈ turns, ∀ x, turn.2.outcome ≠ .error (.fault x)

theorem writesOf_append (target : Option (Disk × FlushTarget)) (nth : Nat)
    (l l' : List (Shard × DataAction)) : writesOf target nth (l ++ l') = writesOf target nth l ++
      writesOf target (nth + ((writesOf target nth l).flatMap (·.2.entries)).length) l' := by
  cases target with
  | none => rfl
  | some d =>
    simp only [writesOf, List.filterMap_append]
    exact Flush.writes_append nth _ _

namespace DataState

variable {target : Option (Disk × FlushTarget)} {s : DataState} {m : Metric}

theorem weigh_logged (w : Event → Nat) (events log : List Event) :
    weigh w (logged events log) = weigh w log + weigh w events := by
  rw [logged, weigh_append, weigh_perm (List.reverse_perm events), Nat.add_comm]

theorem weigh_disk (m : Metric) (l : List (DiskCall × Reply Unit)) :
    weigh (Event.amount m) (l.map fun e => .disk e.1 e.2) = 0 :=
  weigh_eq_zero fun e he => by
    obtain ⟨_, _, rfl⟩ := List.mem_map.mp he
    rfl

/-- What the actions `l` count, with the flushes among them. -/
structure Tallied (m : Metric) (l : List (Shard × DataAction)) (s s' : DataState)
    (turns : List (Flush × Flush.DiskTrail)) : Prop where
  ready : s'.queue.Ready
  calls : s'.calls = s.calls + (turns.flatMap (·.2.entries)).length
  log : weigh (Event.amount m) s'.log = weigh (Event.amount m) s.log +
    (weigh (fun a => a.2.amount m) l +
      weigh (fun turn => weigh (Event.amount m) (flushed turn.2.outcome)) turns)

theorem Tallied.trans {s' s'' : DataState} {l l' : List (Shard × DataAction)}
    {turns turns' : List (Flush × Flush.DiskTrail)} (h : Tallied m l s s' turns)
    (h' : Tallied m l' s' s'' turns') : Tallied m (l ++ l') s s'' (turns ++ turns') where
  ready := h'.ready
  calls := by rw [h'.calls, h.calls, List.flatMap_append, List.length_append, Nat.add_assoc]
  log := by
    rw [h'.log, h.log, weigh_append, weigh_append]
    lia

theorem act_tallied (m : Metric) (ready : s.queue.Ready) {a : Shard × DataAction}
    (survived : Survived (writesOf target s.calls [a])) :
    Tallied m [a] s (act target s a) (writesOf target s.calls [a]) := by
  obtain ⟨shard, action⟩ := a
  cases action with
  | event e =>
    have none : writesOf target s.calls [(shard, .event e)] = [] := by cases target <;> rfl
    rw [none]
    exact ⟨ready, rfl, Nat.add_comm ..⟩
  | miss part =>
    have none : writesOf target s.calls [(shard, .miss part)] = [] := by cases target <;> rfl
    rw [none]
    exact ⟨ready, rfl, rfl⟩
  | keep d =>
    have none : writesOf target s.calls [(shard, .keep d)] = [] := by cases target <;> rfl
    rw [none]
    exact ⟨ready, rfl, rfl⟩
  | flush part d =>
    cases target with
    | none => exact ⟨ready, rfl, rfl⟩
    | some d' =>
      have settles : ∃ written, FlushQueue.ending
          (Flush.write d'.1 d'.2 s.calls ⟨shard, d, part⟩).outcome = .settle written := by
        have whole := survived _ List.mem_cons_self
        dsimp only at whole
        rcases h : (Flush.write d'.1 d'.2 s.calls ⟨shard, d, part⟩).outcome with (e | x) | _
        · exact ⟨false, rfl⟩
        · exact absurd h (whole x)
        · exact ⟨true, rfl⟩
      obtain ⟨written, settles⟩ := settles
      have passed := FlushQueue.pass_settle ready ⟨shard, d, part⟩ settles
      simp only [act, flush, passed]
      refine ⟨⟨ready.idle, ready.waiting, ready.ledger, ready.room⟩, ?_, ?_⟩
      · simp [writesOf, Flush.writes, QueueRun.flushOf]
      · rw [weigh_logged, weigh_append, weigh_disk]
        simp [writesOf, Flush.writes, QueueRun.flushOf, DataAction.amount]

theorem run_tallied (m : Metric) (ready : s.queue.Ready) {l : List (Shard × DataAction)}
    (survived : Survived (writesOf target s.calls l)) :
    Tallied m l s (run target s l) (writesOf target s.calls l) := by
  induction l generalizing s with
  | nil =>
    have none : writesOf target s.calls [] = [] := by cases target <;> rfl
    rw [none]
    exact ⟨ready, rfl, rfl⟩
  | cons a l ih =>
    have split := writesOf_append target s.calls [a] l
    rw [List.singleton_append] at split
    rw [split] at survived ⊢
    have first := act_tallied m ready fun turn ht => survived turn (List.mem_append_left _ ht)
    rw [← first.calls] at survived ⊢
    exact first.trans (ih first.ready fun turn ht => survived turn (List.mem_append_right _ ht))

end DataState

namespace DataState

variable {target : Option (Disk × FlushTarget)} {m : Metric}

theorem weigh_flushed {outcome : Except Failure Unit} (whole : ∀ x, outcome ≠ .error (.fault x))
    (ok : Bool) : weigh (Event.amount (.flushes ok)) (flushed outcome) =
      if outcome.isOk == ok then 1 else 0 := by
  rcases outcome with (e | x) | _
  · cases ok <;> rfl
  · exact absurd rfl (whole x)
  · cases ok <;> rfl

theorem weigh_flushed_of_ne (other : ∀ ok, m ≠ .flushes ok) (outcome : Except Failure Unit) :
    weigh (Event.amount m) (flushed outcome) = 0 := by
  rcases outcome with (e | x) | _
  · exact Event.amount_counted_of_ne (other false).symm 1
  · rfl
  · exact Event.amount_counted_of_ne (other true).symm 1

/-- Also where something breaks off, flushes are all that is counted besides what the workers do. -/
theorem weigh_run_of_ne (other : ∀ ok, m ≠ .flushes ok) {l : List (Shard × DataAction)}
    (silent : ∀ a ∈ l, a.2.amount m = 0) (s : DataState) :
    weigh (Event.amount m) (run target s l).log = weigh (Event.amount m) s.log := by
  refine List.foldlRecOn (motive := fun s' : DataState =>
    weigh (Event.amount m) s'.log = weigh (Event.amount m) s.log) l (act target) rfl
    fun s' before a ha => ?_
  have here := silent a ha
  obtain ⟨shard, action⟩ := a
  cases action with
  | event e => exact (congrArg (· + _) here).trans ((Nat.zero_add _).trans before)
  | miss part => exact before
  | keep d => exact before
  | flush part d =>
    cases target with
    | none => exact before
    | some t =>
      simp only [act, flush]
      split
      · rw [weigh_logged, weigh_append, weigh_disk, weigh_flushed_of_ne other]
        exact before
      · exact before

theorem weigh_finish_of_ne (other : ∀ ok, m ≠ .flushes ok) (s : DataState) (disk : Disk)
    (asked : Coverage) :
    weigh (Event.amount m) (s.finish disk asked).log = weigh (Event.amount m) s.log := by
  have closing : weigh (Event.amount m) (s.queue.ledger.map fun _ => .counted (.flushes false) 1) =
      0 := by
    rw [weigh_map]
    exact weigh_eq_zero fun _ _ => Event.amount_counted_of_ne (other false).symm 1
  simp only [finish, weigh_logged, weigh_append, closing]
  rfl

end DataState

theorem IndexState.weigh_run (m : Metric) (l : List (Shard × IndexAction)) :
    weigh (Event.amount m) (run l).log = weigh (fun a => a.2.amount m) l := by
  have each (s : IndexState) : weigh (Event.amount m) (l.foldl act s).log =
      weigh (Event.amount m) s.log + weigh (fun a => a.2.amount m) l := by
    induction l generalizing s with
    | nil => rfl
    | cons a l ih =>
      rw [List.foldl_cons, ih, weigh_cons, ← Nat.add_assoc]
      refine congrArg (· + _) ?_
      obtain ⟨shard, action⟩ := a
      cases action with
      | event e => exact Nat.add_comm ..
      | miss part => rfl
      | absorb w => rfl
  exact (each _).trans (Nat.zero_add _)

/-- A phase of the data that has begun: with whom its workers speak, and where to what they fetch is
written. -/
structure DataPhase (t : Tuning) (c : Cluster) where
  request : Request
  nth : Nat
  session : Session
  target : Option (Disk × FlushTarget)
  opened : c.openSession nth = .ok session
  targeted : (openTarget t c nth request).outcome = .ok target

namespace DataPhase

variable {t : Tuning} {c : Cluster} (p : DataPhase t c) {l : List (Shard × DataAction)}

def work : List (ShardWork DataAction) :=
  dataWork t p.session (delivery p.request p.target) p.request

/-- What the workers do, one after the other. -/
def actions : List (Shard × DataAction) := p.work.flatMap ShardWork.actions

def walk : List (Shard × Interval × Interval) :=
  p.request.data.ranges.walk p.request.policy.blockSize

/-- Whether each fetch comes back with blocks. -/
def answers : List Bool :=
  p.request.data.ranges.answers p.request.policy.blockSize fun shard n w =>
    (p.session.blocks n (dataFetch t p.request shard w)).ok?.isSome

/-- How often blocks are fetched that are to be written. -/
def persisted : Nat := if shouldPersist t p.request then p.answers.count true else 0

/-- How many flushes fail, in this order of the actions. -/
def failed (l : List (Shard × DataAction)) : Nat :=
  (writesOf p.target 0 l).countP (!·.2.outcome.isOk)

/-- Neither a worker nor a write breaks off. -/
structure Unbroken (l : List (Shard × DataAction)) : Prop where
  workers : ∀ w ∈ p.work, w.work.outcome = .ok ()
  writes : Survived (writesOf p.target 0 l)

/-- What the counters say of the actions in this order. -/
structure Counted (l : List (Shard × DataAction)) (events : List Event) : Prop where
  answered : ∀ ok, Event.total (.fetches .blocks ok) events = p.answers.count ok
  fetches : Event.total (.fetches .blocks true) events +
    Event.total (.fetches .blocks false) events = p.walk.length
  flushes : Event.total (.flushes true) events + Event.total (.flushes false) events = p.persisted
  failed : Event.total (.flushes false) events = p.failed l

variable {p}

theorem work_eq : p.work = workers (fun shard => DataWork.slice p.session
    (delivery p.request p.target) (dataFetch t p.request shard) shard) p.request.data.ranges
      p.request.policy.blockSize :=
  List.map_congr_left fun e _ =>
    congrArg (ShardWork.mk e.1 e.2) (DataWork.shard_eq_counted ..)

theorem weigh_turns (turns : Interleaves (p.work.map ShardWork.actions) l)
    (w : Shard × DataAction → Nat) : weigh w l = weigh w p.actions := by
  rw [weigh_perm turns.perm, actions, List.flatMap_def]

/-- What the workers count is what their windows do. -/
theorem weigh_actions {w : DataAction → Nat} {g : Bool → Nat}
    (each : ∀ shard n v, (DataWork.slice p.session (delivery p.request p.target)
      (dataFetch t p.request shard) shard (n, v)).outcome = .ok () →
        weigh w (DataWork.slice p.session (delivery p.request p.target)
          (dataFetch t p.request shard) shard (n, v)).entries =
            g (p.session.blocks n (dataFetch t p.request shard v.window)).ok?.isSome)
    (ends : ∀ x ∈ p.work, x.work.outcome = .ok ()) :
    weigh (fun a => w a.2) p.actions = weigh g p.answers := by
  rw [work_eq] at ends
  rw [actions, work_eq]
  exact weigh_workers p.request.policy.blockSize_pos each ends

/-- A flush is made of everything that is fetched to be written. -/
theorem length_writes (turns : Interleaves (p.work.map ShardWork.actions) l)
    (ends : ∀ x ∈ p.work, x.work.outcome = .ok ()) :
    (writesOf p.target 0 l).length = p.persisted := by
  rw [persisted]
  rcases openTarget_ok p.targeted with ⟨stays, none⟩ | ⟨moves, disk, _, some⟩
  · rw [none, stays]
    rfl
  · have delivers : delivery p.request p.target = .persist := by rw [some]; rfl
    rw [moves, if_pos rfl, some, writesOf]
    have flushes : (Flush.writes disk (flushTarget p.request) 0
        (l.filterMap QueueRun.flushOf)).length = weigh (fun a => a.2.handed) l := by
      rw [← List.length_map (·.1), Flush.map_writes, ← Nat.mul_one (List.length _), ← weigh_const,
        weigh_filterMap]
      refine weigh_congr fun a _ => ?_
      obtain ⟨shard, action⟩ := a
      cases action <;> rfl
    rw [flushes, weigh_turns turns]
    have each := p.weigh_actions (g := fun ok => if ok then 1 else 0) (fun shard n v h => by
      rw [delivers] at h ⊢
      exact DataWork.handed_slice h) ends
    rw [each, weigh_ite]
    simp [List.count]

/-- Of what the workers and the disk do, the counters tell as much. -/
theorem weigh_outcome (valid : t.validate = .ok ()) (unbroken : p.Unbroken l) (m : Metric) :
    Event.total m (dataOutcome t p.target p.request l).events =
      weigh (fun a => a.2.amount m) l +
        weigh (fun turn => weigh (Event.amount m) (DataState.flushed turn.2.outcome))
          (writesOf p.target 0 l) := by
  have ran := DataState.run_tallied (s := .ofCapacity t.queueCapacity) m
    (FlushQueue.ready_ofCapacity (Tuning.queueCapacity_pos valid)) unbroken.writes
  have log := ran.log.trans (Nat.zero_add _)
  have ledger := ran.ready.ledger
  rw [Event.total_eq_weigh, DataState.events, weigh_perm (List.reverse_perm _)]
  refine Eq.trans ?_ log
  cases h : p.target with
  | none => rfl
  | some d =>
    -- nothing is left to be given up when the queue is closed
    rw [h] at ledger
    simp only [dataOutcome, DataState.finish, DataState.weigh_logged, ledger]
    rfl

theorem counted (valid : t.validate = .ok ())
    (turns : Interleaves (p.work.map ShardWork.actions) l) (unbroken : p.Unbroken l) :
    p.Counted l (dataOutcome t p.target p.request l).events := by
  have acted (m : Metric) : weigh (fun a => a.2.amount m) l =
      weigh (fun ok => (DataWork.fetched .blocks ok).amount m) p.answers := by
    rw [weigh_turns turns]
    exact weigh_actions (fun _ _ _ h => DataWork.weigh_slice m h) unbroken.workers
  have written (ok : Bool) : weigh (fun turn => weigh (Event.amount (.flushes ok))
      (DataState.flushed turn.2.outcome)) (writesOf p.target 0 l) =
        (writesOf p.target 0 l).countP (·.2.outcome.isOk == ok) := by
    rw [← weigh_ite]
    exact weigh_congr fun turn ht => DataState.weigh_flushed (unbroken.writes turn ht) ok
  have unwritten {m : Metric} (other : ∀ ok, m ≠ .flushes ok) :
      weigh (fun turn => weigh (Event.amount m) (DataState.flushed turn.2.outcome))
        (writesOf p.target 0 l) = 0 :=
    weigh_eq_zero fun turn _ => DataState.weigh_flushed_of_ne other _
  have answered (ok : Bool) : Event.total (.fetches .blocks ok)
      (dataOutcome t p.target p.request l).events = p.answers.count ok := by
    have none := unwritten (m := .fetches .blocks ok) nofun
    rw [weigh_outcome valid unbroken, acted, weigh_fetched, none, Nat.add_zero]
  have flushed (ok : Bool) : Event.total (.flushes ok)
      (dataOutcome t p.target p.request l).events =
        (writesOf p.target 0 l).countP (·.2.outcome.isOk == ok) := by
    have none := weigh_fetched_of_ne (m := .flushes ok) .blocks nofun p.answers
    rw [weigh_outcome valid unbroken, acted, none, written, Nat.zero_add]
  refine ⟨answered, ?_, ?_, ?_⟩
  · rw [answered, answered, List.count_true_add_count_false]
    exact Coverage.length_answers ..
  · rw [flushed, flushed, ← length_writes turns unbroken.workers,
      List.length_eq_countP_add_countP (·.2.outcome.isOk)]
    simp
  · rw [flushed, failed]
    simp

end DataPhase

/-- A phase of the index that has begun. -/
structure IndexPhase (t : Tuning) (c : Cluster) where
  request : Request
  nth : Nat
  session : Session
  kept : request.policy.indexed = true
  opened : c.openSession nth = .ok session

namespace IndexPhase

variable {t : Tuning} {c : Cluster} (p : IndexPhase t c) {l : List (Shard × IndexAction)}

def work : List (ShardWork IndexAction) := indexWork t p.session p.request

def actions : List (Shard × IndexAction) := p.work.flatMap ShardWork.actions

def walk : List (Shard × Interval × Interval) :=
  p.request.index.ranges.walk p.request.policy.indexBlockSize

/-- Whether each fetch comes back with metadata. -/
def answers : List Bool :=
  p.request.index.ranges.answers p.request.policy.indexBlockSize fun shard n w =>
    (p.session.metadata n (indexFetch t p.request shard w)).ok?.isSome

/-- No worker breaks off. -/
def Unbroken : Prop := ∀ w ∈ p.work, w.work.outcome = .ok ()

structure Counted (events : List Event) : Prop where
  answered : ∀ ok, Event.total (.fetches .metadata ok) events = p.answers.count ok
  fetches : Event.total (.fetches .metadata true) events +
    Event.total (.fetches .metadata false) events = p.walk.length

variable {p}

theorem work_eq : p.work = workers (fun shard => IndexWork.slice p.session p.request.policy
    (indexFetch t p.request shard)) p.request.index.ranges p.request.policy.indexBlockSize := by
  refine List.map_congr_left fun e _ => congrArg (ShardWork.mk e.1 e.2) ?_
  rw [IndexWork.shard, TimeSet.foldSlices_eq]
  rfl

theorem total_events (m : Metric) (l : List (Shard × IndexAction)) :
    Event.total m (IndexState.run l).events = weigh (fun a => a.2.amount m) l := by
  rw [Event.total_eq_weigh, IndexState.events, weigh_perm (List.reverse_perm _),
    IndexState.weigh_run]

theorem counted (turns : Interleaves (p.work.map ShardWork.actions) l) (unbroken : p.Unbroken) :
    p.Counted (IndexState.run l).events := by
  have answered (ok : Bool) :
      Event.total (.fetches .metadata ok) (IndexState.run l).events = p.answers.count ok := by
    have ends : ∀ w ∈ p.work, w.work.outcome = .ok () := unbroken
    rw [total_events, weigh_perm turns.perm, ← List.flatMap_def, ← weigh_fetched .metadata]
    rw [work_eq] at ends ⊢
    exact weigh_workers (p.request.policy.indexBlockSize_pos p.kept)
      (fun _ _ _ h => IndexWork.weigh_slice _ h) ends
  refine ⟨answered, ?_⟩
  rw [answered, answered, List.count_true_add_count_false]
  exact Coverage.length_answers ..

end IndexPhase

end Peers

end Backfill
