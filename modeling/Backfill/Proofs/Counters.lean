import Backfill.Proofs.PeerCounters
import Backfill.Proofs.SaneTimes

/-!
The counters of whole reads, and what the reads did.
-/

namespace Backfill

namespace Peers

variable {t : Tuning} {c : Cluster} {nth : Nat} {r : Request}

/-- The phase that begins when the turn comes to the request. -/
def DataPhase.of? (t : Tuning) (c : Cluster) (turn : Request × Nat) : Option (DataPhase t c) :=
  match opened : c.openSession turn.2, targeted : (openTarget t c turn.2 turn.1).outcome with
  | .ok session, .ok target => some ⟨turn.1, turn.2, session, target, opened, targeted⟩
  | _, _ => none

def IndexPhase.of? (t : Tuning) (c : Cluster) (turn : Request × Nat) : Option (IndexPhase t c) :=
  if kept : turn.1.policy.indexed = true then
    match opened : c.openSession turn.2 with
    | .ok session => some ⟨turn.1, turn.2, session, kept, opened⟩
    | .error _ => none
  else none

namespace DataPhase

/-- The request with the number of sessions opened before. -/
def turn (p : DataPhase t c) : Request × Nat := (p.request, p.nth)

/-- What the phase leaves before it is done. -/
def events (p : DataPhase t c) : List Event :=
  (dataOutcome t p.target p.request p.actions).events

theorem of?_eq_some {p : DataPhase t c} {x : Request × Nat} : of? t c x = some p ↔ p.turn = x := by
  obtain ⟨r, nth, session, target, opened, targeted⟩ := p
  unfold of? turn
  constructor
  · intro h
    split at h
    · cases h
      rfl
    · cases h
  · intro h
    cases h
    split
    · rename_i session' target' opened' targeted'
      cases opened.symm.trans opened'
      cases targeted.symm.trans targeted'
      rfl
    · rename_i other
      exact absurd targeted (other session target opened)

theorem exists_of_ok {data : RecoveredData} (asked : r.data.ranges.isEmpty = false)
    (h : (readData t c nth r).outcome = .ok data) : ∃ p : DataPhase t c, p.turn = (r, nth) := by
  obtain ⟨session, target, opened, targeted, _⟩ := readData_ok asked h
  exact ⟨⟨r, nth, session, target, opened, targeted⟩, rfl⟩

theorem weigh_entries (p : DataPhase t c) {data : RecoveredData}
    (asked : p.request.data.ranges.isEmpty = false)
    (h : (readData t c p.nth p.request).outcome = .ok data) (m : Metric) :
    weigh (Event.amount m) (readData t c p.nth p.request).entries = Event.total m p.events +
      weigh (Event.amount m) (phaseDone .peers .data data.missing) := by
  obtain ⟨r, nth, session, target, opened, targeted⟩ := p
  dsimp only at asked h ⊢
  obtain ⟨session', target', opened', targeted', rfl⟩ := readData_ok asked h
  cases opened.symm.trans opened'
  cases targeted.symm.trans targeted'
  have preparing : weigh (Event.amount m) (openTarget t c nth r).entries = 0 :=
    weigh_eq_zero fun e he => by rcases mem_entries_openTarget he with rfl | rfl <;> rfl
  rw [readData, asked, if_neg Bool.false_ne_true, Event.total_eq_weigh]
  simp only [bind, pure, Trail.bind, Trail.pure, Trail.note, Trail.notes, Trail.lift, Run.ofExcept,
    Except.mapError, opened, targeted, weigh_append, weigh_cons, preparing, List.append_nil,
    List.nil_append, Nat.zero_add, weigh_nil, Event.amount]
  rfl

/-- Also where something breaks off, all that the phase counts are fetches and flushes. -/
theorem total_of_ne (p : DataPhase t c) {m : Metric} (fetches : ∀ ok, m ≠ .fetches .blocks ok)
    (flushes : ∀ ok, m ≠ .flushes ok) : Event.total m p.events = 0 := by
  have silent : ∀ a ∈ p.actions, a.2.amount m = 0 := fun a ha => by
    rw [actions, work_eq] at ha
    obtain ⟨_, _, _, h⟩ := mem_workers ha
    exact DataWork.amount_slice fetches h
  have ran (target : Option (Disk × FlushTarget)) : weigh (Event.amount m)
      (DataState.run target (.ofCapacity t.queueCapacity) p.actions).log = 0 :=
    DataState.weigh_run_of_ne flushes silent _
  rw [Event.total_eq_weigh, events, DataState.events, weigh_perm (List.reverse_perm _)]
  unfold dataOutcome
  cases p.target with
  | none => exact ran none
  | some d => exact (DataState.weigh_finish_of_ne flushes _ d.1 _).trans (ran (some d))

end DataPhase

namespace IndexPhase

def turn (p : IndexPhase t c) : Request × Nat := (p.request, p.nth)

def events (p : IndexPhase t c) : List Event := (IndexState.run p.actions).events

theorem of?_eq_some {p : IndexPhase t c} {x : Request × Nat} : of? t c x = some p ↔ p.turn = x := by
  obtain ⟨r, nth, session, kept, opened⟩ := p
  unfold of? turn
  constructor
  · intro h
    split at h
    · split at h
      · cases h
        rfl
      · cases h
    · cases h
  · intro h
    cases h
    rw [dif_pos kept]
    split
    · rename_i session' opened'
      cases opened.symm.trans opened'
      rfl
    · rename_i e failed
      cases opened.symm.trans failed

theorem exists_of_ok {f : RecoveredIndex} (kept : r.policy.indexed = true)
    (asked : r.index.ranges.isEmpty = false) (h : (readIndex t c nth r).outcome = .ok f) :
    ∃ p : IndexPhase t c, p.turn = (r, nth) := by
  obtain ⟨session, opened, _⟩ := readIndex_ok asked h
  exact ⟨⟨r, nth, session, kept, opened⟩, rfl⟩

theorem weigh_entries (p : IndexPhase t c) {f : RecoveredIndex}
    (asked : p.request.index.ranges.isEmpty = false)
    (h : (readIndex t c p.nth p.request).outcome = .ok f) (m : Metric) :
    weigh (Event.amount m) (readIndex t c p.nth p.request).entries = Event.total m p.events +
      weigh (Event.amount m) (phaseDone .peers .index f.missing) := by
  obtain ⟨r, nth, session, kept, opened⟩ := p
  dsimp only at asked h ⊢
  obtain ⟨session', opened', rfl⟩ := readIndex_ok asked h
  cases opened.symm.trans opened'
  rw [readIndex, asked, if_neg Bool.false_ne_true, Event.total_eq_weigh]
  simp only [bind, pure, Trail.bind, Trail.pure, Trail.note, Trail.notes, Trail.lift, Run.ofExcept,
    Except.mapError, opened, weigh_append, weigh_cons, List.append_nil, List.nil_append,
    Nat.zero_add, weigh_nil, Event.amount]
  rfl

theorem total_of_ne (p : IndexPhase t c) {m : Metric} (fetches : ∀ ok, m ≠ .fetches .metadata ok) :
    Event.total m p.events = 0 := by
  rw [events, total_events]
  refine weigh_eq_zero fun a ha => ?_
  rw [actions, work_eq] at ha
  obtain ⟨_, _, _, h⟩ := mem_workers ha
  exact IndexWork.amount_slice fetches h

end IndexPhase

/-- The requests that something is asked of, each with the number of sessions opened before. -/
def turns (asks : Request → Coverage) (nth : Nat) (requests : List Request) :
    List (Request × Nat) :=
  (requests.filter fun r => !(asks r).isEmpty).zipIdx nth

def dataTurns (requests : List Request) : List (Request × Nat) := turns (·.data.ranges) 0 requests

/-- The index comes after all data. -/
def indexTurns (requests : List Request) : List (Request × Nat) :=
  turns (·.index.ranges) (dataTurns requests).length (requests.filter (·.policy.indexed))

def dataPhases (t : Tuning) (c : Cluster) (requests : List Request) : List (DataPhase t c) :=
  (dataTurns requests).filterMap (DataPhase.of? t c)

def indexPhases (t : Tuning) (c : Cluster) (requests : List Request) : List (IndexPhase t c) :=
  (indexTurns requests).filterMap (IndexPhase.of? t c)

section Turns

variable {α : Type} {asks : Request → Coverage} {work : Nat → Request → Run α}
  {put : Recoveries → Request → α → Recoveries} {l : List Request} {p p' : Progress}

theorem mem_turns_iff {n : Nat} {x : Request × Nat} (h : x ∈ turns asks n l) :
    x.1 ∈ l ∧ (asks x.1).isEmpty = false := by
  have here := List.mem_filter.mp (List.fst_mem_of_mem_zipIdx h)
  exact ⟨here.1, by simpa using here.2⟩

theorem turns_cons (asks : Request → Coverage) (n : Nat) (r : Request) (l : List Request) :
    turns asks n (r :: l) =
      if (asks r).isEmpty then turns asks n l else (r, n) :: turns asks (n + 1) l := by
  cases h : (asks r).isEmpty <;> simp [turns, h]

/-- The turn comes to a request. A session is opened only if something is asked. -/
def turnTo (asks : Request → Coverage) (work : Nat → Request → Run α)
    (put : Recoveries → Request → α → Recoveries) (p : Progress) (r : Request) : Run Progress := do
  let a ← work p.1 r
  return (if (asks r).isEmpty then p.1 else p.1 + 1, put p.2 r a)

/-- A pass over the requests is their turns, one after the other. -/
theorem foldEach_turns (h : (Trail.foldEach (turnTo asks work put) p l).outcome = .ok p')
    (idle : ∀ n r, (asks r).isEmpty = true → (work n r).entries = []) :
    p'.1 = p.1 + (turns asks p.1 l).length ∧
      (Trail.foldEach (turnTo asks work put) p l).entries =
        (turns asks p.1 l).flatMap (fun x => (work x.2 x.1).entries) ∧
      ∀ x ∈ turns asks p.1 l, ∃ a, (work x.2 x.1).outcome = .ok a := by
  induction l generalizing p with
  | nil =>
    cases h
    exact ⟨rfl, rfl, fun _ hx => (List.not_mem_nil hx).elim⟩
  | cons r l ih =>
    obtain ⟨m, step, rest⟩ := Trail.outcome_bind_eq_ok.mp h
    obtain ⟨a, here, next⟩ := Trail.outcome_bind_eq_ok.mp step
    cases next
    obtain ⟨number, entries, ends⟩ := ih rest
    have silent : (turnTo asks work put p r).entries = (work p.1 r).entries :=
      Trail.entries_bind_silent _ fun _ => rfl
    rw [Trail.foldEach, Trail.entries_bind step, entries, silent, turns_cons]
    cases none : (asks r).isEmpty with
    | true =>
      simp only [none, ↓reduceIte] at number ends ⊢
      exact ⟨number, by rw [idle p.1 r none, List.nil_append], ends⟩
    | false =>
      simp only [none, Bool.false_eq_true, ↓reduceIte] at number ends ⊢
      refine ⟨number.trans ?_, rfl, fun x hx => ?_⟩
      · rw [List.length_cons]
        lia
      · rcases List.mem_cons.mp hx with rfl | hx
        · exact ⟨a, here⟩
        · exact ends x hx

end Turns

section Read

variable {requests : List Request} {found : Recoveries}

theorem entries_readData_idle (none : r.data.ranges.isEmpty = true) :
    (readData t c nth r).entries = [] := by
  rw [readData, if_pos none]
  rfl

theorem entries_readIndex_idle (none : r.index.ranges.isEmpty = true) :
    (readIndex t c nth r).entries = [] := by
  rw [readIndex, if_pos none]
  rfl

theorem readDataOf_eq : readDataOf t c = turnTo (·.data.ranges) (readData t c)
    fun found r data => found.insert r.id { r.recovery with data } := rfl

theorem readIndexOf_eq : readIndexOf t c = turnTo (·.index.ranges) (readIndex t c)
    fun found r index => found.modify r.id ({ · with index }) := rfl

/-- What is counted is counted when it is somebody's turn, and every turn comes to its end. -/
theorem weigh_read (h : (read t c requests).outcome = .ok found) :
    (∀ m, Event.total m (read t c requests).entries =
      weigh (fun x => weigh (Event.amount m) (readData t c x.2 x.1).entries) (dataTurns requests) +
        weigh (fun x => weigh (Event.amount m) (readIndex t c x.2 x.1).entries)
          (indexTurns requests)) ∧
      (∀ x ∈ dataTurns requests, ∃ data, (readData t c x.2 x.1).outcome = .ok data) ∧
        ∀ x ∈ indexTurns requests, ∃ f, (readIndex t c x.2 x.1).outcome = .ok f := by
  unfold read at h ⊢
  rw [readDataOf_eq, readIndexOf_eq] at h ⊢
  obtain ⟨p, data, h⟩ := Trail.outcome_bind_eq_ok.mp h
  obtain ⟨p', index, _⟩ := Trail.outcome_bind_eq_ok.mp h
  obtain ⟨number, entries, ends⟩ := foldEach_turns data fun _ _ none => entries_readData_idle none
  obtain ⟨_, entries', ends'⟩ :=
    foldEach_turns index fun _ _ none => entries_readIndex_idle none
  rw [number, Nat.zero_add] at entries' ends'
  refine ⟨fun m => ?_, ends, ends'⟩
  rw [Event.total_eq_weigh]
  apply (Trail.weigh_bind data).trans
  apply (congrArg _ (Trail.weigh_bind index)).trans
  rw [entries, entries', weigh_flatMap, weigh_flatMap]
  rfl

theorem map_filterMap_turn {α β : Type} {f : β → Option α} {g : α → β} {l : List β}
    (h : ∀ x ∈ l, ∃ a, f x = some a ∧ g a = x) : (l.filterMap f).map g = l := by
  induction l with
  | nil => rfl
  | cons x l ih =>
    obtain ⟨a, here, same⟩ := h x List.mem_cons_self
    rw [List.filterMap_cons_some here, List.map_cons, same,
      ih fun y hy => h y (List.mem_cons_of_mem _ hy)]

/-- Every turn begins a phase. -/
theorem map_turn_dataPhases (h : (read t c requests).outcome = .ok found) :
    (dataPhases t c requests).map DataPhase.turn = dataTurns requests := by
  refine map_filterMap_turn fun x hx => ?_
  obtain ⟨data, ends⟩ := (weigh_read h).2.1 x hx
  obtain ⟨p, same⟩ := DataPhase.exists_of_ok (mem_turns_iff hx).2 ends
  exact ⟨p, DataPhase.of?_eq_some.mpr same, same⟩

theorem map_turn_indexPhases (h : (read t c requests).outcome = .ok found) :
    (indexPhases t c requests).map IndexPhase.turn = indexTurns requests := by
  refine map_filterMap_turn fun x hx => ?_
  obtain ⟨f, ends⟩ := (weigh_read h).2.2 x hx
  obtain ⟨here, asked⟩ := mem_turns_iff hx
  obtain ⟨p, same⟩ := IndexPhase.exists_of_ok (List.mem_filter.mp here).2 asked ends
  exact ⟨p, IndexPhase.of?_eq_some.mpr same, same⟩

/-- Counters that do not tell of the end of a phase. -/
theorem total_read (h : (read t c requests).outcome = .ok found) {m : Metric}
    (reads : ∀ phase, m ≠ .reads .peers phase) (missing : ∀ phase, m ≠ .missing .peers phase) :
    Event.total m (read t c requests).entries =
      weigh (fun p => Event.total m p.events) (dataPhases t c requests) +
        weigh (fun p => Event.total m p.events) (indexPhases t c requests) := by
  obtain ⟨entries, ends, ends'⟩ := weigh_read h
  have data := map_turn_dataPhases h
  have index := map_turn_indexPhases h
  rw [entries, ← data, ← index, weigh_map, weigh_map]
  refine congr (congrArg _ (weigh_congr fun p hp => ?_)) (weigh_congr fun p hp => ?_)
  · have turn : p.turn ∈ dataTurns requests := data ▸ List.mem_map_of_mem hp
    obtain ⟨d, done⟩ := ends p.turn turn
    have asked : p.request.data.ranges.isEmpty = false := (mem_turns_iff turn).2
    apply (p.weigh_entries asked done m).trans
    rw [weigh_phaseDone_of_ne (reads .data) (missing .data), Nat.add_zero]
  · have turn : p.turn ∈ indexTurns requests := index ▸ List.mem_map_of_mem hp
    obtain ⟨f, done⟩ := ends' p.turn turn
    have asked : p.request.index.ranges.isEmpty = false := (mem_turns_iff turn).2
    apply (p.weigh_entries asked done m).trans
    rw [weigh_phaseDone_of_ne (reads .index) (missing .index), Nat.add_zero]

/-- Whoever has no turn has nothing to walk. -/
theorem weigh_walks (asks : Request → Coverage) (size : Request → Duration) (n : Nat)
    (l : List Request) : weigh (fun x => ((asks x.1).walk (size x.1)).length) (turns asks n l) =
      weigh (fun r => ((asks r).walk (size r)).length) l := by
  rw [← weigh_map (w := fun r => ((asks r).walk (size r)).length) Prod.fst, turns,
    List.zipIdx_map_fst, weigh_filter]
  refine weigh_congr fun r _ => ?_
  cases none : (asks r).isEmpty with
  | true =>
    rw [Coverage.walk_of_isEmpty none]
    rfl
  | false => rfl

end Read

section Missing

variable {requests l : List Request} {p p' : Progress} {found : Recoveries}

theorem weigh_readData_of_ne {m : Metric} (fetches : ∀ ok, m ≠ .fetches .blocks ok)
    (flushes : ∀ ok, m ≠ .flushes ok) {data : RecoveredData}
    (h : (readData t c nth r).outcome = .ok data) :
    weigh (Event.amount m) (readData t c nth r).entries =
      if r.data.ranges.isEmpty then 0
      else weigh (Event.amount m) (phaseDone .peers .data data.missing) := by
  cases asked : r.data.ranges.isEmpty with
  | true =>
    rw [entries_readData_idle asked]
    rfl
  | false =>
    obtain ⟨p, same⟩ := DataPhase.exists_of_ok asked h
    cases same
    rw [p.weigh_entries asked h, p.total_of_ne fetches flushes, Nat.zero_add]
    rfl

theorem weigh_readIndex_of_ne {m : Metric} (fetches : ∀ ok, m ≠ .fetches .metadata ok)
    (kept : r.policy.indexed = true) {f : RecoveredIndex}
    (h : (readIndex t c nth r).outcome = .ok f) :
    weigh (Event.amount m) (readIndex t c nth r).entries =
      if r.index.ranges.isEmpty then 0
      else weigh (Event.amount m) (phaseDone .peers .index f.missing) := by
  cases asked : r.index.ranges.isEmpty with
  | true =>
    rw [entries_readIndex_idle asked]
    rfl
  | false =>
    obtain ⟨p, same⟩ := IndexPhase.exists_of_ok kept asked h
    cases same
    rw [p.weigh_entries asked h, p.total_of_ne fetches, Nat.zero_add]
    rfl

/-- What one turn of the data counts as missing, of either phase. -/
theorem weigh_readDataOf {m m' : Progress} (step : (readDataOf t c m r).outcome = .ok m')
    (phase : Phase) : ∃ data, m'.2 = m.2.insert r.id { r.recovery with data } ∧
      weigh (Event.amount (.missing .peers phase)) (readDataOf t c m r).entries =
        if r.data.ranges.isEmpty then 0
        else weigh (Event.amount (.missing .peers phase)) (phaseDone .peers .data data.missing) := by
  obtain ⟨data, read, last⟩ := Trail.outcome_bind_eq_ok.mp step
  cases last
  have entries : (readDataOf t c m r).entries = (readData t c m.1 r).entries :=
    Trail.entries_bind_silent _ fun _ => rfl
  refine ⟨data, rfl, ?_⟩
  rw [entries]
  exact weigh_readData_of_ne (m := .missing .peers phase) nofun nofun read

theorem weigh_readIndexOf {m m' : Progress} (step : (readIndexOf t c m r).outcome = .ok m')
    (kept : r.policy.indexed = true) (phase : Phase) :
    ∃ index, m'.2 = m.2.modify r.id ({ · with index }) ∧
      weigh (Event.amount (.missing .peers phase)) (readIndexOf t c m r).entries =
        if r.index.ranges.isEmpty then 0
        else weigh (Event.amount (.missing .peers phase)) (phaseDone .peers .index index.missing) := by
  obtain ⟨index, read, last⟩ := Trail.outcome_bind_eq_ok.mp step
  cases last
  have entries : (readIndexOf t c m r).entries = (readIndex t c m.1 r).entries :=
    Trail.entries_bind_silent _ fun _ => rfl
  refine ⟨index, rfl, ?_⟩
  rw [entries]
  exact weigh_readIndex_of_ne (m := .missing .peers phase) nofun kept read

/-- Of every namespace, what is then held as missing of its data is counted. -/
theorem weigh_missing_data (apart : l.Pairwise (·.id ≠ ·.id))
    (fresh : ∀ r ∈ l, p.2.get? r.id = none)
    (h : (Trail.foldEach (readDataOf t c) p l).outcome = .ok p') :
    weigh (Event.amount (.missing .peers .data)) (Trail.foldEach (readDataOf t c) p l).entries =
      weigh (fun r => if r.data.ranges.isEmpty then 0
        else ((p'.2.get? r.id).map (·.data)).elim 0 (·.missing.size)) l := by
  refine (Trail.weigh_keyed Request.id (fun (p : Progress) id => (p.2.get? id).map (·.data))
    (g := fun r data => if r.data.ranges.isEmpty then 0 else data.elim 0 (·.missing.size))
    (fun r hr m m' same step => ?_) apart h).1
  obtain ⟨data, held, weighs⟩ := weigh_readDataOf step .data
  have none : m.2.get? r.id = none := by
    rw [fresh r hr] at same
    exact Option.map_eq_none_iff.mp same
  rw [held, weighs, weigh_phaseDone]
  refine ⟨?_, fun id other => ?_⟩
  · simp [none]
  · rw [Recoveries.get?_insert, if_neg (Ne.symm other)]

theorem weigh_missing_index (apart : l.Pairwise (·.id ≠ ·.id))
    (held : ∀ r ∈ l, (p.2.get? r.id).isSome = true) (kept : ∀ r ∈ l, r.policy.indexed = true)
    (h : (Trail.foldEach (readIndexOf t c) p l).outcome = .ok p') :
    weigh (Event.amount (.missing .peers .index)) (Trail.foldEach (readIndexOf t c) p l).entries =
      weigh (fun r => if r.index.ranges.isEmpty then 0
        else (p'.2.get? r.id).elim 0 (·.index.missing.size)) l := by
  refine (Trail.weigh_keyed Request.id (fun (p : Progress) id => p.2.get? id)
    (g := fun r f => if r.index.ranges.isEmpty then 0 else f.elim 0 (·.index.missing.size))
    (fun r hr m m' same step => ?_) apart h).1
  obtain ⟨index, now, weighs⟩ := weigh_readIndexOf step (kept r hr) .index
  obtain ⟨f, there⟩ := Option.isSome_iff_exists.mp (held r hr)
  rw [now, weighs, weigh_phaseDone]
  refine ⟨?_, fun id other => ?_⟩
  · simp [same, there]
  · rw [Recoveries.get?_modify, if_neg (Ne.symm other)]

/-- The index comes to the data that is held already. -/
theorem data_of_readIndexOf (h : (Trail.foldEach (readIndexOf t c) p l).outcome = .ok p')
    (id : NamespaceId) : (p'.2.get? id).map (·.data) = (p.2.get? id).map (·.data) := by
  rw [Trail.outcome_foldEach] at h
  refine foldlM_keeps (P := fun m : Progress => (m.2.get? id).map (·.data) =
    (p.2.get? id).map (·.data)) (fun r _ m m' before step => ?_) rfl h
  obtain ⟨_, index, _, eq⟩ := readIndexOf_ok step
  rw [eq, Recoveries.get?_modify]
  split
  · rename_i here
    rw [Option.map_map, ← before, here]
    rfl
  · exact before

theorem total_missing (distinct : (requests.map (·.id)).Nodup)
    (h : (read t c requests).outcome = .ok found) (phase : Phase) :
    Event.total (.missing .peers phase) (read t c requests).entries =
      found.missingOf phase requests := by
  have parts (r : Request) (hr : r ∈ requests) := read_parts distinct h hr
  have apart : requests.Pairwise (·.id ≠ ·.id) := List.pairwise_map.mp distinct
  obtain ⟨p, data, h⟩ := Trail.outcome_bind_eq_ok.mp h
  obtain ⟨p', index, last⟩ := Trail.outcome_bind_eq_ok.mp h
  cases last
  have same (id : NamespaceId) := data_of_readIndexOf index id
  rw [Event.total_eq_weigh, Recoveries.missingOf, weigh_filter]
  apply (Trail.weigh_bind data).trans
  apply (congrArg _ (Trail.weigh_bind index)).trans
  cases phase with
  | data =>
    -- the index says nothing of the data
    have silent : weigh (Event.amount (.missing .peers .data))
        (Trail.foldEach (readIndexOf t c) p (requests.filter (·.policy.indexed))).entries = 0 := by
      refine (Trail.weigh_foldEach (g := fun _ => 0) (fun r hr m m' step => ?_) index).trans
        (weigh_eq_zero fun _ _ => rfl)
      obtain ⟨index, _, weighs⟩ := weigh_readIndexOf step (List.mem_filter.mp hr).2 .data
      rw [weighs, weigh_phaseDone_apart (by decide : Phase.index ≠ .data), ite_self]
    rw [weigh_missing_data apart (fun _ _ => rfl) data, silent]
    refine weigh_congr fun r hr => ?_
    obtain ⟨f, there, _⟩ := parts r hr
    rw [← same, there]
    cases none : r.data.ranges.isEmpty <;> simp [Request.ask, none, Recovery.missing]
  | index =>
    have silent : weigh (Event.amount (.missing .peers .index))
        (Trail.foldEach (readDataOf t c) (0, .empty) requests).entries = 0 := by
      refine (Trail.weigh_foldEach (g := fun _ => 0) (fun r hr m m' step => ?_) data).trans
        (weigh_eq_zero fun _ _ => rfl)
      obtain ⟨data, _, weighs⟩ := weigh_readDataOf step .index
      rw [weighs, weigh_phaseDone_apart (by decide : Phase.data ≠ .index), ite_self]
    have held (r : Request) (hr : r ∈ requests) : (p.2.get? r.id).isSome = true := by
      obtain ⟨f, there, _⟩ := parts r hr
      have here := same r.id
      rw [there] at here
      cases absent : p.2.get? r.id with
      | some g => rfl
      | none =>
        rw [absent] at here
        cases here
    rw [silent, Nat.zero_add, weigh_missing_index (Request.distinct_filter distinct _)
      (fun r hr => held r (List.mem_filter.mp hr).1) (fun r hr => (List.mem_filter.mp hr).2) index,
      weigh_filter]
    refine weigh_congr fun r hr => ?_
    obtain ⟨f, there, part⟩ := parts r hr
    rw [there]
    cases kept : r.policy.indexed with
    | true => cases none : r.index.ranges.isEmpty <;> simp [Request.ask, none, Recovery.missing]
    | false =>
      have none : f.index.missing.size = 0 := by rw [part.unindexed kept]; rfl
      simp [Recovery.missing, none]

end Missing

variable {requests : List Request} {found : Recoveries}

/-- Neither a worker breaks off nor a write of what the workers hand on. -/
structure Unbroken (t : Tuning) (c : Cluster) (requests : List Request) : Prop where
  data : ∀ p ∈ dataPhases t c requests, p.Unbroken p.actions
  index : ∀ p ∈ indexPhases t c requests, p.Unbroken

theorem DataPhase.unbroken_of_unfaulted {p : DataPhase t c}
    (h : Unfaulted t c p.nth p.request) : p.Unbroken p.actions := by
  obtain ⟨r, nth, session, target, opened, targeted⟩ := p
  refine ⟨h.data session target opened targeted, ?_⟩
  cases target with
  | none => exact fun _ hturn => (List.not_mem_nil hturn).elim
  | some d =>
    intro turn hturn x
    obtain ⟨there, n, wrote⟩ := Flush.mem_writes hturn
    obtain ⟨a, ha, flushes⟩ := List.mem_filterMap.mp there
    rw [wrote]
    exact h.flushes session d.1 d.2 opened targeted a ha turn.1 flushes n x

/-- On sane times nothing breaks off but what breaks off by itself. -/
theorem unbroken_of_sane (sane : ∀ r ∈ requests, r.Sane) (calm : c.Calm)
    (loads : ∀ r ∈ requests, ∀ a, r.accumulator = some a → a.Calm) : Unbroken t c requests := by
  have whole (r : Request) (hr : r ∈ requests) (nth : Nat) : Unfaulted t c nth r :=
    unfaulted (sane r hr) calm (loads r hr) nth
  refine ⟨fun p hp => ?_, fun p hp => ?_⟩
  · obtain ⟨x, hx, here⟩ := List.mem_filterMap.mp hp
    cases DataPhase.of?_eq_some.mp here
    exact DataPhase.unbroken_of_unfaulted (whole p.request (mem_turns_iff hx).1 p.nth)
  · obtain ⟨x, hx, here⟩ := List.mem_filterMap.mp hp
    cases IndexPhase.of?_eq_some.mp here
    have there : p.request ∈ requests := (List.mem_filter.mp (mem_turns_iff hx).1).1
    exact (whole p.request there p.nth).index p.kept p.session p.opened

/-- The counters of a read from peers, and what it did. -/
structure Reconciled (t : Tuning) (c : Cluster) (requests : List Request) (found : Recoveries)
    (events : List Event) : Prop where
  /-- Everybody had a turn who asked for something. -/
  data : (dataPhases t c requests).map DataPhase.turn = dataTurns requests
  index : (indexPhases t c requests).map IndexPhase.turn = indexTurns requests
  blocks : Event.total (.fetches .blocks true) events + Event.total (.fetches .blocks false) events =
    weigh (fun r => (r.data.ranges.walk r.policy.blockSize).length) requests
  metadata : Event.total (.fetches .metadata true) events +
    Event.total (.fetches .metadata false) events =
      weigh (fun r => (r.indexRanges.walk r.policy.indexBlockSize).length) requests
  flushes : Event.total (.flushes true) events + Event.total (.flushes false) events =
    weigh (·.persisted) (dataPhases t c requests)
  failed : Event.total (.flushes false) events =
    weigh (fun p => p.failed p.actions) (dataPhases t c requests)
  missing : ∀ phase, Event.total (.missing .peers phase) events = found.missingOf phase requests
  /-- The log has no part in it. -/
  entries : ∀ fate, Event.total (.logEntries fate) events = 0
  elsewhere : ∀ phase, Event.total (.missing .commitLog phase) events = 0

theorem read_reconciled (valid : t.validate = .ok ()) (distinct : (requests.map (·.id)).Nodup)
    (h : (read t c requests).outcome = .ok found) (unbroken : Unbroken t c requests) :
    Reconciled t c requests found (read t c requests).entries := by
  have begun := map_turn_dataPhases h
  have begun' := map_turn_indexPhases h
  have counted (p : DataPhase t c) (hp : p ∈ dataPhases t c requests) :
      p.Counted p.actions p.events := by
    refine DataPhase.counted valid ?_ (unbroken.data p hp)
    rw [DataPhase.actions, List.flatMap_def]
    exact Interleaves.flatten _
  have counted' (p : IndexPhase t c) (hp : p ∈ indexPhases t c requests) : p.Counted p.events := by
    refine IndexPhase.counted ?_ (unbroken.index p hp)
    rw [IndexPhase.actions, List.flatMap_def]
    exact Interleaves.flatten _
  have data {m : Metric} (reads : ∀ phase, m ≠ .reads .peers phase)
      (missing : ∀ phase, m ≠ .missing .peers phase) (other : ∀ ok, m ≠ .fetches .metadata ok) :
      Event.total m (read t c requests).entries =
        weigh (fun p => Event.total m p.events) (dataPhases t c requests) := by
    rw [total_read h reads missing,
      weigh_eq_zero fun (p : IndexPhase t c) _ => p.total_of_ne other, Nat.add_zero]
  have index {m : Metric} (reads : ∀ phase, m ≠ .reads .peers phase)
      (missing : ∀ phase, m ≠ .missing .peers phase) (blocks : ∀ ok, m ≠ .fetches .blocks ok)
      (flushes : ∀ ok, m ≠ .flushes ok) : Event.total m (read t c requests).entries =
        weigh (fun p => Event.total m p.events) (indexPhases t c requests) := by
    rw [total_read h reads missing,
      weigh_eq_zero fun (p : DataPhase t c) _ => p.total_of_ne blocks flushes, Nat.zero_add]
  have silent {m : Metric} (reads : ∀ phase, m ≠ .reads .peers phase)
      (missing : ∀ phase, m ≠ .missing .peers phase) (blocks : ∀ ok, m ≠ .fetches .blocks ok)
      (flushes : ∀ ok, m ≠ .flushes ok) (metadata : ∀ ok, m ≠ .fetches .metadata ok) :
      Event.total m (read t c requests).entries = 0 := by
    rw [index reads missing blocks flushes, weigh_eq_zero fun p _ => p.total_of_ne metadata]
  have blocks (ok : Bool) := data (m := .fetches .blocks ok) (by simp) (by simp) (by simp)
  have flushes (ok : Bool) := data (m := .flushes ok) (by simp) (by simp) (by simp)
  have metadata (ok : Bool) :=
    index (m := .fetches .metadata ok) (by simp) (by simp) (by simp) (by simp)
  refine ⟨begun, begun', ?_, ?_, ?_, ?_, total_missing distinct h, fun fate => ?_, fun phase => ?_⟩
  · rw [blocks, blocks, ← weigh_add, weigh_congr fun p hp => (counted p hp).fetches]
    refine Eq.trans ?_ (weigh_walks (·.data.ranges) (·.policy.blockSize) 0 requests)
    rw [← dataTurns, ← begun, weigh_map]
    rfl
  · rw [metadata, metadata, ← weigh_add, weigh_congr fun p hp => (counted' p hp).fetches]
    have turns : weigh (fun p => p.walk.length) (indexPhases t c requests) =
        weigh (fun r => (r.index.ranges.walk r.policy.indexBlockSize).length)
          (requests.filter (·.policy.indexed)) := by
      refine Eq.trans ?_ (weigh_walks (·.index.ranges) (·.policy.indexBlockSize)
        (dataTurns requests).length (requests.filter (·.policy.indexed)))
      rw [← indexTurns, ← begun', weigh_map]
      rfl
    rw [turns, weigh_filter]
    refine weigh_congr fun r _ => ?_
    unfold Request.indexRanges
    split
    · rfl
    · rfl
  · rw [flushes, flushes, ← weigh_add]
    exact weigh_congr fun p hp => (counted p hp).flushes
  · rw [flushes]
    exact weigh_congr fun p hp => (counted p hp).failed
  · exact silent (by simp) (by simp) (by simp) (by simp) (by simp)
  · exact silent (by simp) (by simp) (by simp) (by simp) (by simp)

end Peers

/-- The counters tell what a read did. Of a read from peers this is for the workers one after the
other; how they take turns makes no difference to what is fetched and flushed, and which flushes
fail is then told of the order in which they came. -/
theorem reads_reconcile {requests : List Request} (distinct : (requests.map (·.id)).Nodup) :
    (∀ o found, (CommitLog.read o requests).outcome = .ok found →
      CommitLog.Reconciled o requests found (CommitLog.read o requests).entries) ∧
    ∀ t c, t.validate = .ok () →
      (∀ found, (Peers.read t c requests).outcome = .ok found → Peers.Unbroken t c requests →
        Peers.Reconciled t c requests found (Peers.read t c requests).entries) ∧
      (∀ (p : Peers.DataPhase t c) l, Interleaves (p.work.map Peers.ShardWork.actions) l →
        p.Unbroken l → p.Counted l (Peers.dataOutcome t p.target p.request l).events) ∧
      ∀ (p : Peers.IndexPhase t c) l, Interleaves (p.work.map Peers.ShardWork.actions) l →
        p.Unbroken → p.Counted (Peers.IndexState.run l).events :=
  ⟨fun _ _ h => CommitLog.read_reconciled distinct h, fun _ _ valid =>
    ⟨fun _ h unbroken => Peers.read_reconciled valid distinct h unbroken,
      fun _ _ turns unbroken => Peers.DataPhase.counted valid turns unbroken,
      fun _ _ turns unbroken => Peers.IndexPhase.counted turns unbroken⟩⟩

/-- The log has one write that is asked for, one that is not, and cannot be read further. Of the two
windows that are fetched one is refused by the disk. -/
theorem reads_reconcile_refused :
    let policy : Policy :=
      ⟨{ blockSize := 10, indexed := true, indexBlockSize := 20 }, by decide, by decide⟩
    let options : RunOptions := ⟨⟨true, .flush⟩, .ofOrigin [] 0⟩
    let ranges := (Coverage.empty.add 0 ⟨0, 3⟩).add 0 ⟨12, 14⟩
    let requests : List Request :=
      [⟨[7], policy, [0], none, ⟨ranges, options⟩, ⟨ranges, options⟩⟩]
    let write (t : Instant) : LogEntry := ⟨[7], 0, [1], .empty, ⟨t, ⟨0, .second, none⟩⟩⟩
    let log : CommitLog.Options := ⟨⟨.ok [.ok (write 1), .ok (write 5), .error (.persist "torn")],
      fun _ _ => .ok [], fun _ => .error (.persist "gone")⟩, false⟩
    let tuning : Peers.Tuning := ⟨1, 1, 1, 1, .majority, .lru⟩
    let cluster : Peers.Cluster :=
      ⟨fun _ => .ok Peers.plain, some fun _ => .ok (Peers.refusing 0), some fun _ => .ok ()⟩
    let replayed := CommitLog.read log requests
    let fetched := Peers.read tuning cluster requests
    (requests.map (·.id)).Nodup ∧ tuning.validate = .ok () ∧
      Peers.Unbroken tuning cluster requests ∧
      (∃ found, replayed.outcome = .ok found ∧
        CommitLog.Reconciled log requests found replayed.entries) ∧
      (∃ found, fetched.outcome = .ok found ∧
        Peers.Reconciled tuning cluster requests found fetched.entries) ∧
      Event.total (.logEntries .read) replayed.entries = 1 ∧
      Event.total (.logEntries .outOfRange) replayed.entries = 1 ∧
      Event.total (.flushes true) fetched.entries = 1 ∧
      Event.total (.flushes false) fetched.entries = 1 ∧
      Event.total (.missing .peers .data) fetched.entries = 1 := by
  intro policy options ranges requests write log tuning cluster replayed fetched
  have words : ranges.FitsWords := Coverage.fitsWords_of_entries (by decide)
  have sane : ∀ r ∈ requests, r.Sane := by
    intro r hr
    cases List.mem_singleton.mp hr
    exact ⟨by decide, fun _ => by decide, words, words⟩
  have calm : cluster.Calm := by
    refine ⟨fun nth session opened => ?_, fun nth session opened => ?_, fun nth disk given => ?_⟩
    · cases opened
      exact fun _ _ => nofun
    · cases opened
      exact ⟨fun _ _ => nofun, fun _ _ l answered => by cases answered; exact fun _ => nofun⟩
    · cases given
      exact Peers.refusing_calm 0
  have unbroken : Peers.Unbroken tuning cluster requests :=
    Peers.unbroken_of_sane sane calm fun r hr a given => by
      cases List.mem_singleton.mp hr
      cases given
  have listed : log.files.Sane requests := fun _ _ _ infos listing => by
    cases listing
    exact fun _ => nofun
  have distinct : (requests.map (·.id)).Nodup := by decide
  have valid : tuning.validate = .ok () := by decide
  obtain ⟨logs, peers⟩ := reads_reconcile distinct
  obtain ⟨found, ends⟩ := CommitLog.read_ends log sane listed
  have fetches : fetched.outcome.isOk = true := by decide +kernel
  refine ⟨distinct, valid, unbroken, ⟨found, ends, logs log found ends⟩, ?_, by decide +kernel,
    by decide +kernel, by decide +kernel, by decide +kernel, by decide +kernel⟩
  cases h : fetched.outcome with
  | ok found => exact ⟨found, rfl, (peers tuning cluster valid).1 found h unbroken⟩
  | error e =>
    rw [h] at fetches
    cases fetches

end Backfill
