import Backfill.Proofs.Recovery
import Backfill.Proofs.Restoring

/-!
A read of the commit log, namespace by namespace: what is found for each is what its own snapshots
and its own entries of the log come to.
-/

namespace Backfill

theorem Replay.finish_eq_ok {r : Replay} {missAll : Bool} {data : RecoveredData}
    {index : RecoveredIndex} : r.finish missAll = .ok (data, index) ↔
      r.finishData missAll = .ok data ∧ r.finishIndex missAll = .ok index := by
  rw [finish]
  cases r.finishData missAll with
  | error e => simp [bind, Except.bind]
  | ok d => cases r.finishIndex missAll <;> simp [bind, Except.bind, pure, Except.pure]

namespace CommitLog

/-- The entries that come before the first error. -/
def beforeError (items : List (Except Error LogEntry)) : List LogEntry :=
  (items.takeWhile (·.isOk)).filterMap (·.toOption)

theorem readable_fst (items : List (Except Error LogEntry)) :
    (readable items).1 = beforeError items := by
  induction items with
  | nil => rfl
  | cons item items ih =>
    cases item with
    | error e => rfl
    | ok e =>
      rw [readable, ih]
      rfl

/-- `f` is what the replay of a request on its own comes to. -/
def Replayed (files : Files) (entries : List LogEntry) (missAll : Bool) (r : Request)
    (f : Recovery) : Prop :=
  ∃ seeded done data index, restoreAll files r = .ok seeded ∧
    seeded.applyAll (entries.filter (·.namespaceId = r.id)) = .ok done ∧
    done.finish missAll = .ok (data, index) ∧ f = { r.recovery with data, index }

variable {o : Options} {requests : List Request} {replays replays' : Replays}

theorem get?_begin (distinct : (requests.map (·.id)).Nodup) {r : Request} (hr : r ∈ requests) :
    (begin requests).get? r.id = if isIdle r then none else some (.ofRequest r) := by
  obtain ⟨here, others⟩ := foldl_keyed
    (f := fun (m : Replays) (r : Request) => m.insert r.id (.ofRequest r))
    Request.id (fun m id => m.get? id) (fun r _ => some (.ofRequest r))
    (fun r m => ⟨by simp, fun id hid => by simp [Ne.symm hid]⟩)
    (Request.distinct_filter distinct (!isIdle ·)) .empty
  cases idle : isIdle r with
  | false => exact here r (List.mem_filter.mpr ⟨hr, by simp [idle]⟩)
  | true => exact others r.id (Request.apart_filter distinct hr (by simp [idle]))

theorem get?_idle (distinct : (requests.map (·.id)).Nodup) {r : Request} (hr : r ∈ requests) :
    ((requests.filter isIdle).foldl (fun (m : Recoveries) r => m.insert r.id r.recovery) .empty).get?
      r.id = if isIdle r then some r.recovery else none := by
  obtain ⟨here, others⟩ := foldl_keyed
    (f := fun (m : Recoveries) (r : Request) => m.insert r.id r.recovery) Request.id
    (fun m id => m.get? id) (fun r old => some (old.elim r.recovery (·.merge r.recovery)))
    (fun r m => ⟨by simp, fun id hid => by simp [Ne.symm hid]⟩)
    (Request.distinct_filter distinct isIdle) .empty
  cases idle : isIdle r with
  | false => exact others r.id (Request.apart_filter distinct hr idle)
  | true => exact here r (List.mem_filter.mpr ⟨hr, idle⟩)

theorem isIdle_of_live_eq_nil (none : (requests.filter (!isIdle ·)).isEmpty = true) {r : Request}
    (hr : r ∈ requests) : isIdle r = true := by
  by_contra busy
  have hm : r ∈ requests.filter (!isIdle ·) := List.mem_filter.mpr ⟨hr, by simp [busy]⟩
  rw [List.isEmpty_iff.mp none] at hm
  cases hm

theorem restoreRequests_ok (files : Files) (distinct : (requests.map (·.id)).Nodup)
    (h : (Trail.foldEach (restoreRequest files) replays requests).outcome = .ok replays')
    {r : Request} (hr : r ∈ requests) :
    (replays.get? r.id = none → replays'.get? r.id = none) ∧
      (replays.get? r.id = some (.ofRequest r) → ∃ seeded, restoreAll files r = .ok seeded ∧
        replays'.get? r.id = some seeded) := by
  rw [Trail.outcome_foldEach] at h
  refine (foldlM_keyed (fun _ => True) Request.id (fun (m : Replays) id => m.get? id)
    (fun r old new => (old = none → new = none) ∧ (old = some (.ofRequest r) →
      ∃ seeded, restoreAll files r = .ok seeded ∧ new = some seeded))
    (fun r _ m m' _ step => ⟨trivial, ?_⟩) (List.pairwise_map.mp distinct) trivial h).2.1 r hr
  unfold restoreRequest at step
  split at step
  · rename_i replay snapshot hm
    obtain ⟨seeded, hseeded, step⟩ := Trail.outcome_bind_eq_ok.mp step
    cases step
    refine ⟨⟨fun none => ?_, fun fresh => ⟨seeded, ?_, by simp⟩⟩, fun id hid => by simp [Ne.symm hid]⟩
    · rw [hm] at none
      cases none
    · rw [hm] at fresh
      cases fresh
      rw [restoreAll, if_pos snapshot]
      exact hseeded
  · rename_i other
    cases step
    refine ⟨⟨id, fun fresh => ⟨.ofRequest r, ?_, fresh⟩⟩, fun _ _ => rfl⟩
    rw [restoreAll, if_neg fun snapshot => other _ snapshot fresh]

/-- Each replay takes in the entries of its own namespace. -/
theorem applyEntries_ok {entries : List LogEntry}
    (h : (Trail.foldEach applyEntry replays entries).outcome = .ok replays') (id : NamespaceId) :
    (replays.get? id = none → replays'.get? id = none) ∧
      ∀ replay, replays.get? id = some replay → ∃ done,
        replay.applyAll (entries.filter (·.namespaceId = id)) = .ok done ∧
          replays'.get? id = some done := by
  induction entries generalizing replays with
  | nil =>
    cases h
    exact ⟨fun none => none, fun replay held => ⟨replay, rfl, held⟩⟩
  | cons e entries ih =>
    obtain ⟨m, step, h⟩ := Trail.outcome_bind_eq_ok.mp h
    obtain ⟨absent, present⟩ := ih h
    unfold applyEntry at step
    split at step
    · rename_i unknown
      cases step
      refine ⟨absent, fun replay held => ?_⟩
      have other : e.namespaceId ≠ id := by
        rintro rfl
        rw [unknown] at held
        cases held
      rw [List.filter_cons, if_neg (by simp [other])]
      exact present replay held
    · rename_i before known
      obtain ⟨⟨after, fate⟩, applied, step⟩ := Trail.outcome_bind_eq_ok.mp step
      have applied := Run.ofFaulty_eq_ok.mp applied
      cases step
      by_cases here : e.namespaceId = id
      · subst here
        refine ⟨fun none => ?_, fun replay held => ?_⟩
        · rw [known] at none
          cases none
        · rw [known] at held
          cases held
          obtain ⟨done, rest, last⟩ := present after (by simp)
          refine ⟨done, ?_, last⟩
          rw [List.filter_cons, if_pos (by simp), Replay.applyAll, List.foldlM_cons, applied]
          exact rest
      · rw [List.filter_cons, if_neg (by simp [here])]
        refine ⟨fun none => absent ?_, fun replay held => present replay ?_⟩
        · simpa [Ne.symm here] using none
        · simpa [Ne.symm here] using held

/-- A request ends the replay of its namespace, if that has not ended before. -/
theorem finishRequest_ok {missAll : Bool} {s s' : Replays × Recoveries} {r : Request}
    (h : finishRequest missAll s r = .ok s') :
    (s.1.get? r.id = none ∧ s' = s) ∨ ∃ replay data index, s.1.get? r.id = some replay ∧
      replay.finish missAll = .ok (data, index) ∧
        s' = (s.1.erase r.id, s.2.insert r.id { r.recovery with data, index }) := by
  unfold finishRequest at h
  split at h
  · rename_i gone
    cases h
    exact .inl ⟨gone, rfl⟩
  · rename_i replay held
    obtain ⟨⟨data, index⟩, finished, h⟩ := bind_eq_ok.mp h
    cases h
    exact .inr ⟨replay, data, index, held, finished, rfl⟩

/-- Every replay ends in a recovery of its namespace. -/
theorem finishRequests_ok {missAll : Bool} {found found' : Recoveries}
    (distinct : (requests.map (·.id)).Nodup)
    (h : requests.foldlM (finishRequest missAll) (replays, found) = .ok (replays', found'))
    {r : Request} (hr : r ∈ requests) :
    (replays.get? r.id = none → found'.get? r.id = found.get? r.id) ∧
      ∀ replay, replays.get? r.id = some replay → found.get? r.id = none →
        ∃ data index, replay.finish missAll = .ok (data, index) ∧
          found'.get? r.id = some { r.recovery with data, index } := by
  refine (foldlM_keyed (fun _ => True) Request.id
    (fun (s : Replays × Recoveries) id => (s.1.get? id, s.2.get? id))
    (fun r old new => (old.1 = none → new.2 = old.2) ∧ ∀ replay, old.1 = some replay →
      old.2 = none → ∃ data index, replay.finish missAll = .ok (data, index) ∧
        new.2 = some { r.recovery with data, index })
    (fun r _ s s' _ step => ⟨trivial, ?_⟩) (List.pairwise_map.mp distinct) trivial h).2.1 r hr
  rcases finishRequest_ok step with ⟨gone, rfl⟩ | ⟨replay, data, index, held, finished, rfl⟩
  · refine ⟨⟨fun _ => rfl, fun replay held => ?_⟩, fun _ _ => rfl⟩
    dsimp only at held
    rw [gone] at held
    cases held
  · refine ⟨⟨fun none => ?_, fun replay' held' fresh => ?_⟩, fun id hid => ?_⟩
    · dsimp only at none
      rw [held] at none
      cases none
    · dsimp only at held' fresh
      rw [held] at held'
      cases held'
      exact ⟨data, index, finished, by simp [fresh]⟩
    · simp [Ne.symm hid]

/-- Whatever else is read along with it, a request gets what it would have got on its own. -/
theorem read_replayed (distinct : (requests.map (·.id)).Nodup) {items : List (Except Error LogEntry)}
    (opens : o.files.entries = .ok items) {found : Recoveries}
    (h : (read o requests).outcome = .ok found) {r : Request} (hr : r ∈ requests) :
    ∃ f, found.get? r.id = some f ∧ (isIdle r = true → f = r.recovery) ∧
      (isIdle r = false → Replayed o.files (beforeError items)
        ((readable items).2 && o.missAllOnCorruption) r f) := by
  have idle := get?_idle distinct hr
  have live := get?_begin distinct hr
  unfold read at h
  dsimp only at h
  split at h
  · rename_i none
    cases h
    have hi := isIdle_of_live_eq_nil none hr
    rw [hi] at idle
    exact ⟨r.recovery, idle, fun _ => rfl, fun busy => by rw [hi] at busy; cases busy⟩
  · obtain ⟨found', h, last⟩ := Trail.outcome_bind_eq_ok.mp h
    obtain ⟨_, _, last⟩ := Trail.outcome_bind_eq_ok.mp last
    cases last
    unfold readAll at h
    obtain ⟨restored, hrestored, h⟩ := Trail.outcome_bind_eq_ok.mp h
    obtain ⟨_, _, h⟩ := Trail.outcome_bind_eq_ok.mp h
    rw [opens] at h
    dsimp only at h
    rw [readable_fst] at h
    obtain ⟨replayed, hreplayed, h⟩ := Trail.outcome_bind_eq_ok.mp h
    obtain ⟨⟨_, _⟩, hfinished, h⟩ := Trail.outcome_bind_eq_ok.mp h
    cases h
    -- what each of the stages does to `r`, in their order
    obtain ⟨absent, present⟩ := restoreRequests_ok o.files distinct hrestored hr
    obtain ⟨absent', present'⟩ := applyEntries_ok hreplayed r.id
    obtain ⟨absent'', present''⟩ := finishRequests_ok distinct (Run.ofFaulty_eq_ok.mp hfinished) hr
    cases hi : isIdle r with
    | true =>
      rw [hi] at idle live
      rw [absent'' (absent' (absent live)), idle]
      exact ⟨r.recovery, rfl, fun _ => rfl, fun busy => by cases busy⟩
    | false =>
      rw [hi] at idle live
      obtain ⟨seeded, hseeded, held⟩ := present live
      obtain ⟨done, hdone, held⟩ := present' seeded held
      obtain ⟨data, index, finished, last⟩ := present'' done held idle
      refine ⟨_, last, fun idle => ?_, fun _ => ?_⟩
      · cases idle
      · exact ⟨seeded, done, data, index, hseeded, hdone, finished, rfl⟩

/-- Without a log, all that a request asks for is missing. -/
theorem read_unopened (distinct : (requests.map (·.id)).Nodup) {e : Error}
    (closed : o.files.entries = .error e) {found : Recoveries}
    (h : (read o requests).outcome = .ok found) {r : Request} (hr : r ∈ requests) :
    found.get? r.id = some (if isIdle r then r.recovery else unread r) := by
  have idle := get?_idle distinct hr
  have live := get?_begin distinct hr
  unfold read at h
  dsimp only at h
  split at h
  · rename_i none
    cases h
    have hi := isIdle_of_live_eq_nil none hr
    rw [idle, if_pos hi, if_pos hi]
  · obtain ⟨found', h, last⟩ := Trail.outcome_bind_eq_ok.mp h
    obtain ⟨_, _, last⟩ := Trail.outcome_bind_eq_ok.mp last
    cases last
    unfold readAll at h
    obtain ⟨restored, hrestored, h⟩ := Trail.outcome_bind_eq_ok.mp h
    obtain ⟨_, _, h⟩ := Trail.outcome_bind_eq_ok.mp h
    rw [closed] at h
    cases h
    obtain ⟨absent, present⟩ := restoreRequests_ok o.files distinct hrestored hr
    obtain ⟨here, others⟩ := foldl_keyed
      (f := fun (m : Recoveries) (r : Request) => m.insert r.id (unread r)) Request.id
      (fun m id => m.get? id) (fun r old => some (old.elim (unread r) (·.merge (unread r))))
      (fun r m => ⟨by simp, fun id hid => by simp [Ne.symm hid]⟩)
      (Request.distinct_filter distinct (restored.contains ·.id))
      ((requests.filter isIdle).foldl (fun m r => m.insert r.id r.recovery) .empty)
    cases hi : isIdle r with
    | true =>
      rw [hi] at idle live
      have gone : restored.contains r.id = false := by
        simp [SortedMap.contains, absent live]
      rw [others r.id (Request.apart_filter distinct hr gone), idle]
      rfl
    | false =>
      rw [hi] at idle live
      obtain ⟨seeded, _, held⟩ := present live
      have kept : restored.contains r.id = true := by
        simp [SortedMap.contains, held]
      rw [here r (List.mem_filter.mpr ⟨hr, kept⟩), idle]
      rfl

end CommitLog

end Backfill
