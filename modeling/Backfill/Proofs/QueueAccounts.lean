import Backfill.Proofs.Coverage
import Backfill.Proofs.QueueRuns
import Mathlib.Data.List.Nodup

/-!
No flush is lost on the queue: whatever the order of the steps, and wherever the consumer breaks
off, each flush is refused, written, or missing once the queue is closed.
-/

namespace Backfill.Peers.QueueRun

variable {disk : Disk} {target : FlushTarget} {s s' : QueueRun}

/-- Every flush has a ticket of its own, and is in one place only. -/
structure Ticketed (s : QueueRun) : Prop where
  offered : s.offered.map (·.1) = List.range s.queue.next
  pending : ∀ p ∈ s.pending, p ∈ s.offered
  entered : ∀ p ∈ s.entered, p ∈ s.offered
  refused : ∀ t ∈ s.refused, t < s.queue.next
  apart : (s.pending.map (·.1) ++ (s.entered.map (·.1) ++ s.refused)).Nodup

theorem Ticketed.lt (h : s.Ticketed) {p : Nat × Flush} (hp : p ∈ s.offered) :
    p.1 < s.queue.next := by
  have : p.1 ∈ s.offered.map (·.1) := List.mem_map_of_mem hp
  rw [h.offered] at this
  exact List.mem_range.mp this

theorem Ticketed.distinct (h : s.Ticketed) : (s.offered.map (·.1)).Nodup := by
  rw [h.offered]
  exact List.nodup_range

theorem Ticketed.unique (h : s.Ticketed) {p q : Nat × Flush} (hp : p ∈ s.offered)
    (hq : q ∈ s.offered) (same : p.1 = q.1) : p = q :=
  List.inj_on_of_nodup_map h.distinct hp hq same

/-- The next ticket is nobody's yet. -/
theorem Ticketed.fresh (h : s.Ticketed) :
    s.queue.next ∉ s.pending.map (·.1) ++ (s.entered.map (·.1) ++ s.refused) := by
  intro hm
  simp only [List.mem_append, List.mem_map] at hm
  rcases hm with ⟨p, hp, eq⟩ | ⟨p, hp, eq⟩ | hm
  · have := h.lt (h.pending p hp)
    omega
  · have := h.lt (h.entered p hp)
    omega
  · exact Nat.lt_irrefl _ (h.refused _ hm)

theorem ticketed_start (capacity : Nat) : (start capacity).Ticketed :=
  ⟨rfl, by simp [start], by simp [start], by simp [start], by simp [start]⟩

/-- Whoever leaves the producers is in no other place than where it goes. -/
theorem nodup_leave {pending : List (Nat × Flush)} {p : Nat × Flush} (waits : p ∈ pending)
    {a b : List Nat} (apart : (pending.map (·.1) ++ (a ++ b)).Nodup) :
    ((pending.erase p).map (·.1) ++ (a ++ p.1 :: b)).Nodup := by
  refine (List.Perm.nodup_iff ?_).mpr apart
  have leave : (pending.map (·.1)).Perm (p.1 :: (pending.erase p).map (·.1)) :=
    (List.perm_cons_erase waits).map Prod.fst
  calc
    ((pending.erase p).map (·.1) ++ (a ++ p.1 :: b)).Perm
        ((pending.erase p).map (·.1) ++ (p.1 :: (a ++ b))) := List.perm_middle.append_left _
    List.Perm _ (p.1 :: ((pending.erase p).map (·.1) ++ (a ++ b))) := List.perm_middle
    List.Perm _ (pending.map (·.1) ++ (a ++ b)) := leave.symm.append_right _

theorem ticketed_step (h : s.Ticketed) (step : Step disk target s s') : s'.Ticketed := by
  cases step with
  | offer f =>
    refine ⟨?_, fun p hp => ?_, fun p hp => List.mem_append_left _ (h.entered p hp),
      fun t ht => Nat.lt_succ_of_lt (h.refused t ht), ?_⟩
    · simp only [List.map_append, h.offered, FlushQueue.offer]
      exact List.range_succ.symm
    · rcases List.mem_append.mp hp with hp | hp
      · exact List.mem_append_left _ (h.pending p hp)
      · exact List.mem_append_right _ hp
    · have all := List.nodup_cons.mpr ⟨h.fresh, h.apart⟩
      simp only [List.map_append, List.map_cons, List.map_nil, List.append_assoc]
      exact (List.Perm.nodup_iff List.perm_middle).mpr all
  | enter p waits queue hq =>
    obtain ⟨_, rfl⟩ := FlushQueue.enter?_eq_some.mp hq
    refine ⟨h.offered, fun q hq => h.pending q (List.mem_of_mem_erase hq), fun q hq => ?_,
      h.refused, ?_⟩
    · rcases List.mem_append.mp hq with hq | hq
      · exact h.entered q hq
      · cases List.mem_singleton.mp hq
        exact h.pending p waits
    · simp only [List.map_append, List.map_cons, List.map_nil, List.append_assoc]
      exact nodup_leave waits h.apart
  | refuse p waits queue hq =>
    obtain ⟨_, rfl⟩ := FlushQueue.refuse?_eq_some.mp hq
    refine ⟨h.offered, fun q hq => h.pending q (List.mem_of_mem_erase hq), h.entered, fun t ht => ?_,
      ?_⟩
    · rcases List.mem_append.mp ht with ht | ht
      · exact h.refused t ht
      · cases List.mem_singleton.mp ht
        exact h.lt (h.pending p waits)
    · rw [← List.append_assoc (s.entered.map _)]
      exact nodup_leave waits (by simpa using h.apart)
  | receive queue hq ticket f took =>
    obtain ⟨q, rest, _, _, rfl⟩ := FlushQueue.receive?_eq_some.mp hq
    exact ⟨h.offered, h.pending, h.entered, h.refused, h.apart⟩
  | call ticket f writing c more next =>
    exact ⟨h.offered, h.pending, h.entered, h.refused, h.apart⟩
  | finish ticket f writing through written outcome queue hq =>
    cases (FlushQueue.settle?_eq_some writing).mp hq
    exact ⟨h.offered, h.pending, h.entered, h.refused, h.apart⟩
  | die queue hq =>
    obtain ⟨_, rfl⟩ := FlushQueue.die?_eq_some.mp hq
    exact ⟨h.offered, h.pending, h.entered, h.refused, h.apart⟩

/-- How far the consumer is, once it is through with `done`: what it has in its hands, and that
calls and log are those of `done` and of the calls made about it. -/
def AtWork (disk : Disk) (target : FlushTarget) (s : QueueRun)
    (done current : List (Nat × Flush)) : Consumer → Prop
  | .idle => current = [] ∧ (s.calls, s.log) = transcript disk target done
  | .writing ticket f => ∃ made, current = [(ticket, f)] ∧
      f.write disk target (transcript disk target done).1 =
        ⟨made ++ s.rest.entries, s.rest.outcome⟩ ∧
      s.calls = (transcript disk target done).1 + made.length ∧
      s.log = (transcript disk target done).2 ++ made.map fun e => (ticket, .disk e.1 e.2)
  | .dead => ∃ p, current = [p] ∧ s.log <+: (transcript disk target (done ++ [p])).2

/-- What got in line is settled, in the hands of the consumer, or waiting, in this order. -/
structure Line (disk : Disk) (target : FlushTarget) (s : QueueRun) : Prop where
  split : ∃ done current, AtWork disk target s done current s.queue.consumer ∧
    s.entered = done ++ current ++ s.queue.waiting ∧
    done.map (·.1) = s.queue.settled.map (·.1)
  settled : ∀ x ∈ s.queue.settled, ∃ before f after, s.entered = before ++ (x.1, f) :: after ∧
    FlushQueue.ending (f.write disk target (transcript disk target before).1).outcome = .settle x.2

theorem line_start (capacity : Nat) : Line disk target (start capacity) where
  split := ⟨[], [], ⟨rfl, rfl⟩, rfl, rfl⟩
  settled x hx := by cases hx

theorem line_step (h : Line disk target s) (step : Step disk target s s') :
    Line disk target s' := by
  obtain ⟨done, current, work, entered, settled⟩ := h.split
  cases step with
  | offer f => exact ⟨⟨done, current, work, entered, settled⟩, h.settled⟩
  | enter p waits queue hq =>
    obtain ⟨_, rfl⟩ := FlushQueue.enter?_eq_some.mp hq
    refine ⟨⟨done, current, work, ?_, settled⟩, fun x hx => ?_⟩
    · simp [entered]
    · obtain ⟨before, f, after, split, outcome⟩ := h.settled x hx
      exact ⟨before, f, after ++ [p], by simp [split], outcome⟩
  | refuse p waits queue hq =>
    obtain ⟨_, rfl⟩ := FlushQueue.refuse?_eq_some.mp hq
    exact ⟨⟨done, current, work, entered, settled⟩, h.settled⟩
  | receive queue hq ticket f took =>
    obtain ⟨p, rest, idle, waiting, rfl⟩ := FlushQueue.receive?_eq_some.mp hq
    cases took
    rw [idle] at work
    obtain ⟨rfl, now⟩ := work
    have calls : s.calls = (transcript disk target done).1 := congrArg Prod.fst now
    have log : s.log = (transcript disk target done).2 := congrArg Prod.snd now
    refine ⟨⟨done, [p], ⟨[], rfl, ?_, calls, ?_⟩, ?_, settled⟩, h.settled⟩
    · simp [calls]
    · simp [log]
    · simp [entered, waiting]
  | call ticket f writing c more next =>
    rw [writing] at work
    obtain ⟨made, rfl, left, calls, log⟩ := work
    refine ⟨⟨done, _, ?_, entered, settled⟩, h.settled⟩
    change AtWork disk target _ _ _ s.queue.consumer
    rw [writing]
    refine ⟨made ++ [c], rfl, ?_, ?_, ?_⟩
    · simp [left, next]
    · simp [calls, Nat.add_assoc]
    · simp [log]
  | finish ticket f writing through written outcome queue hq =>
    cases (FlushQueue.settle?_eq_some writing).mp hq
    rw [writing] at work
    obtain ⟨made, rfl, left, calls, log⟩ := work
    rw [through, List.append_nil] at left
    refine ⟨⟨done ++ [(ticket, f)], [], ⟨rfl, ?_⟩, ?_, ?_⟩, fun x hx => ?_⟩
    · simp [transcript_concat, writeNext, left, calls, log, Function.comp_def]
    · simpa [FlushQueue.strike] using entered
    · simp [settled]
    · rcases List.mem_append.mp hx with hx | hx
      · exact h.settled x hx
      · cases List.mem_singleton.mp hx
        refine ⟨done, f, s.queue.waiting, by simpa using entered, ?_⟩
        rw [left]
        exact outcome
  | die queue hq =>
    obtain ⟨⟨ticket, f, writing⟩, rfl⟩ := FlushQueue.die?_eq_some.mp hq
    rw [writing] at work
    obtain ⟨made, rfl, left, calls, log⟩ := work
    -- the calls that were made are the first ones of the whole write
    refine ⟨⟨done, _, ⟨(ticket, f), rfl, ?_⟩, entered, settled⟩, h.settled⟩
    simp [transcript_concat, writeNext, left, log, Function.comp_def]

theorem Line.mem_entered (h : Line disk target s) {x : Nat × Bool} (hx : x ∈ s.queue.settled) :
    ∃ f, (x.1, f) ∈ s.entered := by
  obtain ⟨before, f, after, split, _⟩ := h.settled x hx
  exact ⟨f, by simp [split]⟩

theorem Line.writing_mem (h : Line disk target s) {ticket : Nat} {f : Flush}
    (writing : s.queue.consumer = .writing ticket f) : (ticket, f) ∈ s.entered := by
  obtain ⟨done, current, work, entered, _⟩ := h.split
  rw [writing] at work
  obtain ⟨made, rfl, _⟩ := work
  simp [entered]

theorem Line.distinct (h : Line disk target s) (tickets : s.Ticketed) :
    (s.queue.settled.map (·.1)).Nodup := by
  obtain ⟨done, current, _, entered, settled⟩ := h.split
  have apart := (List.nodup_append.mp (List.nodup_append.mp tickets.apart).2.1).1
  rw [entered, List.append_assoc, List.map_append] at apart
  rw [← settled]
  exact (List.nodup_append.mp apart).1

def entry (p : Nat × Flush) : LedgerEntry := ⟨p.1, p.2.shard, p.2.part⟩

/-- The flush is neither refused nor settled. -/
def Unresolved (s : QueueRun) (ticket : Nat) : Prop :=
  ticket ∉ s.refused ∧ ticket ∉ s.queue.settled.map (·.1)

instance (s : QueueRun) (ticket : Nat) : Decidable (s.Unresolved ticket) :=
  inferInstanceAs (Decidable (_ ∧ _))

def outstanding (s : QueueRun) : List (Nat × Flush) := s.offered.filter (s.Unresolved ·.1)

def countsFlush : Event → Bool
  | .counted (.flushes _) _ => true
  | _ => false

/-- The ledger, what is missing and the counters, in terms of what became of each flush. -/
structure Booked (s : QueueRun) : Prop where
  ledger : s.queue.ledger = s.outstanding.map entry
  canonical : s.queue.missing.Canonical
  missing : ∀ x, x ∈ s.queue.missing ↔ ∃ p ∈ s.offered, (p.1, false) ∈ s.queue.settled ∧
    x.1 = p.2.shard ∧ x.2 ∈ p.2.part
  counted : s.log.filter (countsFlush ·.2) =
    s.queue.settled.map fun x => (x.1, .counted (.flushes x.2) 1)

theorem booked_start (capacity : Nat) : (start capacity).Booked where
  ledger := rfl
  canonical := .empty
  missing x := by simp [start, FlushQueue.ofCapacity]
  counted := rfl

/-- A flush is struck from the ledger when it becomes resolved. -/
theorem strike_outstanding {ticket : Nat} (offered : s'.offered = s.offered)
    (resolved : ∀ t, s'.Unresolved t ↔ t ≠ ticket ∧ s.Unresolved t) :
    (s.outstanding.map entry).filter (·.ticket ≠ ticket) = s'.outstanding.map entry := by
  unfold outstanding
  rw [offered, List.filter_map, List.filter_filter]
  congr 1
  refine List.filter_congr fun p _ => Bool.eq_iff_iff.mpr ?_
  simp only [Function.comp_apply, Bool.and_eq_true, decide_eq_true_eq, resolved]
  exact Iff.rfl

theorem flushed_of_ending {outcome : Except Failure Unit} {written : Bool}
    (h : FlushQueue.ending outcome = .settle written) :
    DataState.flushed outcome = [.counted (.flushes written) 1] := by
  cases outcome with
  | ok u =>
    cases h
    rfl
  | error e =>
    cases e with
    | error e =>
      cases h
      rfl
    | fault x => cases h

theorem unresolved_next (tickets : s.Ticketed) (line : Line disk target s) :
    s.Unresolved s.queue.next := by
  constructor
  · intro hn
    exact Nat.lt_irrefl _ (tickets.refused _ hn)
  · intro hn
    obtain ⟨x, hx, eq⟩ := List.mem_map.mp hn
    obtain ⟨f, hf⟩ := line.mem_entered hx
    have := tickets.lt (tickets.entered _ hf)
    omega

/-- A flush that is given up is missing from now on. -/
theorem Booked.missing_settle (h : s.Booked) (tickets : s.Ticketed) {ticket : Nat} {f : Flush}
    (current : (ticket, f) ∈ s.offered) (written : Bool) (x : Shard × Instant) :
    x ∈ (if written then s.queue.missing else s.queue.missing.add f.shard f.part) ↔
      ∃ p ∈ s.offered, (p.1, false) ∈ s.queue.settled ++ [(ticket, written)] ∧
        x.1 = p.2.shard ∧ x.2 ∈ p.2.part := by
  cases written with
  | true =>
    apply (h.missing x).trans
    simp
  | false =>
    apply (Coverage.mem_add h.canonical).trans
    rw [h.missing]
    constructor
    · intro hm
      rcases hm with ⟨p, hp, settled, rest⟩ | rest
      · exact ⟨p, hp, List.mem_append_left _ settled, rest⟩
      · exact ⟨(ticket, f), current, List.mem_append_right _ (List.mem_singleton_self _), rest⟩
    · intro hm
      obtain ⟨p, hp, settled, rest⟩ := hm
      rcases List.mem_append.mp settled with settled | now
      · exact .inl ⟨p, hp, settled, rest⟩
      · -- nobody else has this ticket
        have same : p.1 = ticket := congrArg Prod.fst (List.mem_singleton.mp now)
        cases tickets.unique hp current same
        exact .inr rest

theorem booked_step (tickets : s.Ticketed) (line : Line disk target s) (h : s.Booked)
    (step : Step disk target s s') : s'.Booked := by
  cases step with
  | offer f =>
    have new := unresolved_next tickets line
    refine ⟨?_, h.canonical, fun x => (h.missing x).trans ?_, h.counted⟩
    · change s.queue.ledger ++ [entry (s.queue.next, f)] =
        ((s.offered ++ [(s.queue.next, f)]).filter (s.Unresolved ·.1)).map entry
      simp [h.ledger, outstanding, List.filter_append, List.filter_cons_of_pos, new]
    · constructor
      · intro hm
        obtain ⟨p, hp, rest⟩ := hm
        exact ⟨p, List.mem_append_left _ hp, rest⟩
      · intro hm
        obtain ⟨p, hp, settled, rest⟩ := hm
        rcases List.mem_append.mp hp with hp | hp
        · exact ⟨p, hp, settled, rest⟩
        · cases List.mem_singleton.mp hp
          exact absurd (List.mem_map_of_mem settled) new.2
  | enter p waits queue hq =>
    obtain ⟨_, rfl⟩ := FlushQueue.enter?_eq_some.mp hq
    exact ⟨h.ledger, h.canonical, h.missing, h.counted⟩
  | refuse p waits queue hq =>
    obtain ⟨_, rfl⟩ := FlushQueue.refuse?_eq_some.mp hq
    refine ⟨?_, h.canonical, h.missing, h.counted⟩
    change s.queue.ledger.filter (·.ticket ≠ p.1) = _
    rw [h.ledger]
    refine strike_outstanding rfl fun t => ?_
    simp only [Unresolved, FlushQueue.strike, List.mem_append, List.mem_singleton, not_or]
    grind
  | receive queue hq ticket f took =>
    obtain ⟨q, rest, _, _, rfl⟩ := FlushQueue.receive?_eq_some.mp hq
    exact ⟨h.ledger, h.canonical, h.missing, h.counted⟩
  | call ticket f writing c more next =>
    refine ⟨h.ledger, h.canonical, h.missing, ?_⟩
    rw [List.filter_append, h.counted]
    exact List.append_nil _
  | finish ticket f writing through written outcome queue hq =>
    cases (FlushQueue.settle?_eq_some writing).mp hq
    refine ⟨?_, ?_, fun x => ?_, ?_⟩
    · change s.queue.ledger.filter (·.ticket ≠ ticket) = _
      rw [h.ledger]
      refine strike_outstanding rfl fun t => ?_
      simp only [Unresolved, List.map_append, List.map_cons, List.map_nil, List.mem_append,
        List.mem_singleton, not_or]
      grind
    · cases written with
      | true => exact h.canonical
      | false => exact h.canonical.add f.shard f.part
    · exact h.missing_settle tickets (tickets.entered _ (line.writing_mem writing)) written x
    · rw [List.filter_append, h.counted, flushed_of_ending outcome, List.map_append]
      rfl
  | die queue hq =>
    obtain ⟨_, rfl⟩ := FlushQueue.die?_eq_some.mp hq
    exact ⟨h.ledger, h.canonical, h.missing, h.counted⟩

/-- What holds at every point of a run. -/
structure Sound (disk : Disk) (target : FlushTarget) (s : QueueRun) : Prop where
  tickets : s.Ticketed
  line : Line disk target s
  books : s.Booked

theorem sound_of_reaches {capacity : Nat} (h : Reaches disk target capacity s) :
    Sound disk target s := by
  induction h with
  | start => exact ⟨ticketed_start capacity, line_start capacity, booked_start capacity⟩
  | step before next ih =>
    exact ⟨ticketed_step ih.tickets next, line_step ih.line next,
      booked_step ih.tickets ih.line ih.books next⟩

theorem mem_foldl_add {c : Coverage} (h : c.Canonical) (l : List LedgerEntry)
    {x : Shard × Instant} : x ∈ l.foldl (fun c e => c.add e.shard e.part) c ↔
      x ∈ c ∨ ∃ e ∈ l, x.1 = e.shard ∧ x.2 ∈ e.part := by
  induction l generalizing c with
  | nil => simp
  | cons e l ih =>
    rw [List.foldl_cons, ih (h.add e.shard e.part), Coverage.mem_add h]
    simp [or_assoc]

/-- The counters of a closing queue, one for each flush that was lost with the consumer. -/
def closing (s : QueueRun) : List (Nat × Event) :=
  s.queue.ledger.map fun e => (e.ticket, .counted (.flushes false) 1)

theorem filter_key {α : Type} {key : α → Nat} {l : List α} (distinct : (l.map key).Nodup) {a : α}
    (ha : a ∈ l) : l.filter (key · = key a) = [a] := by
  induction l with
  | nil => cases ha
  | cons b l ih =>
    rw [List.map_cons, List.nodup_cons] at distinct
    obtain ⟨fresh, distinct⟩ := distinct
    rcases List.mem_cons.mp ha with rfl | ha
    · rw [List.filter_cons_of_pos (by simp), List.filter_eq_nil_iff.mpr]
      intro c hc eq
      exact fresh (List.mem_map.mpr ⟨c, hc, of_decide_eq_true eq⟩)
    · rw [List.filter_cons_of_neg, ih distinct ha]
      intro eq
      exact fresh (List.mem_map.mpr ⟨a, ha, (of_decide_eq_true eq).symm⟩)

/-- The counters that speak of one flush. -/
def countsOf (ticket : Nat) (log : List (Nat × Event)) : List Event :=
  (log.filter fun e => e.1 = ticket ∧ countsFlush e.2).map (·.2)

theorem countsOf_append (ticket : Nat) (a b : List (Nat × Event)) :
    countsOf ticket (a ++ b) = countsOf ticket a ++ countsOf ticket b := by
  simp [countsOf]

/-- Events that all count flushes, told apart by the tickets alone. -/
theorem countsOf_map {α : Type} (ticket : Nat) (l : List α) (key : α → Nat) (written : α → Bool) :
    countsOf ticket (l.map fun a => (key a, .counted (.flushes (written a)) 1)) =
      (l.filter (key · = ticket)).map fun a => .counted (.flushes (written a)) 1 := by
  simp [countsOf, countsFlush, List.filter_map, Function.comp_def]

theorem Booked.countsOf_log (h : s.Booked) (ticket : Nat) :
    countsOf ticket s.log =
      (s.queue.settled.filter (·.1 = ticket)).map fun x => .counted (.flushes x.2) 1 := by
  have only : countsOf ticket s.log = countsOf ticket (s.log.filter (countsFlush ·.2)) := by
    simp [countsOf, List.filter_filter]
  rw [only, h.counted, countsOf_map]

theorem Booked.countsOf_closing (h : s.Booked) (ticket : Nat) :
    countsOf ticket s.closing =
      (s.outstanding.filter (·.1 = ticket)).map fun _ => .counted (.flushes false) 1 := by
  rw [closing, h.ledger, List.map_map]
  exact countsOf_map ticket s.outstanding Prod.fst fun _ => false

/-- No flush is lost when the queue is closed after the run, and each comes to one end only. -/
structure Accounted (disk : Disk) (target : FlushTarget) (s : QueueRun) : Prop where
  distinct : (s.offered.map (·.1)).Nodup
  /-- What is taken into the queue is not refused. -/
  accepted : ∀ p ∈ s.entered, p ∈ s.offered ∧ p.1 ∉ s.refused
  /-- A flush is settled as its write, in its turn, has ended. -/
  settled : ∀ x ∈ s.queue.settled, ∃ before f after, s.entered = before ++ (x.1, f) :: after ∧
    FlushQueue.ending (f.write disk target (transcript disk target before).1).outcome = .settle x.2
  kept : ∀ p ∈ s.offered, p.1 ∈ s.refused ∨ (p.1, true) ∈ s.queue.settled ∨
    ∀ t ∈ p.2.part, (p.2.shard, t) ∈ s.queue.close.missing
  /-- Nothing else is missing. -/
  missing : ∀ x ∈ s.queue.close.missing, ∃ p ∈ s.offered, p.1 ∉ s.refused ∧
    (p.1, true) ∉ s.queue.settled ∧ x.1 = p.2.shard ∧ x.2 ∈ p.2.part
  /-- Closing leaves alone what was written. -/
  spared : ∀ e ∈ s.queue.ledger, (e.ticket, true) ∉ s.queue.settled
  /-- One flush is written after the other, as they got in line. -/
  ordered : s.log <+: (transcript disk target s.entered).2
  counted : ∀ p ∈ s.offered, countsOf p.1 (s.log ++ s.closing) =
    if p.1 ∈ s.refused then []
    else [.counted (.flushes (decide ((p.1, true) ∈ s.queue.settled))) 1]

theorem Sound.accepted (h : Sound disk target s) {p : Nat × Flush} (hp : p ∈ s.entered) :
    p.1 ∉ s.refused := by
  intro refused
  have apart := (List.nodup_append.mp h.tickets.apart).2.1
  exact (List.nodup_append.mp apart).2.2 _ (List.mem_map_of_mem hp) _ refused rfl

theorem Sound.unrefused (h : Sound disk target s) {x : Nat × Bool} (hx : x ∈ s.queue.settled) :
    x.1 ∉ s.refused := by
  obtain ⟨f, hf⟩ := h.line.mem_entered hx
  exact h.accepted hf

theorem Sound.settled_once (h : Sound disk target s) {x y : Nat × Bool}
    (hx : x ∈ s.queue.settled) (hy : y ∈ s.queue.settled) (same : x.1 = y.1) : x = y :=
  List.inj_on_of_nodup_map (h.line.distinct h.tickets) hx hy same

theorem Sound.mem_close (h : Sound disk target s) (x : Shard × Instant) :
    x ∈ s.queue.close.missing ↔ ∃ p ∈ s.offered, p.1 ∉ s.refused ∧
      (p.1, true) ∉ s.queue.settled ∧ x.1 = p.2.shard ∧ x.2 ∈ p.2.part := by
  apply (mem_foldl_add h.books.canonical s.queue.ledger).trans
  rw [h.books.missing, h.books.ledger]
  constructor
  · intro hm
    rcases hm with ⟨p, hp, settled, rest⟩ | ⟨e, he, rest⟩
    · refine ⟨p, hp, h.unrefused settled, fun written => ?_, rest⟩
      cases h.settled_once settled written rfl
    · obtain ⟨p, hp, rfl⟩ := List.mem_map.mp he
      obtain ⟨hp, unresolved⟩ := List.mem_filter.mp hp
      obtain ⟨unrefused, unsettled⟩ := of_decide_eq_true unresolved
      exact ⟨p, hp, unrefused, fun written => unsettled (List.mem_map_of_mem written), rest⟩
  · intro hm
    obtain ⟨p, hp, unrefused, unwritten, rest⟩ := hm
    by_cases hs : p.1 ∈ s.queue.settled.map (·.1)
    · obtain ⟨⟨ticket, written⟩, hx, rfl⟩ := List.mem_map.mp hs
      cases written with
      | true => exact absurd hx unwritten
      | false => exact .inl ⟨p, hp, hx, rest⟩
    · -- still in the ledger
      have unresolved : s.Unresolved p.1 := ⟨unrefused, hs⟩
      refine .inr ⟨entry p, List.mem_map_of_mem (List.mem_filter.mpr ⟨hp, ?_⟩), rest⟩
      exact decide_eq_true unresolved

theorem Sound.kept (h : Sound disk target s) {p : Nat × Flush} (hp : p ∈ s.offered) :
    p.1 ∈ s.refused ∨ (p.1, true) ∈ s.queue.settled ∨
      ∀ t ∈ p.2.part, (p.2.shard, t) ∈ s.queue.close.missing := by
  by_cases refused : p.1 ∈ s.refused
  · exact .inl refused
  by_cases written : (p.1, true) ∈ s.queue.settled
  · exact .inr (.inl written)
  exact .inr (.inr fun t ht => (h.mem_close _).mpr ⟨p, hp, refused, written, rfl, ht⟩)

theorem Sound.ordered (h : Sound disk target s) :
    s.log <+: (transcript disk target s.entered).2 := by
  obtain ⟨done, current, work, entered, _⟩ := h.line.split
  rw [entered]
  refine List.IsPrefix.trans ?_ (transcript_append _ _)
  cases hc : s.queue.consumer with
  | idle =>
    rw [hc] at work
    obtain ⟨rfl, now⟩ := work
    simp [← now]
  | writing ticket f =>
    rw [hc] at work
    obtain ⟨made, rfl, left, calls, log⟩ := work
    simp [transcript_concat, writeNext, left, log, Function.comp_def]
  | dead =>
    rw [hc] at work
    obtain ⟨p, rfl, log⟩ := work
    exact log

theorem Sound.written_iff (h : Sound disk target s) {x : Nat × Bool} (hx : x ∈ s.queue.settled) :
    decide ((x.1, true) ∈ s.queue.settled) = x.2 := by
  obtain ⟨ticket, written⟩ := x
  cases written with
  | true => exact decide_eq_true hx
  | false =>
    refine decide_eq_false fun written => ?_
    cases h.settled_once hx written rfl

theorem outstanding_of_resolved {ticket : Nat} (resolved : ¬ s.Unresolved ticket) :
    s.outstanding.filter (·.1 = ticket) = [] := by
  refine List.filter_eq_nil_iff.mpr fun p hp eq => resolved ?_
  rw [← of_decide_eq_true eq]
  exact of_decide_eq_true (List.mem_filter.mp hp).2

theorem Sound.counted (h : Sound disk target s) {p : Nat × Flush} (hp : p ∈ s.offered) :
    countsOf p.1 (s.log ++ s.closing) =
      if p.1 ∈ s.refused then []
      else [.counted (.flushes (decide ((p.1, true) ∈ s.queue.settled))) 1] := by
  rw [countsOf_append, h.books.countsOf_log, h.books.countsOf_closing]
  by_cases hr : p.1 ∈ s.refused
  · have unsettled : s.queue.settled.filter (·.1 = p.1) = [] := by
      refine List.filter_eq_nil_iff.mpr fun x hx eq => h.unrefused hx ?_
      rw [of_decide_eq_true eq]
      exact hr
    rw [unsettled, outstanding_of_resolved fun unresolved => unresolved.1 hr, if_pos hr]
    rfl
  · rw [if_neg hr]
    by_cases hs : p.1 ∈ s.queue.settled.map (·.1)
    · obtain ⟨x, hx, eq⟩ := List.mem_map.mp hs
      rw [outstanding_of_resolved fun unresolved => unresolved.2 hs, ← eq,
        filter_key (h.line.distinct h.tickets) hx, h.written_iff hx]
      rfl
    · have unsettled : s.queue.settled.filter (·.1 = p.1) = [] := by
        refine List.filter_eq_nil_iff.mpr fun x hx eq => hs ?_
        exact List.mem_map.mpr ⟨x, hx, of_decide_eq_true eq⟩
      have unwritten : (p.1, true) ∉ s.queue.settled := fun written =>
        hs (List.mem_map_of_mem written)
      have here : p ∈ s.outstanding := List.mem_filter.mpr ⟨hp, decide_eq_true ⟨hr, hs⟩⟩
      have distinct : (s.outstanding.map (·.1)).Nodup :=
        h.tickets.distinct.sublist (List.filter_sublist.map _)
      rw [unsettled, filter_key distinct here, decide_eq_false unwritten]
      rfl

/-- Whatever the producers bring, in whatever order the steps come, and wherever the consumer breaks
off if it does: the queue may be closed at any point, and no flush is lost. -/
theorem reaches_accounted {capacity : Nat} (h : Reaches disk target capacity s) :
    Accounted disk target s := by
  have sound := sound_of_reaches h
  refine ⟨sound.tickets.distinct, fun p hp => ⟨sound.tickets.entered p hp, sound.accepted hp⟩,
    sound.line.settled, fun p hp => sound.kept hp, fun x hx => (sound.mem_close x).mp hx,
    fun e he => ?_, sound.ordered, fun p hp => sound.counted hp⟩
  rw [sound.books.ledger] at he
  obtain ⟨p, hp, rfl⟩ := List.mem_map.mp he
  obtain ⟨_, unsettled⟩ := of_decide_eq_true (List.mem_filter.mp hp).2
  exact fun written => unsettled (List.mem_map_of_mem written)

/-- The consumer dies over the second of four flushes, with the third in line and the fourth yet to
be taken. -/
theorem reaches_accounted_broken :
    let disk : Disk := ⟨fun nth _ => if nth = 3 then .crash else .ok (), .ok ()⟩
    let target : FlushTarget := ⟨[1], 10, .flush⟩
    let f : Nat → Flush := fun shard => ⟨shard, .empty, ⟨0, 10⟩⟩
    ∃ s, Reaches disk target 1 s ∧ Accounted disk target s ∧
      s.offered = [(0, f 0), (1, f 1), (2, f 2), (3, f 3)] ∧ s.refused = [3] ∧
      s.queue.settled = [(0, true)] ∧
      s.queue.close.missing = (Coverage.empty.add 1 ⟨0, 10⟩).add 2 ⟨0, 10⟩ := by
  intro disk target f
  have r : Reaches disk target 1 _ := .start
  have r := r.step (.offer (f 0))
  have r := r.step (.offer (f 1))
  have r := r.step (.offer (f 2))
  have r := r.step (.offer (f 3))
  have r := r.step (.enter (0, f 0) (.head _) _ rfl)
  have r := r.step (.receive _ rfl _ _ rfl)
  have r := r.step (.enter (1, f 1) (.head _) _ rfl)
  have r := r.step (.call _ _ rfl _ _ rfl)
  have r := r.step (.call _ _ rfl _ _ rfl)
  have r := r.step (.finish _ _ rfl rfl _ rfl _ rfl)
  have r := r.step (.receive _ rfl _ _ rfl)
  have r := r.step (.enter (2, f 2) (.head _) _ rfl)
  have r := r.step (.call _ _ rfl _ _ rfl)
  have r := r.step (.call _ _ rfl _ _ rfl)
  have r := r.step (.die _ rfl)
  have r := r.step (.refuse (3, f 3) (.head _) _ rfl)
  exact ⟨_, r, reaches_accounted r, rfl, rfl, rfl, by decide⟩

end Backfill.Peers.QueueRun
