import Backfill.Peers.Data

/-!
The queue at work: any number of producers that come with flushes, the one consumer that writes
them, and every order in which their steps can come.
-/

namespace Backfill

namespace FlushQueue

variable {q q' : FlushQueue} {ticket : Nat} {f : Flush}

theorem enter?_eq_some : q.enter? ticket f = some q' ↔
    (q.consumer ≠ .dead ∧ q.waiting.length < q.capacity) ∧
      q' = { q with waiting := q.waiting ++ [(ticket, f)] } := by
  unfold enter?
  split
  · rename_i h
    simp [h, eq_comm]
  · rename_i h
    simp [h]

theorem refuse?_eq_some : q.refuse? ticket = some q' ↔
    q.consumer = .dead ∧ q' = q.strike ticket := by
  unfold refuse?
  split
  · rename_i h
    simp [h, eq_comm]
  · rename_i h
    simp [h]

theorem receive?_eq_some : q.receive? = some q' ↔ ∃ p rest, q.consumer = .idle ∧
    q.waiting = p :: rest ∧ q' = { q with waiting := rest, consumer := .writing p.1 p.2 } := by
  unfold receive?
  split
  · rename_i ticket f rest idle waiting
    rw [idle, waiting]
    constructor
    · intro h
      cases h
      exact ⟨(ticket, f), rest, rfl, rfl, rfl⟩
    · intro hm
      obtain ⟨p, rest', _, same, rfl⟩ := hm
      cases same
      rfl
  · rename_i other
    constructor
    · intro h
      cases h
    · intro hm
      obtain ⟨p, rest, idle, waiting, _⟩ := hm
      exact absurd waiting (other p.1 p.2 rest idle)

theorem settle?_eq_some (writing : q.consumer = .writing ticket f) {written : Bool} :
    q.settle? written = some q' ↔ q' = { q.strike ticket with
      consumer := .idle
      missing := if written then q.missing else q.missing.add f.shard f.part
      settled := q.settled ++ [(ticket, written)] } := by
  simp [settle?, writing, eq_comm]

theorem die?_eq_some : q.die? = some q' ↔
    (∃ ticket f, q.consumer = .writing ticket f) ∧ q' = { q with consumer := .dead } := by
  unfold die?
  split
  · rename_i ticket f writing
    simp [writing, eq_comm]
  · rename_i other
    constructor
    · intro h
      cases h
    · intro hm
      obtain ⟨⟨ticket, f, writing⟩, _⟩ := hm
      exact absurd writing (other ticket f)

end FlushQueue

namespace Peers

/-- A queue, everyone around it, and what has happened so far. -/
structure QueueRun where
  queue : FlushQueue
  /-- Producers that have yet to hand on their flush. -/
  pending : List (Nat × Flush)
  offered : List (Nat × Flush)
  /-- The flushes that were taken into the queue, in this order. -/
  entered : List (Nat × Flush)
  refused : List Nat
  /-- What the consumer has yet to do about the flush in its hands. -/
  rest : Flush.DiskTrail
  /-- How many calls the disk has answered. -/
  calls : Nat
  /-- What was done about each flush, the latest last. -/
  log : List (Nat × Event)

namespace QueueRun

def start (capacity : Nat) : QueueRun :=
  ⟨.ofCapacity capacity, [], [], [], [], .pure (), 0, []⟩

/-- A producer comes, its flush gets in line or is refused, the consumer takes the next one, makes
one call after the other, and is through with it. It may break off at any point of that. -/
inductive Step (disk : Disk) (target : FlushTarget) (s : QueueRun) : QueueRun → Prop
  | offer (f : Flush) : Step disk target s { s with
      queue := s.queue.offer f
      pending := s.pending ++ [(s.queue.next, f)]
      offered := s.offered ++ [(s.queue.next, f)] }
  | enter (p : Nat × Flush) (waits : p ∈ s.pending) (queue : FlushQueue)
      (h : s.queue.enter? p.1 p.2 = some queue) : Step disk target s { s with
      queue
      pending := s.pending.erase p
      entered := s.entered ++ [p] }
  | refuse (p : Nat × Flush) (waits : p ∈ s.pending) (queue : FlushQueue)
      (h : s.queue.refuse? p.1 = some queue) : Step disk target s { s with
      queue
      pending := s.pending.erase p
      refused := s.refused ++ [p.1] }
  | receive (queue : FlushQueue) (h : s.queue.receive? = some queue) (ticket : Nat) (f : Flush)
      (took : queue.consumer = .writing ticket f) : Step disk target s { s with
      queue
      rest := f.write disk target s.calls }
  | call (ticket : Nat) (f : Flush) (writing : s.queue.consumer = .writing ticket f)
      (c : DiskCall × Reply Unit) (more : List (DiskCall × Reply Unit))
      (next : s.rest.entries = c :: more) : Step disk target s { s with
      rest := ⟨more, s.rest.outcome⟩
      calls := s.calls + 1
      log := s.log ++ [(ticket, .disk c.1 c.2)] }
  | finish (ticket : Nat) (f : Flush) (writing : s.queue.consumer = .writing ticket f)
      (through : s.rest.entries = []) (written : Bool)
      (outcome : FlushQueue.ending s.rest.outcome = .settle written) (queue : FlushQueue)
      (h : s.queue.settle? written = some queue) : Step disk target s { s with
      queue
      log := s.log ++ (DataState.flushed s.rest.outcome).map (ticket, ·) }
  | die (queue : FlushQueue) (h : s.queue.die? = some queue) : Step disk target s { s with queue }

inductive Reaches (disk : Disk) (target : FlushTarget) (capacity : Nat) : QueueRun → Prop
  | start : Reaches disk target capacity (start capacity)
  | step {s s' : QueueRun} (before : Reaches disk target capacity s)
      (next : Step disk target s s') : Reaches disk target capacity s'

/-- The calls made so far and their log, after one more flush is written. -/
def writeNext (disk : Disk) (target : FlushTarget) (done : Nat × List (Nat × Event))
    (p : Nat × Flush) : Nat × List (Nat × Event) :=
  let written := p.2.write disk target done.1
  (done.1 + written.entries.length, done.2 ++ (written.entries.map (fun e => Event.disk e.1 e.2) ++
    DataState.flushed written.outcome).map (p.1, ·))

/-- The flushes written one after the other. -/
def transcript (disk : Disk) (target : FlushTarget) (l : List (Nat × Flush)) :
    Nat × List (Nat × Event) :=
  l.foldl (writeNext disk target) (0, [])

variable {disk : Disk} {target : FlushTarget}

theorem transcript_concat (l : List (Nat × Flush)) (p : Nat × Flush) :
    transcript disk target (l ++ [p]) = writeNext disk target (transcript disk target l) p := by
  simp [transcript]

theorem transcript_append (a b : List (Nat × Flush)) :
    (transcript disk target a).2 <+: (transcript disk target (a ++ b)).2 := by
  induction b generalizing a with
  | nil => simp
  | cons p b ih =>
    have rest := ih (a ++ [p])
    rw [List.append_assoc, transcript_concat] at rest
    exact (List.prefix_append _ _).trans rest

end QueueRun

end Peers

end Backfill
