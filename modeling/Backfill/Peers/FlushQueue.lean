import Backfill.Coverage
import Backfill.Peers.Flush

/-!
The queue between the workers that fetch and the one consumer that writes. A flush is entered in a
ledger before it is offered, and leaves it when it is refused, or when the consumer has settled it.
What is still in the ledger when the queue closes was lost with the consumer, and is missing.
-/

namespace Backfill

inductive Consumer where
  | idle
  | writing (ticket : Nat) (flush : Flush)
  | dead
  deriving DecidableEq

structure LedgerEntry where
  ticket : Nat
  shard : Shard
  part : Interval
  deriving DecidableEq, Repr

structure FlushQueue where
  capacity : Nat
  /-- The ticket of the next flush. -/
  next : Nat
  ledger : List LedgerEntry
  waiting : List (Nat × Flush)
  consumer : Consumer
  missing : Coverage
  /-- The tickets that were written or given up, each with whether it was written, in order. -/
  settled : List (Nat × Bool)
  deriving DecidableEq

namespace FlushQueue

def ofCapacity (capacity : Nat) : FlushQueue := ⟨capacity, 0, [], [], .idle, .empty, []⟩

/-- A producer comes with a flush and gets the ticket `q.next` for it. -/
def offer (q : FlushQueue) (f : Flush) : FlushQueue :=
  { q with next := q.next + 1, ledger := q.ledger ++ [⟨q.next, f.shard, f.part⟩] }

def strike (q : FlushQueue) (ticket : Nat) : FlushQueue :=
  { q with ledger := q.ledger.filter (·.ticket ≠ ticket) }

/-- The flush gets in line, if there is room and someone to take it. -/
def enter? (q : FlushQueue) (ticket : Nat) (f : Flush) : Option FlushQueue :=
  if q.consumer ≠ .dead ∧ q.waiting.length < q.capacity then
    some { q with waiting := q.waiting ++ [(ticket, f)] }
  else none

/-- The flush goes back to its producer when nobody is left to take it. -/
def refuse? (q : FlushQueue) (ticket : Nat) : Option FlushQueue :=
  if q.consumer = .dead then some (q.strike ticket) else none

/-- The consumer takes the flush that came first. -/
def receive? (q : FlushQueue) : Option FlushQueue :=
  match q.consumer, q.waiting with
  | .idle, (ticket, f) :: rest => some { q with waiting := rest, consumer := .writing ticket f }
  | _, _ => none

/-- The consumer is through with a flush. -/
def settle? (q : FlushQueue) (written : Bool) : Option FlushQueue :=
  match q.consumer with
  | .writing ticket f =>
    some { q.strike ticket with
      consumer := .idle
      missing := if written then q.missing else q.missing.add f.shard f.part
      settled := q.settled ++ [(ticket, written)] }
  | _ => none

/-- The consumer breaks off in the middle of a flush. -/
def die? (q : FlushQueue) : Option FlushQueue :=
  match q.consumer with
  | .writing _ _ => some { q with consumer := .dead }
  | _ => none

/-- Whoever is still in the ledger has lost out. -/
def close (q : FlushQueue) : FlushQueue :=
  { q with
    ledger := []
    missing := q.ledger.foldl (fun c e => c.add e.shard e.part) q.missing
    settled := q.settled ++ q.ledger.map (·.ticket, false) }

/-- What can happen to a queue that is not closed. -/
inductive Move where
  | offer (f : Flush)
  | enter (ticket : Nat) (f : Flush)
  | refuse (ticket : Nat)
  | receive
  | settle (written : Bool)
  | die
  deriving DecidableEq

def move? (q : FlushQueue) : Move → Option FlushQueue
  | .offer f => some (q.offer f)
  | .enter ticket f => q.enter? ticket f
  | .refuse ticket => q.refuse? ticket
  | .receive => q.receive?
  | .settle written => q.settle? written
  | .die => q.die?

def moves? (q : FlushQueue) (l : List Move) : Option FlushQueue := l.foldlM move? q

/-- What the consumer does once it has tried to write a flush. -/
def ending (outcome : Except Failure Unit) : Move :=
  match outcome with
  | .ok () => .settle true
  | .error (.error _) => .settle false
  | .error (.fault _) => .die

/-- A flush is offered and, where there is a consumer, written before anything else happens. None
means that it was refused. -/
def pass (q : FlushQueue) (f : Flush) (outcome : Except Failure Unit) : Option FlushQueue :=
  q.moves? [.offer f, .enter q.next f, .receive, ending outcome]

/-- A flush is offered and refused. -/
def turnAway (q : FlushQueue) (f : Flush) : FlushQueue := (q.offer f).strike q.next

end FlushQueue

end Backfill
