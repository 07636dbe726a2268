import Backfill.ShardSets

/-!
A set of instants for each shard: what is asked for, what could be had, what is still missing. It is
kept as `ShardSets` are, but a shard without instants is dropped after each operation, so equal
coverages have the same members.
-/

namespace Backfill

structure Coverage where
  sets : SortedMap Shard TimeSet
  inhabited : ∀ e ∈ sets.entries, e.2.isEmpty = false

namespace Coverage

theorem ext_sets {a b : Coverage} (h : a.sets = b.sets) : a = b := by
  cases a; cases b; cases h; rfl

instance : DecidableEq Coverage :=
  fun a b => decidable_of_iff (a.sets = b.sets) ⟨ext_sets, fun h => h ▸ rfl⟩

/-- Leaves out the shards without instants. -/
def ofSets (m : SortedMap Shard TimeSet) : Coverage where
  sets := m.filter (fun _ s => !s.isEmpty)
  inhabited e he := by
    obtain ⟨d, _, hd⟩ := List.mem_filterMap.mp he
    obtain ⟨s, hs, rfl⟩ := Option.map_eq_some_iff.mp hd
    dsimp only at hs
    split at hs
    · cases hs
      rename_i h
      simpa using h
    · cases hs

end Coverage

/-- What is held with instants. -/
def ShardSets.coverage (c : ShardSets) : Coverage := .ofSets c.sets

namespace Coverage

def held (c : Coverage) : ShardSets := ⟨c.sets⟩

def empty : Coverage := ofSets .empty

instance : Inhabited Coverage := ⟨empty⟩

/-- The empty set for a shard that is not held. -/
def get (c : Coverage) (shard : Shard) : TimeSet := (c.sets.get? shard).getD .empty

/-- A shard together with an instant. -/
instance : Membership (Shard × Instant) Coverage where
  mem c p := p.2 ∈ c.get p.1

instance (p : Shard × Instant) (c : Coverage) : Decidable (p ∈ c) :=
  inferInstanceAs (Decidable (p.2 ∈ c.get p.1))

def isEmpty (c : Coverage) : Bool := c.sets.isEmpty

def shards (c : Coverage) : List Shard := c.sets.keys

def entries (c : Coverage) : List (Shard × TimeSet) := c.sets.entries

def set (c : Coverage) (shard : Shard) (s : TimeSet) : Coverage := (c.held.set shard s).coverage

def add (c : Coverage) (shard : Shard) (r : Interval) : Coverage := (c.held.add shard r).coverage

def addSet (c : Coverage) (shard : Shard) (s : TimeSet) : Coverage :=
  (c.held.addSet shard s).coverage

def ofShards (shards : List Shard) (r : Interval) : Coverage := shards.foldl (·.add · r) empty

def union (a b : Coverage) : Coverage := (a.held.union b.held).coverage

def diff (a b : Coverage) : Coverage := (a.held.diff b.held).coverage

def intersect (a b : Coverage) : Coverage := (a.held.intersect b.held).coverage

/-- Nothing of `b` is missing from `a`. -/
def covers (a b : Coverage) : Bool := (b.diff a).isEmpty

def restrict (c : Coverage) (shards : List Shard) : Coverage := (c.held.restrict shards).coverage

/-- The part of a request that was not reported missing. -/
def fulfilled (requested missing : Coverage) : Coverage := requested.diff missing

/-- How many intervals are held over all shards. -/
def size (c : Coverage) : Nat := c.sets.total TimeSet.size

/-- The least interval around every shard's instants. -/
def bounds (c : Coverage) : Option Interval :=
  match c.sets.values.filterMap TimeSet.bounds with
  | [] => none
  | r :: rest => some (rest.foldl Interval.hull r)

/-- Whole seconds, in the largest of hours, minutes and seconds that divides them. -/
def displayLength (d : Duration) : String :=
  let secs := d.tdiv Duration.second
  if secs.tmod 3600 = 0 then s!"{secs.tdiv 3600}h"
  else if secs.tmod 60 = 0 then s!"{secs.tdiv 60}m"
  else s!"{secs}s"

def displayWith (f : TimeSet → String) (c : Coverage) : String :=
  "\x7b" ++ ", ".intercalate (c.entries.map fun (shard, s) => s!"{shard}: " ++ f s) ++ "\x7d"

/-- How much time each shard covers. -/
def summary (c : Coverage) : String := c.displayWith (displayLength ·.length)

def display (c : Coverage) : String := c.displayWith TimeSet.display

end Coverage

end Backfill
