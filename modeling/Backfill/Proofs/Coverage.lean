import Backfill.Proofs.ShardSets

/-!
Coverages as sets of pairs of a shard and an instant: each operation shard by shard, and what it
does to membership.
-/

namespace Backfill.Coverage

theorem mem_def {c : Coverage} {shard : Shard} {t : Instant} :
    (shard, t) ∈ c ↔ t ∈ c.get shard := Iff.rfl

/-- Every shard's set is canonical. -/
def Canonical (c : Coverage) : Prop := ∀ shard, (c.get shard).Canonical

@[simp] theorem get_coverage (m : ShardSets) (shard : Shard) :
    m.coverage.get shard = m.timesOf shard := m.timesOf_retained shard

@[simp] theorem timesOf_held (c : Coverage) (shard : Shard) : c.held.timesOf shard = c.get shard :=
  rfl

theorem get_of_mem_entries {c : Coverage} {e : Shard × TimeSet} (h : e ∈ c.entries) :
    c.get e.1 = e.2 := by
  rw [get, SortedMap.get?_eq_some_iff.mpr h]
  rfl

theorem get_of_not_mem_entries {c : Coverage} {shard : Shard} (h : ∀ e ∈ c.entries, e.1 ≠ shard) :
    c.get shard = .empty := by
  rw [get]
  cases hs : c.sets.get? shard with
  | none => rfl
  | some s => exact absurd rfl (h (shard, s) (SortedMap.get?_eq_some_iff.mp hs))

theorem eq_empty_of_isEmpty {c : Coverage} (h : c.isEmpty = true) : c = empty :=
  ext_sets (SortedMap.ext_entries (List.isEmpty_iff.mp h))

theorem get_of_isEmpty {c : Coverage} (h : c.isEmpty = true) (shard : Shard) :
    c.get shard = .empty := by
  rw [eq_empty_of_isEmpty h]
  exact get_of_not_mem_entries fun e he => by cases he

/-- A shard with instants is held. -/
theorem exists_entry {c : Coverage} {p : Shard × Instant} (h : p ∈ c) :
    ∃ e ∈ c.entries, e.1 = p.1 := by
  have h : p.2 ∈ (c.sets.get? p.1).getD .empty := h
  cases hs : c.sets.get? p.1 with
  | none =>
    rw [hs] at h
    exact absurd h (TimeSet.not_mem_empty p.2)
  | some s => exact ⟨(p.1, s), SortedMap.get?_eq_some_iff.mp hs, rfl⟩

@[simp] theorem get_empty (shard : Shard) : empty.get shard = .empty := rfl

@[simp] theorem get_set (c : Coverage) (shard other : Shard) (s : TimeSet) :
    (c.set shard s).get other = if other = shard then s else c.get other := by
  simp [set]

@[simp] theorem get_add (c : Coverage) (shard other : Shard) (r : Interval) :
    (c.add shard r).get other =
      if other = shard then (c.get shard).add r else c.get other := by
  simp [add]

@[simp] theorem get_addSet (c : Coverage) (shard other : Shard) (s : TimeSet) :
    (c.addSet shard s).get other =
      if other = shard then (c.get shard).union s else c.get other := by
  simp [addSet]

@[simp] theorem get_union (a b : Coverage) (shard : Shard) :
    (a.union b).get shard = (a.get shard).union (b.get shard) := by
  simp [union]

@[simp] theorem get_diff (a b : Coverage) (shard : Shard) :
    (a.diff b).get shard = (a.get shard).diff (b.get shard) := by
  simp [diff]

@[simp] theorem not_mem_empty (p : Shard × Instant) : p ∉ empty := by
  intro h
  rw [mem_def, get_empty] at h
  exact TimeSet.not_mem_empty p.2 h

@[simp] theorem mem_diff {a b : Coverage} {p : Shard × Instant} :
    p ∈ a.diff b ↔ p ∈ a ∧ p ∉ b := by
  obtain ⟨shard, t⟩ := p
  rw [mem_def, get_diff, TimeSet.mem_diff, mem_def, mem_def]

/-- What was asked for and not reported missing. -/
@[simp] theorem mem_fulfilled {requested missing : Coverage} {p : Shard × Instant} :
    p ∈ requested.fulfilled missing ↔ p ∈ requested ∧ p ∉ missing := mem_diff

theorem mem_add {c : Coverage} (h : c.Canonical) {shard : Shard} {r : Interval}
    {p : Shard × Instant} : p ∈ c.add shard r ↔ p ∈ c ∨ p.1 = shard ∧ p.2 ∈ r := by
  obtain ⟨other, t⟩ := p
  simp only [mem_def, get_add]
  split
  · rename_i eq
    subst eq
    simp [TimeSet.mem_add (h other)]
  · rename_i ne
    simp [ne]

theorem mem_set_empty {shard : Shard} {s : TimeSet} {p : Shard × Instant} :
    p ∈ empty.set shard s ↔ p.1 = shard ∧ p.2 ∈ s := by
  obtain ⟨other, t⟩ := p
  simp only [mem_def, get_set, get_empty]
  split
  · rename_i eq
    simp [eq]
  · rename_i ne
    simp [ne]

theorem mem_addSet {c : Coverage} (h : c.Canonical) {shard : Shard} {s : TimeSet}
    {p : Shard × Instant} : p ∈ c.addSet shard s ↔ p ∈ c ∨ p.1 = shard ∧ p.2 ∈ s := by
  obtain ⟨other, t⟩ := p
  simp only [mem_def, get_addSet]
  split
  · rename_i eq
    subst eq
    simp [TimeSet.mem_union (h other)]
  · rename_i ne
    simp [ne]

theorem mem_union {a b : Coverage} (h : a.Canonical) {p : Shard × Instant} :
    p ∈ a.union b ↔ p ∈ a ∨ p ∈ b := by
  obtain ⟨shard, t⟩ := p
  rw [mem_def, get_union, TimeSet.mem_union (h shard), mem_def, mem_def]

theorem Canonical.empty : Coverage.empty.Canonical := by
  intro shard
  rw [get_empty]
  exact .empty

theorem Canonical.add {c : Coverage} (h : c.Canonical) (shard : Shard) (r : Interval) :
    (c.add shard r).Canonical := by
  intro other
  rw [get_add]
  split
  · exact (h shard).add r
  · exact h other

theorem Canonical.addSet {c : Coverage} (h : c.Canonical) (shard : Shard) (s : TimeSet) :
    (c.addSet shard s).Canonical := by
  intro other
  rw [get_addSet]
  split
  · exact (h shard).union s
  · exact h other

theorem Canonical.union {a : Coverage} (h : a.Canonical) (b : Coverage) :
    (a.union b).Canonical := by
  intro shard
  rw [get_union]
  exact (h shard).union _

theorem ext_get {a b : Coverage} (h : ∀ shard, a.get shard = b.get shard) : a = b := by
  have held (c : Coverage) (shard : Shard) :
      c.sets.get? shard = if (c.get shard).isEmpty then none else some (c.get shard) := by
    rw [get]
    cases hs : c.sets.get? shard with
    | none => rfl
    | some s =>
      have some : s.isEmpty = false := c.inhabited (shard, s) (SortedMap.get?_eq_some_iff.mp hs)
      simp [some]
  apply ext_sets
  ext1 shard
  rw [held, held, h]

/-- Where nothing was asked nothing is done. -/
@[simp] theorem empty_fulfilled (missing : Coverage) : empty.fulfilled missing = empty :=
  ext_get fun shard => by simp [fulfilled]

/-- A canonical coverage is the only one with its members. -/
theorem Canonical.ext {a b : Coverage} (ha : a.Canonical) (hb : b.Canonical)
    (h : ∀ p, p ∈ a ↔ p ∈ b) : a = b :=
  ext_get fun shard => (ha shard).ext (hb shard) fun t => h (shard, t)

end Backfill.Coverage
