import Backfill.Coverage
import Backfill.Proofs.TimeSet
import Backfill.SortedMap.Lemmas

/-!
What each operation does to the instants of each shard, held with instants or without.
-/

namespace Backfill.ShardSets

theorem timesOf_eq_get? (c : ShardSets) (shard : Shard) :
    c.timesOf shard = (c.get? shard).getD .empty := by
  rw [timesOf, get?]
  cases c.sets.get? shard with
  | none => rfl
  | some s =>
    cases h : s.isEmpty with
    | false => simp [Option.filter, h]
    | true =>
      rw [TimeSet.eq_empty_of_isEmpty h]
      rfl

theorem get?_retained (c : ShardSets) (shard : Shard) :
    c.retained.sets.get? shard = c.get? shard := SortedMap.get?_filter ..

@[simp] theorem timesOf_retained (c : ShardSets) (shard : Shard) :
    c.retained.timesOf shard = c.timesOf shard := by
  rw [timesOf, get?_retained, timesOf_eq_get?]

theorem entries_retained (c : ShardSets) : c.retained.sets.entries = c.entries := by
  have kept : (fun e : Shard × TimeSet =>
      (if !e.2.isEmpty then some e.2 else none).map (e.1, ·)) = Option.guard (!·.2.isEmpty) := by
    funext e
    cases h : e.2.isEmpty <;> simp [Option.guard, h]
  exact (congrArg (List.filterMap · c.sets.entries) kept).trans
    (congrFun List.filterMap_eq_filter _)

theorem lookup_entries (c : ShardSets) (shard : Shard) :
    SortedMap.lookup shard c.entries = c.get? shard := by
  rw [← entries_retained, ← get?_retained, SortedMap.get?]

theorem entries_ascending (c : ShardSets) : c.entries.Pairwise (·.1 < ·.1) :=
  c.sets.ascending.filter _

theorem mem_entries {c : ShardSets} {e : Shard × TimeSet} :
    e ∈ c.entries ↔ c.get? e.1 = some e.2 := by
  rw [← lookup_entries, SortedMap.lookup_eq_some_iff c.entries_ascending]

@[simp] theorem timesOf_empty (shard : Shard) : empty.timesOf shard = .empty := rfl

@[simp] theorem timesOf_set (c : ShardSets) (shard other : Shard) (s : TimeSet) :
    (c.set shard s).timesOf other = if other = shard then s else c.timesOf other := by
  rw [timesOf, set, SortedMap.get?_insert]
  split <;> rfl

@[simp] theorem timesOf_add (c : ShardSets) (shard other : Shard) (r : Interval) :
    (c.add shard r).timesOf other =
      if other = shard then (c.timesOf shard).add r else c.timesOf other := by
  rw [timesOf, add, SortedMap.get?_update]
  split <;> rfl

@[simp] theorem timesOf_addSet (c : ShardSets) (shard other : Shard) (s : TimeSet) :
    (c.addSet shard s).timesOf other =
      if other = shard then (c.timesOf shard).union s else c.timesOf other := by
  rw [timesOf, addSet, SortedMap.get?_update]
  split <;> rfl

/-- Taking in the entries of `b` is altering what is held for each of its shards. -/
theorem sets_foldl (f : ShardSets → Shard → TimeSet → ShardSets)
    (g : Option TimeSet → TimeSet → Option TimeSet)
    (step : ∀ c shard s, (f c shard s).sets = c.sets.alter shard (g · s)) (a b : ShardSets)
    (shard : Shard) :
    (b.entries.foldl (fun c e => f c e.1 e.2) a).sets.get? shard =
      (b.get? shard).elim (a.sets.get? shard) (g (a.sets.get? shard)) := by
  have same : (b.entries.foldl (fun c e => f c e.1 e.2) a).sets =
      b.entries.foldl (fun m e => m.alter e.1 (g · e.2)) a.sets :=
    (List.foldl_hom sets fun c e => (step c e.1 e.2).symm).symm
  rw [same, SortedMap.get?_foldl_alter g b.entries_ascending, lookup_entries]
  cases b.get? shard <;> rfl

@[simp] theorem timesOf_union (a b : ShardSets) (shard : Shard) :
    (a.union b).timesOf shard = (a.timesOf shard).union (b.timesOf shard) := by
  rw [timesOf_eq_get? b, union, timesOf, sets_foldl addSet _ fun _ _ _ => rfl]
  cases b.get? shard <;> rfl

@[simp] theorem timesOf_diff (a b : ShardSets) (shard : Shard) :
    (a.diff b).timesOf shard = (a.timesOf shard).diff (b.timesOf shard) := by
  rw [diff, timesOf_retained, timesOf_eq_get? b, timesOf,
    sets_foldl removeSet (fun o s => o.map (·.diff s)) fun _ _ _ => rfl]
  cases b.get? shard with
  | none => rfl
  | some s =>
    rw [timesOf]
    cases a.sets.get? shard with
    | none => exact (TimeSet.empty_diff s).symm
    | some _ => rfl

theorem get?_setSome (c : ShardSets) (shard other : Shard) (s : Option TimeSet) :
    (c.setSome shard s).sets.get? other =
      if other = shard then s.or (c.sets.get? other) else c.sets.get? other := by
  cases s with
  | none => simp [setSome]
  | some s => simp [setSome, set]

/-- Of each shard that is named the same set is put in, however often it is named. -/
theorem get?_foldl_setSome {β : Type} {k : β → Shard} {f : β → Option TimeSet}
    {g : Shard → Option TimeSet} {l : List β} (same : ∀ e ∈ l, f e = g (k e)) (c : ShardSets)
    (shard : Shard) :
    (l.foldl (fun c e => c.setSome (k e) (f e)) c).sets.get? shard =
      if ∃ e ∈ l, k e = shard then (g shard).or (c.sets.get? shard)
      else c.sets.get? shard := by
  induction l generalizing c with
  | nil => simp
  | cons e l ih =>
    rw [List.foldl_cons, ih (fun d hd => same d (List.mem_cons_of_mem _ hd)), get?_setSome,
      same e List.mem_cons_self]
    have named : (∃ d ∈ e :: l, k d = shard) ↔ k e = shard ∨ ∃ d ∈ l, k d = shard := by simp
    simp only [named]
    by_cases here : k e = shard
    · subst here
      simp only [↓reduceIte, true_or, ← Option.or_assoc, Option.or_self, ite_self]
    · simp only [Ne.symm here, here, ↓reduceIte, false_or]

theorem getD_filter_isEmpty (o : Option TimeSet) :
    (o.filter (!·.isEmpty)).getD .empty = o.getD .empty := by
  cases o with
  | none => rfl
  | some s =>
    cases h : s.isEmpty with
    | false => simp [Option.filter, h]
    | true =>
      rw [TimeSet.eq_empty_of_isEmpty h]
      rfl

theorem get?_intersect (a b : ShardSets) (shard : Shard) :
    (a.intersect b).sets.get? shard = (a.get? shard).bind (b.common? shard) := by
  rw [intersect, get?_foldl_setSome
    (g := fun shard => (a.get? shard).bind (b.common? shard))
    fun e he => by rw [mem_entries.mp he]; rfl]
  split
  · exact Option.or_none
  · rename_i absent
    cases held : a.get? shard with
    | none => rfl
    | some s => exact absurd ⟨(shard, s), mem_entries.mpr held, rfl⟩ absent

theorem get?_restrict (c : ShardSets) (shards : List Shard) (shard : Shard) :
    (c.restrict shards).sets.get? shard = if shard ∈ shards then c.get? shard else none := by
  apply (get?_foldl_setSome (k := id) (f := c.get?) (g := c.get?) (l := shards) (fun _ _ => rfl)
    empty shard).trans
  simp only [id_eq, exists_eq_right]
  split
  · exact Option.or_none
  · rfl

@[simp] theorem timesOf_restrict (c : ShardSets) (shards : List Shard) (shard : Shard) :
    (c.restrict shards).timesOf shard = if shard ∈ shards then c.timesOf shard else .empty := by
  rw [timesOf, get?_restrict, timesOf_eq_get?]
  split <;> rfl

end Backfill.ShardSets
