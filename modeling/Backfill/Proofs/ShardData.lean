import Backfill.Proofs.Recovery

/-!
Merging series data: what comes later stays, and nothing is gained by merging twice.
-/

namespace Backfill

theorem SortedMap.isEmpty_iff {κ α : Type} [LT κ] [DecidableEq κ] [KeyOrder κ]
    {m : SortedMap κ α} : m.isEmpty = true ↔ ∀ k, m.get? k = none := by
  rw [isEmpty, List.isEmpty_iff]
  constructor
  · intro h k
    rw [get?, h]
    rfl
  · intro h
    cases he : m.entries with
    | nil => rfl
    | cons e l =>
      have held : m.get? e.1 = some e.2 := get?_eq_some_iff.mpr (he ▸ List.mem_cons_self)
      rw [h] at held
      cases held

namespace Series

theorem merge_assoc (a b c : Series) : (a.merge b).merge c = a.merge (b.merge c) :=
  congrArg (Series.mk a.tags) (SortedMap.unionWith_assoc fun _ _ _ _ _ _ _ => rfl)

theorem merge_self (a : Series) : a.merge a = a :=
  congrArg (Series.mk a.tags) (SortedMap.unionWith_self fun _ _ _ => rfl)

end Series

namespace ShardData

theorem merge_assoc (a b c : ShardData) : (a.merge b).merge c = a.merge (b.merge c) :=
  congrArg ShardData.mk (SortedMap.unionWith_assoc fun _ x y z _ _ _ => x.merge_assoc y z)

theorem merge_self (a : ShardData) : a.merge a = a :=
  congrArg ShardData.mk (SortedMap.unionWith_self fun _ x _ => x.merge_self)

theorem merge_merge (a b : ShardData) : (a.merge b).merge b = a.merge b := by
  rw [merge_assoc, merge_self]

theorem empty_merge (a : ShardData) : empty.merge a = a :=
  congrArg ShardData.mk (SortedMap.empty_unionWith _ _)

theorem merge_of_isEmpty {a b : ShardData} (h : b.isEmpty = true) : a.merge b = a := by
  have hs : a.series.unionWith Series.merge b.series = a.series := by
    ext1 id
    rw [SortedMap.get?_unionWith, SortedMap.isEmpty_iff.mp h id]
  simp [merge, hs]

theorem isEmpty_merge {a b : ShardData} (h : b.isEmpty = false) : (a.merge b).isEmpty = false := by
  rw [Bool.eq_false_iff] at h ⊢
  intro hm
  refine h (SortedMap.isEmpty_iff.mpr fun id => ?_)
  have hu := SortedMap.isEmpty_iff.mp hm id
  rw [merge, SortedMap.get?_unionWith] at hu
  cases hb : b.series.get? id with
  | none => rfl
  | some y =>
    rw [hb] at hu
    cases hu

end ShardData

namespace RecoveredData

/-- What is held for a shard. -/
def held (r : RecoveredData) (shard : Shard) : ShardData := (r.shards.get? shard).getD .empty

/-- No shard is held without series. -/
def Filled (r : RecoveredData) : Prop := ∀ shard d, r.shards.get? shard = some d → d.isEmpty = false

theorem Filled.get?_eq {r : RecoveredData} (h : r.Filled) (shard : Shard) :
    r.shards.get? shard = if (r.held shard).isEmpty then none else some (r.held shard) := by
  rw [held]
  cases hd : r.shards.get? shard with
  | none => rfl
  | some d => simp [h shard d hd]

theorem held_addShard (r : RecoveredData) (shard other : Shard) (d : ShardData) :
    (r.addShard shard d).held other =
      if other = shard then (r.held shard).merge d else r.held other := by
  rw [addShard]
  split
  · rename_i h
    split
    · rename_i eq
      rw [eq, ShardData.merge_of_isEmpty h]
    · rfl
  · rw [held, SortedMap.get?_update]
    split <;> rfl

theorem addShard_missing (r : RecoveredData) (shard : Shard) (d : ShardData) :
    (r.addShard shard d).missing = r.missing := by
  rw [addShard]
  split <;> rfl

theorem Filled.addShard {r : RecoveredData} (h : r.Filled) (shard : Shard) (d : ShardData) :
    (r.addShard shard d).Filled := by
  intro other e he
  rw [RecoveredData.addShard] at he
  split at he
  · exact h other e he
  · rename_i hd
    rw [SortedMap.get?_update] at he
    split at he
    · cases he
      exact ShardData.isEmpty_merge (Bool.eq_false_iff.mpr hd)
    · exact h other e he

end RecoveredData

end Backfill
