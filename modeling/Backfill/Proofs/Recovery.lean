import Mathlib.Data.List.Nodup
import Backfill.Proofs.Coverage
import Backfill.Source

/-!
Recoveries seen through what they hold for a namespace, and requests for namespaces of their own.
-/

namespace Backfill.Recoveries

@[simp] theorem get?_empty (id : NamespaceId) : empty.get? id = none := rfl

@[simp] theorem get?_insert (r : Recoveries) (id other : NamespaceId) (new : Recovery) :
    (r.insert id new).get? other =
      if other = id then some ((r.get? id).elim new (·.merge new)) else r.get? other :=
  SortedMap.get?_alter ..

@[simp] theorem get?_modify (r : Recoveries) (id other : NamespaceId) (f : Recovery → Recovery) :
    (r.modify id f).get? other = if other = id then (r.get? id).map f else r.get? other :=
  SortedMap.get?_alter ..

end Backfill.Recoveries

namespace Backfill.Request

theorem distinct_single (r : Request) : ([r].map (·.id)).Nodup := List.nodup_singleton _

variable {requests : List Request} (distinct : (requests.map (·.id)).Nodup)

include distinct

theorem distinct_filter (p : Request → Bool) : (requests.filter p).Pairwise (·.id ≠ ·.id) :=
  (List.pairwise_map.mp distinct).filter p

/-- Nobody else asks under the same name. -/
theorem apart_filter {r : Request} (hr : r ∈ requests) {p : Request → Bool} (hp : p r = false) :
    ∀ s ∈ requests.filter p, s.id ≠ r.id := by
  intro s hs eq
  obtain ⟨hs, hps⟩ := List.mem_filter.mp hs
  cases List.inj_on_of_nodup_map distinct hs hr eq
  rw [hp] at hps
  cases hps

end Backfill.Request
