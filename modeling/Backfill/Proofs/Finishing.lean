import Backfill.Proofs.Gathering
import Backfill.Proofs.Segment

/-!
What becomes of the points that a replay has gathered: a block for every series and window whose
points can be encoded.
-/

namespace Backfill

def RecoveredData.block? (d : RecoveredData) (shard : Shard) (id : SeriesId) (start : Instant) :
    Option Block :=
  ((d.shards.get? shard).bind (·.series.get? id)).bind (·.blocks.get? start)

/-- Which block a bucket is for. -/
def Bucket.key (b : Bucket) : Shard × SeriesId × Instant := (b.shard, b.id, b.start)

namespace Replay

variable {r : Replay} {d d' : RecoveredData}

theorem mem_buckets {b : Bucket} : b ∈ r.buckets ↔ ∃ all g, r.series.get? b.shard = some all ∧
    all.get? b.id = some g ∧ g.tags = b.tags ∧ g.blocks.get? b.start = some b.points := by
  simp only [buckets, List.mem_flatMap, List.mem_map]
  constructor
  · intro h
    obtain ⟨⟨shard, all⟩, hs, ⟨id, g⟩, hi, ⟨start, points⟩, ht, rfl⟩ := h
    exact ⟨all, g, SortedMap.get?_eq_some_iff.mpr hs, SortedMap.get?_eq_some_iff.mpr hi, rfl,
      SortedMap.get?_eq_some_iff.mpr ht⟩
  · intro h
    obtain ⟨all, g, hs, hi, tags, ht⟩ := h
    refine ⟨(b.shard, all), SortedMap.get?_eq_some_iff.mp hs, (b.id, g),
      SortedMap.get?_eq_some_iff.mp hi, (b.start, b.points), SortedMap.get?_eq_some_iff.mp ht, ?_⟩
    rw [tags]

theorem held?_of_mem_buckets {b : Bucket} (h : b ∈ r.buckets) :
    r.held? b.shard b.id b.start = some b.points := by
  obtain ⟨all, g, hs, hi, _, ht⟩ := mem_buckets.mp h
  rw [held?, hs, Option.bind_some, hi, Option.bind_some, ht]

theorem exists_bucket {shard : Shard} {id : SeriesId} {start : Instant} {points : List Point}
    (h : r.held? shard id start = some points) :
    ∃ b ∈ r.buckets, b.key = (shard, id, start) ∧ b.points = points := by
  obtain ⟨g, hg, ht⟩ := Option.bind_eq_some_iff.mp h
  obtain ⟨all, hs, hi⟩ := Option.bind_eq_some_iff.mp hg
  exact ⟨⟨shard, id, g.tags, start, points⟩, mem_buckets.mpr ⟨all, g, hs, hi, rfl, ht⟩, rfl, rfl⟩

theorem buckets_distinct (r : Replay) : r.buckets.Pairwise (·.key ≠ ·.key) := by
  rw [buckets, List.pairwise_flatMap]
  refine ⟨fun (shard, all) _ => ?_, r.series.ascending.imp fun {x y} hlt b hb c hc => ?_⟩
  · rw [List.pairwise_flatMap]
    refine ⟨fun (id, g) _ => ?_, all.ascending.imp fun {x y} hlt b hb c hc => ?_⟩
    · rw [List.pairwise_map]
      refine g.blocks.ascending.imp fun {x y} hlt same => ?_
      have start : x.1 = y.1 := congrArg (·.2.2) same
      rw [start] at hlt
      exact KeyOrder.irrefl _ hlt
    · obtain ⟨_, _, rfl⟩ := List.mem_map.mp hb
      obtain ⟨_, _, rfl⟩ := List.mem_map.mp hc
      intro same
      have id : x.1 = y.1 := congrArg (·.2.1) same
      rw [id] at hlt
      exact KeyOrder.irrefl _ hlt
  · obtain ⟨_, _, hb⟩ := List.mem_flatMap.mp hb
    obtain ⟨_, _, rfl⟩ := List.mem_map.mp hb
    obtain ⟨_, _, hc⟩ := List.mem_flatMap.mp hc
    obtain ⟨_, _, rfl⟩ := List.mem_map.mp hc
    intro same
    have shard : x.1 = y.1 := congrArg (·.1) same
    rw [shard] at hlt
    exact KeyOrder.irrefl _ hlt

theorem block?_addBlock (m : SortedMap Shard ShardData) (b : Bucket) (block : Block) (shard : Shard)
    (id : SeriesId) (start : Instant) :
    (((m.update b.shard .empty (·.addBlock b.id b.tags b.start block)).get? shard).bind
        (·.series.get? id)).bind (·.blocks.get? start) =
      if b.key = (shard, id, start) then some block
      else ((m.get? shard).bind (·.series.get? id)).bind (·.blocks.get? start) := by
  rw [SortedMap.get?_update, Bucket.key]
  by_cases hs : shard = b.shard
  · subst hs
    by_cases hi : id = b.id
    · subst hi
      by_cases ht : start = b.start
      · subst ht
        simp [ShardData.addBlock, Series.addBlock]
      · cases m.get? b.shard with
        | none => simp [ShardData.addBlock, Series.addBlock, ShardData.empty, Series.ofTags, ht,
            Ne.symm ht]
        | some all =>
          cases h : all.series.get? b.id <;>
            simp [ShardData.addBlock, Series.addBlock, Series.ofTags, h, ht, Ne.symm ht]
    · cases m.get? b.shard <;> simp [ShardData.addBlock, ShardData.empty, hi, Ne.symm hi]
  · simp [hs, Ne.symm hs]

theorem closeBucket_ok {b : Bucket} (h : r.closeBucket d b = .ok d') :
    (d'.block? b.shard b.id b.start =
      (Block.encode b.points).toOption.or (d.block? b.shard b.id b.start)) ∧
    ∀ shard id start, b.key ≠ (shard, id, start) → d'.block? shard id start =
      d.block? shard id start := by
  unfold closeBucket at h
  split at h
  · rename_i block hb
    cases h
    rw [hb]
    refine ⟨(block?_addBlock ..).trans (if_pos rfl), fun shard id start other => ?_⟩
    exact (block?_addBlock ..).trans (if_neg other)
  · rename_i e he
    obtain ⟨block, _, rfl⟩ := map_eq_ok.mp h
    rw [he]
    exact ⟨rfl, fun _ _ _ _ => rfl⟩

theorem finishData_ok {missAll : Bool} (h : r.finishData missAll = .ok d) (shard : Shard)
    (id : SeriesId) (start : Instant) :
    d.block? shard id start =
      (r.held? shard id start).bind fun points => (Block.encode points).toOption := by
  obtain ⟨m, hm, h⟩ := bind_eq_ok.mp h
  obtain ⟨_, closed, others⟩ := foldlM_keyed (fun _ => True) Bucket.key
    (fun (d : RecoveredData) k => d.block? k.1 k.2.1 k.2.2)
    (fun b old new => new = (Block.encode b.points).toOption.or old)
    (fun b _ s s' _ hs => ⟨trivial, (closeBucket_ok hs).1, fun k hk => (closeBucket_ok hs).2 _ _ _ hk⟩)
    r.buckets_distinct trivial hm
  have same : d.block? shard id start = m.block? shard id start := by
    cases missAll <;> cases h <;> rfl
  have nothing (shard : Shard) (id : SeriesId) (start : Instant) :
      RecoveredData.block? ⟨.empty, r.missingData⟩ shard id start = none := rfl
  rw [same]
  cases hp : r.held? shard id start with
  | some points =>
    obtain ⟨b, hb, hk, rfl⟩ := exists_bucket hp
    cases hk
    apply (closed b hb).trans
    rw [nothing, Option.or_none, Option.bind_some]
  | none =>
    refine (others (shard, id, start) fun b hb hk => ?_).trans (nothing shard id start)
    cases hk
    rw [held?_of_mem_buckets hb] at hp
    cases hp

end Replay

end Backfill
