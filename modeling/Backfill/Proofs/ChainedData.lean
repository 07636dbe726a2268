import Backfill.Proofs.Conservation
import Backfill.Proofs.Finishing
import Backfill.Proofs.Points
import Backfill.Proofs.ShardData

/-!
What becomes of the blocks that the sources of a chain bring. Recoveries merge container by
container, and of two blocks of a series with one start the later takes the place of the earlier,
so a point is only safe while no later source brings a block with the same start.
-/

namespace Backfill

theorem Series.blocks_merge (a b : Series) (start : Instant) :
    (a.merge b).blocks.get? start = (b.blocks.get? start).or (a.blocks.get? start) := by
  rw [merge, SortedMap.get?_unionWith]
  cases b.blocks.get? start with
  | none => rfl
  | some new => cases a.blocks.get? start <;> rfl

namespace ShardData

def block? (d : ShardData) (id : SeriesId) (start : Instant) : Option Block :=
  (d.series.get? id).bind (·.blocks.get? start)

theorem block?_merge (a b : ShardData) (id : SeriesId) (start : Instant) :
    (a.merge b).block? id start = (b.block? id start).or (a.block? id start) := by
  rw [block?, block?, block?, merge, SortedMap.get?_unionWith]
  cases b.series.get? id with
  | none => rfl
  | some new =>
    cases a.series.get? id with
    | none => simp
    | some old => exact old.blocks_merge new start

end ShardData

namespace RecoveredData

theorem block?_eq (d : RecoveredData) (shard : Shard) (id : SeriesId) (start : Instant) :
    d.block? shard id start = (d.held shard).block? id start := by
  rw [block?, held]
  cases d.shards.get? shard <;> rfl

theorem held_merge (a b : RecoveredData) (shard : Shard) :
    (a.merge b).held shard = (a.held shard).merge (b.held shard) := by
  obtain ⟨here, others⟩ := foldl_keyed (f := fun (d : RecoveredData) (e : Shard × ShardData) =>
      d.addShard e.1 e.2) (·.1) RecoveredData.held (fun e old => old.merge e.2)
    (fun e d => ⟨by rw [held_addShard, if_pos rfl],
      fun other apart => by rw [held_addShard, if_neg (Ne.symm apart)]⟩)
    b.shards.keys_distinct a
  apply Eq.trans (show (a.merge b).held shard =
    (b.shards.entries.foldl (fun d e => d.addShard e.1 e.2) a).held shard from rfl)
  cases hb : b.shards.get? shard with
  | some d =>
    rw [here (shard, d) (SortedMap.get?_eq_some_iff.mp hb), held, held, hb]
    rfl
  | none =>
    rw [others shard, held, held, hb, ShardData.merge_of_isEmpty rfl]
    rintro ⟨other, d⟩ he rfl
    rw [SortedMap.get?_eq_some_iff.mpr he] at hb
    cases hb

theorem block?_merge (a b : RecoveredData) (shard : Shard) (id : SeriesId) (start : Instant) :
    (a.merge b).block? shard id start =
      (b.block? shard id start).or (a.block? shard id start) := by
  rw [block?_eq, held_merge, ShardData.block?_merge, block?_eq, block?_eq]

end RecoveredData

/-- Where a block is kept. -/
structure BlockKey where
  namespaceId : NamespaceId
  shard : Shard
  id : SeriesId
  start : Instant

namespace Recoveries

def block? (m : Recoveries) (k : BlockKey) : Option Block :=
  (m.get? k.namespaceId).bind (·.data.block? k.shard k.id k.start)

theorem block?_merge (a b : Recoveries) (k : BlockKey) :
    (a.merge b).block? k = (b.block? k).or (a.block? k) := by
  rw [block?, block?, block?, get?, merge, SortedMap.get?_unionWith]
  simp only [get?]
  cases b.byId.get? k.namespaceId with
  | none => rfl
  | some new =>
    cases a.byId.get? k.namespaceId with
    | none => simp
    | some old => exact old.data.block?_merge new.data k.shard k.id k.start

end Recoveries

namespace Chain

variable {sources : List Source} {requests left : List Request} {merged last : Recoveries}

/-- The block that the source of a round brought. -/
def Round.block? (round : Round) (k : BlockKey) : Option Block :=
  round.read.outcome.toOption.bind (·.block? k)

/-- Saying what is missing in the end leaves the blocks alone. -/
theorem block?_conclude (merged : Recoveries) (left : Request) (k : BlockKey) :
    (conclude merged left).block? k = merged.block? k := by
  rw [Recoveries.block?, get?_conclude, Recoveries.block?]
  split
  · rename_i here
    rw [here]
    cases merged.get? left.id <;> rfl
  · rfl

theorem block?_foldl_conclude (left : List Request) (merged : Recoveries) (k : BlockKey) :
    (left.foldl conclude merged).block? k = merged.block? k := by
  induction left generalizing merged with
  | nil => rfl
  | cons r left ih => rw [List.foldl_cons, ih, block?_conclude]

theorem runFrom_block? (h : (runFrom sources left merged).outcome = .ok last) (k : BlockKey) :
    last.block? k =
      (((runFrom sources left merged).rounds.filterMap (·.block? k)).getLast?).or
        (merged.block? k) := by
  induction sources generalizing left merged with
  | nil =>
    cases h
    exact block?_foldl_conclude left merged k
  | cons s rest ih =>
    simp only [runFrom] at h ⊢
    split at h
    · cases h
    · rename_i asked hasked
      split at h
      · cases h
      · rename_i found hfound
        have here : Round.block? ⟨left, asked, s.read asked⟩ k = found.block? k := by
          simp [Round.block?, hfound, Except.toOption]
        simp only [List.filterMap_cons, here]
        rw [ih h, Recoveries.block?_merge]
        cases found.block? k with
        | none => rfl
        | some b =>
          rw [List.getLast?_cons]
          cases ((runFrom rest (List.zipWith (settle found) left asked)
            (merged.merge found)).rounds.filterMap (·.block? k)).getLast? <;> rfl

/-- In the end each block is that of the last source that brought one. -/
theorem run_block? (h : (run sources requests).outcome = .ok last) (k : BlockKey) :
    last.block? k = ((run sources requests).rounds.filterMap (·.block? k)).getLast? := by
  rw [run, runFrom_block? h, show Recoveries.empty.block? k = none from rfl, Option.or_none]

/-- A point that a source brings is there in the end, as long as every later source that brings the
same block brings the point as well. -/
theorem run_keeps_point (h : (run sources requests).outcome = .ok last) {k : BlockKey} {n : Nat}
    {round : Round} (hn : (run sources requests).rounds[n]? = some round) {b : Block}
    (brought : round.block? k = some b) {t : Instant} (has : b.HasPoint k.start t)
    (again : ∀ later ∈ (run sources requests).rounds.drop (n + 1), ∀ b',
      later.block? k = some b' → b'.HasPoint k.start t) :
    ∃ b', last.block? k = some b' ∧ b'.HasPoint k.start t := by
  have split : (run sources requests).rounds.filterMap (·.block? k) =
      ((run sources requests).rounds.take n).filterMap (·.block? k) ++
        b :: ((run sources requests).rounds.drop (n + 1)).filterMap (·.block? k) := by
    obtain ⟨bound, rfl⟩ := List.getElem?_eq_some_iff.mp hn
    conv => lhs; rw [← List.take_append_drop n (run sources requests).rounds]
    rw [List.filterMap_append, List.drop_eq_getElem_cons bound, List.filterMap_cons, brought]
  rw [run_block? h, split, List.getLast?_append, List.getLast?_cons, Option.some_or]
  refine ⟨_, rfl, ?_⟩
  cases hlast :
      (((run sources requests).rounds.drop (n + 1)).filterMap (·.block? k)).getLast? with
  | none => exact has
  | some b' =>
    obtain ⟨later, hl, hb⟩ := List.mem_filterMap.mp (List.mem_of_getLast? hlast)
    exact again later hl b' hb

/-- Brings one block of one series, and reports the given ranges missing. -/
def bringing (start : Instant) (points : List Point) (missing : Coverage) : Source where
  name := "bringing"
  availableData _ _ ranges _ := .ok ranges
  availableIndex _ _ ranges _ := .ok ranges
  read requests :=
    let block := (Block.encode points).toOption.getD ⟨[], 0⟩
    .pure <| requests.foldl (fun m r => m.insert r.id { r.recovery with
      data := ⟨SortedMap.empty.insert 0 (ShardData.empty.addBlock [1] .empty start block),
        missing⟩ }) .empty

/-- The second source brings the block again, with the point of the first. -/
theorem run_keeps_point_again :
    let at_ (t : Instant) : Point := ⟨t, ⟨0, .second, none⟩⟩
    let policy : Policy := ⟨{ blockSize := 10 }, by decide, by decide⟩
    let options : RunOptions := ⟨{}, .ofOrigin [] 0⟩
    let request : Request :=
      ⟨[7], policy, [0], none, ⟨.ofShards [0] ⟨0, 10⟩, options⟩, ⟨.empty, options⟩⟩
    let first := bringing 0 [at_ 1] (Coverage.empty.add 0 ⟨5, 10⟩)
    let second := bringing 0 [at_ 1, at_ 7] .empty
    ∃ last, (run [first, second] [request]).outcome = .ok last ∧
      ∃ b, last.block? ⟨[7], 0, [1], 0⟩ = some b ∧ b.HasPoint 0 1 := by
  intro at_ policy options request first second
  have ends : (run [first, second] [request]).outcome.toOption.isSome = true := by
    decide +kernel
  have brought : ∃ b, ((run [first, second] [request]).rounds[0]?.bind
      (·.block? ⟨[7], 0, [1], 0⟩)) = some b ∧ b.HasPoint 0 1 :=
    ⟨(Block.encode [at_ 1]).toOption.getD ⟨[], 0⟩, by decide +kernel, by decide +kernel⟩
  have again : ∀ b ∈ (((run [first, second] [request]).rounds.drop 1).filterMap
      (·.block? ⟨[7], 0, [1], 0⟩)), b.HasPoint 0 1 := by
    decide +kernel
  cases ok : (run [first, second] [request]).outcome with
  | error e =>
    rw [ok] at ends
    cases ends
  | ok last =>
    obtain ⟨b, held, has⟩ := brought
    obtain ⟨round, here, brought⟩ := Option.bind_eq_some_iff.mp held
    refine ⟨last, rfl, run_keeps_point ok here brought has fun later hl b' hb => ?_⟩
    exact again b' (List.mem_filterMap.mpr ⟨later, hl, hb⟩)

/-- Each of two sources reads one half of a block. The half of the first was given, and is gone in
the end. -/
theorem run_loses_half :
    let at_ (t : Instant) : Point := ⟨t, ⟨0, .second, none⟩⟩
    let policy : Policy := ⟨{ blockSize := 10 }, by decide, by decide⟩
    let options : RunOptions := ⟨{}, .ofOrigin [] 0⟩
    let request : Request :=
      ⟨[7], policy, [0], none, ⟨.ofShards [0] ⟨0, 10⟩, options⟩, ⟨.empty, options⟩⟩
    let first := bringing 0 [at_ 1] (Coverage.empty.add 0 ⟨5, 10⟩)
    let second := bringing 0 [at_ 7] .empty
    ∃ round last, (run [first, second] [request]).rounds[0]? = some round ∧
      (run [first, second] [request]).outcome = .ok last ∧ round.Gives .data [7] (0, 1) ∧
      (∃ b, round.block? ⟨[7], 0, [1], 0⟩ = some b ∧ b.HasPoint 0 1) ∧
      ∀ start, ¬ ∃ b, last.block? ⟨[7], 0, [1], start⟩ = some b ∧ b.HasPoint start 1 := by
  intro at_ policy options request first second
  have left : (run [first, second] [request]).outcome.toOption.bind (fun last =>
      (last.get? [7]).bind fun f => (f.data.shards.get? 0).bind (·.series.get? [1])) =
        some ⟨.empty, SortedMap.empty.insert 0 ((Block.encode [at_ 7]).toOption.getD ⟨[], 0⟩)⟩ := by
    decide +kernel
  have gone : ¬ ((Block.encode [at_ 7]).toOption.getD ⟨[], 0⟩).HasPoint 0 1 := by decide +kernel
  cases ok : (run [first, second] [request]).outcome with
  | error e =>
    rw [ok] at left
    cases left
  | ok last =>
    rw [ok] at left
    refine ⟨⟨[request], [request], first.read [request]⟩, last, rfl, rfl, ?_, ?_, fun start => ?_⟩
    · exact ⟨request, List.mem_cons_self, rfl, by decide, _, _, rfl, rfl, by decide⟩
    · exact ⟨(Block.encode [at_ 1]).toOption.getD ⟨[], 0⟩, by decide +kernel, by decide +kernel⟩
    · rintro ⟨b, held, has⟩
      rw [Except.toOption, Option.bind_some] at left
      obtain ⟨f, hf, left⟩ := Option.bind_eq_some_iff.mp left
      obtain ⟨d, hd, hs⟩ := Option.bind_eq_some_iff.mp left
      rw [Recoveries.block?, hf, Option.bind_some, RecoveredData.block?, hd, Option.bind_some, hs,
        Option.bind_some, SortedMap.get?_insert] at held
      split at held
      · rename_i here
        cases held
        have here : start = 0 := here
        rw [here] at has
        exact gone has
      · cases held

end Chain

end Backfill
