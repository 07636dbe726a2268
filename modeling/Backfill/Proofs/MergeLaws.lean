import Backfill.Proofs.ChainedData
import Backfill.Proofs.IndexMarks
import Backfill.Proofs.SetAlgebra

/-!
Merging recoveries is a union, container by container. It is associative and idempotent and nothing
changes when one side is empty, as long as both sides are made by the operations on them. Where both
sides have something to say, the blocks of series are those of the later side, and all else is that
of the earlier one.
-/

namespace Backfill

namespace Coverage

variable {a b : Coverage}

theorem union_empty (a : Coverage) : a.union .empty = a :=
  ext_get fun shard => by rw [get_union, get_empty]; rfl

theorem Canonical.empty_union (h : a.Canonical) : Coverage.empty.union a = a :=
  (Canonical.empty.union a).ext h fun p => by
    rw [mem_union Canonical.empty]
    exact or_iff_right (not_mem_empty p)

theorem Canonical.union_self (h : a.Canonical) : a.union a = a :=
  (h.union a).ext h fun p => by rw [mem_union h, or_self]

theorem Canonical.union_assoc (ha : a.Canonical) (hb : b.Canonical) (c : Coverage) :
    (a.union b).union c = a.union (b.union c) :=
  ((ha.union b).union c).ext (ha.union _) fun p => by
    rw [mem_union (ha.union b), mem_union ha, mem_union ha, mem_union hb, or_assoc]

end Coverage

namespace ShardData

def tags? (d : ShardData) (id : SeriesId) : Option Tags := (d.series.get? id).map (·.tags)

theorem tags?_merge (a b : ShardData) (id : SeriesId) :
    (a.merge b).tags? id = (a.tags? id).or (b.tags? id) := by
  rw [tags?, tags?, tags?, merge, SortedMap.get?_unionWith]
  cases b.series.get? id with
  | none => exact Option.or_none.symm
  | some new => cases a.series.get? id <;> rfl

/-- A shard that one block is added to is merged with a shard of that block alone. -/
theorem addBlock_eq_merge (d : ShardData) (id : SeriesId) (tags : Tags) (start : Instant)
    (b : Block) : d.addBlock id tags start b = d.merge (empty.addBlock id tags start b) := by
  refine congrArg ShardData.mk ?_
  ext1 other
  rw [SortedMap.get?_unionWith, SortedMap.get?_update, addBlock, SortedMap.get?_update]
  split
  · rename_i here
    subst other
    cases held : d.series.get? id with
    | none => rfl
    | some s =>
      refine congrArg some (congrArg (Series.mk s.tags) ?_)
      ext1 k
      rw [SortedMap.get?_unionWith, Series.addBlock, SortedMap.get?_insert, SortedMap.get?_insert]
      split
      · cases s.blocks.get? k <;> rfl
      · rfl
  · rfl

end ShardData

namespace RecoveredData

variable {a b c r : RecoveredData}

/-- Made by the operations on series data, out of coverages that are made by theirs. -/
inductive Made : RecoveredData → Prop
  | empty : Made .empty
  | addShard {r : RecoveredData} (h : Made r) (shard : Shard) (d : ShardData) :
      Made (r.addShard shard d)
  | addMissing {r : RecoveredData} (h : Made r) (shard : Shard) (part : Interval) :
      Made (r.addMissing shard part)
  | addAllMissing {r : RecoveredData} (h : Made r) {c : Coverage} (hc : c.Made) :
      Made (r.addAllMissing c)
  | setMissing {r : RecoveredData} (h : Made r) {c : Coverage} (hc : c.Made) :
      Made { r with missing := c }
  | merge {a b : RecoveredData} (ha : Made a) (hb : Made b) : Made (a.merge b)

theorem foldl_addShard {l : List (Shard × ShardData)} (some : ∀ e ∈ l, e.2.isEmpty = false)
    (r : RecoveredData) : l.foldl (fun r e => r.addShard e.1 e.2) r =
      { r with shards := l.foldl (fun m e => m.update e.1 .empty (·.merge e.2)) r.shards } := by
  induction l generalizing r with
  | nil => rfl
  | cons e l ih =>
    have here : r.addShard e.1 e.2 =
        { r with shards := r.shards.update e.1 .empty (·.merge e.2) } := by
      rw [addShard, some e List.mem_cons_self]
      rfl
    rw [List.foldl_cons, ih (fun d hd => some d (List.mem_cons_of_mem _ hd)), here]
    rfl

/-- Shards are joined as maps, since none of them is passed over. -/
theorem merge_eq (a : RecoveredData) (filled : b.Filled) :
    a.merge b = ⟨a.shards.unionWith ShardData.merge b.shards, a.missing.union b.missing⟩ := by
  have some : ∀ e ∈ b.shards.entries, e.2.isEmpty = false := fun e he =>
    filled e.1 e.2 (SortedMap.get?_eq_some_iff.mpr he)
  rw [merge, foldl_addShard some]
  exact congrArg (RecoveredData.mk · _)
    (SortedMap.foldl_update_eq_unionWith ShardData.empty_merge a.shards b.shards)

theorem Filled.merge (ha : a.Filled) (b : RecoveredData) : (a.merge b).Filled :=
  List.foldlRecOn (motive := Filled) b.shards.entries _ ha fun _ h e _ => h.addShard e.1 e.2

theorem Made.filled (h : r.Made) : r.Filled := by
  induction h with
  | empty => exact fun _ _ h => by cases h
  | addShard _ shard d ih => exact ih.addShard shard d
  | addMissing _ _ _ ih => exact ih
  | addAllMissing _ _ ih => exact ih
  | setMissing _ _ ih => exact ih
  | merge _ _ ih _ => exact ih.merge _

theorem missing_merge (a b : RecoveredData) :
    (a.merge b).missing = a.missing.union b.missing := by
  have kept : (b.shards.entries.foldl (fun r e => r.addShard e.1 e.2) a).missing = a.missing :=
    List.foldlRecOn (motive := fun r : RecoveredData => r.missing = a.missing) _ _ rfl
      fun r h e _ => (r.addShard_missing e.1 e.2).trans h
  exact congrArg (·.union b.missing) kept

theorem Made.missing (h : r.Made) : r.missing.Made := by
  induction h with
  | empty => exact .empty
  | addShard _ shard d ih =>
    rw [addShard_missing]
    exact ih
  | addMissing _ shard part ih => exact ih.add shard part
  | addAllMissing _ hc ih => exact ih.union hc
  | setMissing _ hc _ => exact hc
  | merge _ _ ih ih' =>
    rw [missing_merge]
    exact ih.union ih'

theorem Made.merge_assoc (ha : a.Made) (hb : b.Made) (hc : c.Made) :
    (a.merge b).merge c = a.merge (b.merge c) := by
  rw [merge_eq (a.merge b) hc.filled, merge_eq a hb.filled, merge_eq a (hb.merge hc).filled,
    merge_eq b hc.filled, ha.missing.canonical.union_assoc hb.missing.canonical,
    SortedMap.unionWith_assoc fun _ x y z _ _ _ => x.merge_assoc y z]

theorem Made.merge_self (ha : a.Made) : a.merge a = a := by
  rw [merge_eq a ha.filled, SortedMap.unionWith_self fun _ x _ => x.merge_self,
    ha.missing.canonical.union_self]

theorem merge_empty (a : RecoveredData) : a.merge .empty = a :=
  congrArg (RecoveredData.mk a.shards) a.missing.union_empty

theorem Made.empty_merge (ha : a.Made) : RecoveredData.empty.merge a = a := by
  rw [merge_eq _ ha.filled]
  exact congrArg₂ RecoveredData.mk (SortedMap.empty_unionWith _ _) ha.missing.canonical.empty_union

end RecoveredData

namespace Index

variable {i j k : Index}

/-- Made by the operations on an index, marks with coverages that are made by theirs. -/
inductive Made : Index → Prop
  | empty : Made .empty
  | touch {i : Index} (h : Made i) (start : Instant) : Made (i.touch start)
  | insert {i : Index} (h : Made i) (start : Instant) (id : SeriesId) (tags : Tags) :
      Made (i.insert start id tags)
  | mark {i : Index} (h : Made i) (start : Instant) {done : Coverage} (hd : done.Made) :
      Made (i.mark start done)
  | merge {i j : Index} (hi : Made i) (hj : Made j) : Made (i.merge j)

theorem Made.canonical (h : i.Made) : i.Canonical := by
  induction h with
  | empty => exact .empty
  | touch _ start ih =>
    intro other
    rw [marks_touch]
    exact ih other
  | insert _ start id tags ih =>
    intro other
    rw [marks_insert]
    exact ih other
  | mark _ start _ ih => exact ih.mark start _
  | merge _ _ hi hj => exact hi.merge hj

theorem Canonical.block (h : i.Canonical) {start : Instant} {b : IndexBlock}
    (held : i.blocks.get? start = some b) : b.fulfilled.Canonical := by
  have here := h start
  rw [marks, Index.block, held] at here
  exact here

theorem Canonical.merge_assoc (hi : i.Canonical) (hj : j.Canonical) (k : Index) :
    (i.merge j).merge k = i.merge (j.merge k) := by
  refine congrArg Index.mk (SortedMap.unionWith_assoc fun start x y z hx hy _ => ?_)
  have documents := SortedMap.unionWith_assoc (f := fun old _ => old) (a := x.documents)
    (b := y.documents) (c := z.documents) fun _ _ _ _ _ _ _ => rfl
  have marks := (hi.block hx).union_assoc (hj.block hy) z.fulfilled
  exact congrArg₂ IndexBlock.mk documents marks

theorem Canonical.merge_self (hi : i.Canonical) : i.merge i = i := by
  refine congrArg Index.mk (SortedMap.unionWith_self fun start x hx => ?_)
  have documents := SortedMap.unionWith_self (f := fun old _ => old) (a := x.documents)
    fun _ _ _ => rfl
  exact congrArg₂ IndexBlock.mk documents (hi.block hx).union_self

theorem merge_empty (i : Index) : i.merge .empty = i :=
  congrArg Index.mk (SortedMap.unionWith_empty _ _)

theorem empty_merge (i : Index) : Index.empty.merge i = i :=
  congrArg Index.mk (SortedMap.empty_unionWith _ _)

theorem contains_merge (i j : Index) (start : Instant) :
    (i.merge j).blocks.contains start = true ↔
      i.blocks.contains start = true ∨ j.blocks.contains start = true := by
  rw [SortedMap.contains, merge, SortedMap.get?_unionWith, SortedMap.contains, SortedMap.contains]
  cases j.blocks.get? start with
  | none => simp
  | some new => simp

end Index

namespace RecoveredIndex

variable {a b c : RecoveredIndex}

/-- Both parts are made by their operations. -/
structure Made (r : RecoveredIndex) : Prop where
  index : r.index.Made
  missing : r.missing.Made

theorem Made.merge (ha : a.Made) (hb : b.Made) : (a.merge b).Made :=
  ⟨ha.index.merge hb.index, ha.missing.union hb.missing⟩

theorem Made.merge_assoc (ha : a.Made) (hb : b.Made) (c : RecoveredIndex) :
    (a.merge b).merge c = a.merge (b.merge c) :=
  congrArg₂ RecoveredIndex.mk (ha.index.canonical.merge_assoc hb.index.canonical c.index)
    (ha.missing.canonical.union_assoc hb.missing.canonical c.missing)

theorem Made.merge_self (ha : a.Made) : a.merge a = a :=
  congrArg₂ RecoveredIndex.mk ha.index.canonical.merge_self ha.missing.canonical.union_self

theorem merge_empty (a : RecoveredIndex) : a.merge .empty = a :=
  congrArg₂ RecoveredIndex.mk a.index.merge_empty a.missing.union_empty

theorem Made.empty_merge (ha : a.Made) : RecoveredIndex.empty.merge a = a :=
  congrArg₂ RecoveredIndex.mk a.index.empty_merge ha.missing.canonical.empty_union

end RecoveredIndex

namespace Recovery

variable {f g h : Recovery}

theorem joinShards_eq (a b : List Shard) :
    joinShards a b = a ++ (b.filter (· ∉ a)).eraseDups := by
  induction b generalizing a with
  | nil => simp [joinShards]
  | cons s b ih =>
    rw [joinShards, List.foldl_cons, ← joinShards, ih]
    by_cases held : s ∈ a
    · simp [held]
    · rw [if_neg (by simpa using held), List.append_assoc, List.filter_cons_of_pos (by simpa),
        List.eraseDups_cons, List.filter_filter]
      refine congrArg (a ++ s :: List.eraseDups ·) (List.filter_congr fun t _ => ?_)
      by_cases here : t = s <;> simp [here, held]

theorem mem_joinShards {a b : List Shard} {s : Shard} : s ∈ joinShards a b ↔ s ∈ a ∨ s ∈ b := by
  rw [joinShards_eq, List.mem_append, List.mem_eraseDups, List.mem_filter, decide_eq_true_eq]
  by_cases held : s ∈ a <;> simp [held]

/-- Of a shard that comes later it only matters whether it is there already. -/
theorem joinShards_assoc (a b c : List Shard) :
    joinShards (joinShards a b) c = joinShards a (joinShards b c) := by
  induction c generalizing b with
  | nil => rfl
  | cons s c ih =>
    have step : joinShards (joinShards a b) [s] = joinShards a (joinShards b [s]) := by
      by_cases held : s ∈ b
      · have there := mem_joinShards.mpr (.inr held : s ∈ a ∨ s ∈ b)
        simp only [joinShards, List.foldl_cons, List.foldl_nil] at there ⊢
        rw [if_pos (by simpa using there), if_pos (by simpa using held)]
      · have next : joinShards b [s] = b ++ [s] := by simp [joinShards, held]
        rw [next]
        simp only [joinShards, List.foldl_append]
    have split (l : List Shard) : joinShards l (s :: c) = joinShards (joinShards l [s]) c := rfl
    rw [split, split, step, ih]

theorem joinShards_self (a : List Shard) : joinShards a a = a := by
  rw [joinShards_eq, List.filter_eq_nil_iff.mpr fun s hs => by simpa using hs, List.eraseDups_nil,
    List.append_nil]

/-- Both parts are made by their operations. -/
structure Made (f : Recovery) : Prop where
  data : f.data.Made
  index : f.index.Made

theorem Made.merge (hf : f.Made) (hg : g.Made) : (f.merge g).Made :=
  ⟨hf.data.merge hg.data, hf.index.merge hg.index⟩

theorem Made.merge_assoc (hf : f.Made) (hg : g.Made) (hh : h.Made) :
    (f.merge g).merge h = f.merge (g.merge h) := by
  simp only [Recovery.merge, joinShards_assoc, hf.data.merge_assoc hg.data hh.data,
    hf.index.merge_assoc hg.index]

theorem Made.merge_self (hf : f.Made) : f.merge f = f := by
  rw [Recovery.merge, joinShards_self, hf.data.merge_self, hf.index.merge_self]

end Recovery

namespace Recoveries

variable {a b c r : Recoveries} {id : NamespaceId}

/-- Made by the operations on recoveries, out of recoveries of one namespace that are made by
theirs. -/
inductive Made : Recoveries → Prop
  | empty : Made .empty
  | insert {r : Recoveries} (h : Made r) (id : NamespaceId) {new : Recovery} (hn : new.Made) :
      Made (r.insert id new)
  | modify {r : Recoveries} (h : Made r) (id : NamespaceId) {f : Recovery → Recovery}
      (hf : ∀ old : Recovery, old.Made → (f old).Made) : Made (r.modify id f)
  | merge {a b : Recoveries} (ha : Made a) (hb : Made b) : Made (a.merge b)

theorem get?_merge (a b : Recoveries) (id : NamespaceId) : (a.merge b).get? id =
    (b.get? id).elim (a.get? id) fun new => some ((a.get? id).elim new (·.merge new)) := by
  rw [get?, get?, merge, SortedMap.get?_unionWith]
  cases b.byId.get? id <;> rfl

theorem Made.recovery (h : r.Made) {f : Recovery} (held : r.get? id = some f) : f.Made := by
  induction h generalizing f with
  | empty => cases held
  | @insert r _ other new hn ih =>
    rw [get?_insert] at held
    split at held
    · cases held
      cases old : r.get? other with
      | none => exact hn
      | some g => exact (ih (by rw [← old]; congr 1)).merge hn
    · exact ih held
  | @modify r _ other f' hf ih =>
    rw [get?_modify] at held
    split at held
    · rename_i here
      obtain ⟨g, hg, rfl⟩ := Option.map_eq_some_iff.mp held
      exact hf g (ih (here ▸ hg))
    · exact ih held
  | @merge a b _ _ iha ihb =>
    rw [get?_merge] at held
    cases hb : b.get? id with
    | none =>
      rw [hb] at held
      exact iha held
    | some new =>
      rw [hb] at held
      cases held
      cases ha : a.get? id with
      | none => exact ihb hb
      | some old => exact (iha ha).merge (ihb hb)

/-- What is held for a namespace, which is nothing when it is not known. -/
def data (r : Recoveries) (id : NamespaceId) : RecoveredData := (r.get? id).elim .empty (·.data)

def index (r : Recoveries) (id : NamespaceId) : RecoveredIndex := (r.get? id).elim .empty (·.index)

theorem Made.data_merge (hb : b.Made) (id : NamespaceId) :
    (a.merge b).data id = (a.data id).merge (b.data id) := by
  rw [data, data, data, get?_merge]
  cases held : b.get? id with
  | none => exact (RecoveredData.merge_empty _).symm
  | some new =>
    cases a.get? id with
    | none => exact (hb.recovery held).data.empty_merge.symm
    | some old => rfl

theorem Made.index_merge (hb : b.Made) (id : NamespaceId) :
    (a.merge b).index id = (a.index id).merge (b.index id) := by
  rw [index, index, index, get?_merge]
  cases held : b.get? id with
  | none => exact (RecoveredIndex.merge_empty _).symm
  | some new =>
    cases a.get? id with
    | none => exact (hb.recovery held).index.empty_merge.symm
    | some old => rfl

/-- Nothing of either side is lost by merging and nothing is new. Blocks are those of `b` where it
has one, tags and documents those of `a`. -/
structure Joins (a b m : Recoveries) : Prop where
  known : ∀ id, (m.get? id).isSome ↔ (a.get? id).isSome ∨ (b.get? id).isSome
  left : ∀ id, b.get? id = none → m.get? id = a.get? id
  right : ∀ id, a.get? id = none → m.get? id = b.get? id
  both : ∀ id old new, a.get? id = some old → b.get? id = some new → ∃ f, m.get? id = some f ∧
    f.policy = old.policy ∧
    f.shards = old.shards ++ (new.shards.filter (· ∉ old.shards)).eraseDups
  tags : ∀ id shard series, ((m.data id).held shard).tags? series =
    (((a.data id).held shard).tags? series).or (((b.data id).held shard).tags? series)
  blocks : ∀ id shard series start, (m.data id).block? shard series start =
    ((b.data id).block? shard series start).or ((a.data id).block? shard series start)
  dataMissing : ∀ id p, p ∈ (m.data id).missing ↔ p ∈ (a.data id).missing ∨ p ∈ (b.data id).missing
  indexBlocks : ∀ id start, (m.index id).index.blocks.contains start = true ↔
    (a.index id).index.blocks.contains start = true ∨
      (b.index id).index.blocks.contains start = true
  documents : ∀ id start series, (m.index id).index.document? start series =
    ((a.index id).index.document? start series).or ((b.index id).index.document? start series)
  marks : ∀ id start p, p ∈ (m.index id).index.marks start ↔
    p ∈ (a.index id).index.marks start ∨ p ∈ (b.index id).index.marks start
  indexMissing : ∀ id p,
    p ∈ (m.index id).missing ↔ p ∈ (a.index id).missing ∨ p ∈ (b.index id).missing

theorem Made.data (h : r.Made) (id : NamespaceId) : (r.data id).Made := by
  rw [Recoveries.data]
  cases held : r.get? id with
  | none => exact .empty
  | some f => exact (h.recovery held).data

theorem Made.index (h : r.Made) (id : NamespaceId) : (r.index id).Made := by
  rw [Recoveries.index]
  cases held : r.get? id with
  | none => exact ⟨.empty, .empty⟩
  | some f => exact (h.recovery held).index

theorem Made.joins (ha : a.Made) (hb : b.Made) : Joins a b (a.merge b) where
  known id := by
    rw [get?_merge]
    cases b.get? id <;> simp
  left id none := by
    rw [get?_merge, none]
    rfl
  right id none := by
    rw [get?_merge, none]
    cases b.get? id <;> rfl
  both id old new hold hnew :=
    ⟨old.merge new, by rw [get?_merge, hnew, hold]; rfl, rfl, Recovery.joinShards_eq ..⟩
  tags id shard series := by
    rw [hb.data_merge, RecoveredData.held_merge, ShardData.tags?_merge]
  blocks id shard series start := by rw [hb.data_merge, RecoveredData.block?_merge]
  dataMissing id p := by
    rw [hb.data_merge, RecoveredData.missing_merge,
      Coverage.mem_union (ha.data id).missing.canonical]
  indexBlocks id start := by
    rw [hb.index_merge]
    exact Index.contains_merge ..
  documents id start series := by
    rw [hb.index_merge]
    exact Index.document?_merge ..
  marks id start p := by
    rw [hb.index_merge]
    exact Index.mem_marks_merge (ha.index id).index.canonical
  indexMissing id p := by
    rw [hb.index_merge]
    exact Coverage.mem_union (ha.index id).missing.canonical

theorem Made.merge_assoc (ha : a.Made) (hb : b.Made) (hc : c.Made) :
    (a.merge b).merge c = a.merge (b.merge c) :=
  congrArg Recoveries.mk (SortedMap.unionWith_assoc fun _ _ _ _ hx hy hz =>
    (ha.recovery hx).merge_assoc (hb.recovery hy) (hc.recovery hz))

theorem Made.merge_self (ha : a.Made) : a.merge a = a :=
  congrArg Recoveries.mk (SortedMap.unionWith_self fun _ _ hx => (ha.recovery hx).merge_self)

/-- Merging is a union. What sources and chains of them return is made, as `CommitLog.read_made`,
`Peers.read_made` and `Chain.run_made` say. -/
theorem Made.merge_union (ha : a.Made) (hb : b.Made) (hc : c.Made) :
    (a.merge b).merge c = a.merge (b.merge c) ∧ a.merge a = a ∧ a.merge .empty = a ∧
      Recoveries.empty.merge a = a ∧ Joins a b (a.merge b) :=
  ⟨ha.merge_assoc hb hc, ha.merge_self, congrArg Recoveries.mk (SortedMap.unionWith_empty _ _),
    congrArg Recoveries.mk (SortedMap.empty_unionWith _ _), ha.joins hb⟩

/-- Each of the three sides brings the same block and the same document, with bytes and tags of its
own. -/
theorem Made.merge_union_opposed :
    let policy : Policy := ⟨{}, by decide, by decide⟩
    let tags (value : UInt8) : Tags := ⟨[([1], [value])]⟩
    let side (value : UInt8) (shards : List Shard) : Recoveries :=
      let data := RecoveredData.empty.addShard 0
        (ShardData.empty.addBlock [1] (tags value) 0 ⟨[value], 0⟩)
      let index := (Index.empty.insert 0 [1] (tags value)).mark 0 (.ofShards [0] ⟨0, 5⟩)
      Recoveries.empty.insert [7]
        ⟨policy, shards, data.addMissing 0 ⟨5, 10⟩, ⟨index, .ofShards [0] ⟨5, 10⟩⟩⟩
    let a := side 1 [0, 1]
    let b := side 2 [1, 2, 0, 2]
    let c := side 3 []
    (a.Made ∧ b.Made ∧ c.Made) ∧
      ((a.merge b).merge c = a.merge (b.merge c) ∧ a.merge a = a ∧ a.merge .empty = a ∧
        Recoveries.empty.merge a = a ∧ Joins a b (a.merge b)) ∧
      ((a.merge b).get? [7]).map (·.shards) = some [0, 1, 2] ∧
      ((a.merge b).data [7]).block? 0 [1] 0 = some ⟨[2], 0⟩ ∧
      ((a.merge b).index [7]).index.document? 0 [1] = some (tags 1) := by
  intro policy tags side a b c
  have made (value : UInt8) (shards : List Shard) : (side value shards).Made := by
    refine .insert .empty [7] ⟨?_, ?_, .ofShards _ _⟩
    · exact (RecoveredData.Made.empty.addShard 0 _).addMissing 0 ⟨5, 10⟩
    · exact (Index.Made.empty.insert 0 [1] _).mark 0 (.ofShards _ _)
  exact ⟨⟨made _ _, made _ _, made _ _⟩, Made.merge_union (made _ _) (made _ _) (made _ _),
    by decide, by decide, by decide⟩

end Recoveries

end Backfill
