import Backfill.Proofs.Coverage

/-!
Sets by shard that are made by their own operations form the algebra of sets of pairs of a shard and
an instant, whichever shards they hold without instants: each operation is what it is on sets, and
two that have the same members count as the same.
-/

namespace Backfill

namespace Interval

/-- A piece that is left of `a` lies in it, and is not empty when `a` is not. -/
theorem within_of_mem_cut {a b c : Interval} (inhabited : a.start < a.stop) (h : c ∈ a.cut b) :
    a.start ≤ c.start ∧ c.start < c.stop ∧ c.stop ≤ a.stop := by
  simp only [cut] at h
  split at h
  · rename_i meet
    simp only [overlaps, Bool.and_eq_true, decide_eq_true_eq] at meet
    rcases List.mem_append.mp h with h | h <;> split at h <;>
      simp only [List.mem_singleton, List.not_mem_nil] at h
    all_goals
      subst c
      exact ⟨by lia, by lia, by lia⟩
  · cases List.mem_singleton.mp h
    exact ⟨Int.le_refl _, inhabited, Int.le_refl _⟩

/-- The two pieces lie on either side of `b`. -/
theorem cut_separated {a b : Interval} (inhabited : b.start < b.stop) :
    (a.cut b).Pairwise (fun c d => c.stop < d.start) := by
  simp only [cut]
  split
  · refine List.pairwise_append.mpr ⟨?_, ?_, fun c hc d hd => ?_⟩
    · split <;> simp
    · split <;> simp
    · split at hc <;> simp only [List.mem_singleton, List.not_mem_nil] at hc
      split at hd <;> simp only [List.mem_singleton, List.not_mem_nil] at hd
      subst hc hd
      exact inhabited
  · exact List.pairwise_singleton _ _

end Interval

namespace TimeSet

theorem Canonical.remove {s : TimeSet} (h : s.Canonical) (r : Interval) :
    (s.remove r).Canonical := by
  rw [TimeSet.remove]
  split
  · exact h
  · rename_i hr
    have inhabited := Interval.isEmpty_eq_false_iff.mp (Bool.eq_false_iff.mpr hr)
    constructor
    · intro c hc
      obtain ⟨a, ha, hc⟩ := List.mem_flatMap.mp hc
      exact (Interval.within_of_mem_cut (h.inhabited a ha) hc).2.1
    · refine List.pairwise_flatMap.mpr ⟨fun a _ => Interval.cut_separated inhabited, ?_⟩
      refine h.separated.imp_of_mem fun {a b} ha hb apart c hc d hd => ?_
      have before := (Interval.within_of_mem_cut (h.inhabited a ha) hc).2.2
      have after := (Interval.within_of_mem_cut (h.inhabited b hb) hd).1
      lia

theorem Canonical.diff {a : TimeSet} (h : a.Canonical) (b : TimeSet) : (a.diff b).Canonical :=
  List.foldlRecOn b.intervals TimeSet.remove h fun _ hs r _ => hs.remove r

theorem Canonical.intersect (a b : TimeSet) : (a.intersect b).Canonical :=
  List.foldlRecOn (motive := Canonical) b.intervals _ Canonical.empty fun _ hs r _ =>
    hs.union (a.clip r)

theorem mem_foldl_clip (a : TimeSet) (l : List Interval) {s : TimeSet} (h : s.Canonical)
    {t : Instant} : t ∈ l.foldl (fun out r => out.union (a.clip r)) s ↔
      t ∈ s ∨ t ∈ a ∧ t ∈ TimeSet.mk l := by
  induction l generalizing s with
  | nil => simp [mem_def]
  | cons r l ih =>
    rw [List.foldl_cons, ih (h.union _), mem_union h, mem_clip, mem_cons, and_or_left, or_assoc]

@[simp] theorem mem_intersect {a b : TimeSet} {t : Instant} :
    t ∈ a.intersect b ↔ t ∈ a ∧ t ∈ b :=
  (mem_foldl_clip a b.intervals Canonical.empty).trans (or_iff_right (not_mem_empty t))

theorem empty_intersect (b : TimeSet) : empty.intersect b = empty :=
  (Canonical.intersect empty b).ext .empty fun t => by simp

/-- Made by the operations on sets of instants. -/
inductive Made : TimeSet → Prop
  | empty : Made .empty
  | ofInterval (r : Interval) : Made (.ofInterval r)
  | ofIntervals (l : List Interval) : Made (.ofIntervals l)
  | add {s : TimeSet} (h : Made s) (r : Interval) : Made (s.add r)
  | union {a b : TimeSet} (ha : Made a) (hb : Made b) : Made (a.union b)
  | remove {s : TimeSet} (h : Made s) (r : Interval) : Made (s.remove r)
  | diff {a b : TimeSet} (ha : Made a) (hb : Made b) : Made (a.diff b)
  | clip {s : TimeSet} (h : Made s) (r : Interval) : Made (s.clip r)
  | intersect {a b : TimeSet} (ha : Made a) (hb : Made b) : Made (a.intersect b)

theorem Made.canonical {s : TimeSet} (h : s.Made) : s.Canonical := by
  induction h with
  | empty => exact .empty
  | ofInterval r => exact .ofInterval r
  | ofIntervals l => exact Canonical.empty.foldl_add l
  | add _ r ih => exact ih.add r
  | union _ _ ih _ => exact ih.union _
  | remove _ r ih => exact ih.remove r
  | diff _ _ ih _ => exact ih.diff _
  | clip _ r _ => exact .clip _ r
  | intersect _ _ _ _ => exact .intersect _ _

end TimeSet

@[simp] theorem ShardSets.timesOf_intersect (a b : ShardSets) (shard : Shard) :
    (a.intersect b).timesOf shard = (a.timesOf shard).intersect (b.timesOf shard) := by
  rw [timesOf, get?_intersect, timesOf_eq_get? a, timesOf_eq_get? b]
  cases a.get? shard with
  | none => exact (TimeSet.empty_intersect _).symm
  | some s =>
    rw [Option.bind_some, common?, getD_filter_isEmpty]
    cases b.get? shard <;> rfl

namespace Coverage

@[simp] theorem get_intersect (a b : Coverage) (shard : Shard) :
    (a.intersect b).get shard = (a.get shard).intersect (b.get shard) := by
  simp [intersect]

@[simp] theorem get_restrict (c : Coverage) (shards : List Shard) (shard : Shard) :
    (c.restrict shards).get shard = if shard ∈ shards then c.get shard else .empty := by
  simp [restrict]

@[simp] theorem mem_intersect {a b : Coverage} {p : Shard × Instant} :
    p ∈ a.intersect b ↔ p ∈ a ∧ p ∈ b := by
  obtain ⟨shard, t⟩ := p
  rw [mem_def, get_intersect, TimeSet.mem_intersect, mem_def, mem_def]

@[simp] theorem mem_restrict {c : Coverage} {shards : List Shard} {p : Shard × Instant} :
    p ∈ c.restrict shards ↔ p ∈ c ∧ p.1 ∈ shards := by
  obtain ⟨shard, t⟩ := p
  rw [mem_def, get_restrict]
  split
  · rename_i kept
    simp [mem_def, kept]
  · rename_i left
    simp [left]

theorem mem_set {c : Coverage} {shard : Shard} {s : TimeSet} {p : Shard × Instant} :
    p ∈ c.set shard s ↔ if p.1 = shard then p.2 ∈ s else p ∈ c := by
  obtain ⟨other, t⟩ := p
  rw [mem_def, get_set]
  split
  · rfl
  · rfl

theorem Canonical.set {c : Coverage} (h : c.Canonical) (shard : Shard) {s : TimeSet}
    (hs : s.Canonical) : (c.set shard s).Canonical := by
  intro other
  rw [get_set]
  split
  · exact hs
  · exact h other

theorem Canonical.diff {a : Coverage} (h : a.Canonical) (b : Coverage) : (a.diff b).Canonical := by
  intro shard
  rw [get_diff]
  exact (h shard).diff _

theorem Canonical.intersect (a b : Coverage) : (a.intersect b).Canonical := by
  intro shard
  rw [get_intersect]
  exact .intersect _ _

theorem Canonical.restrict {c : Coverage} (h : c.Canonical) (shards : List Shard) :
    (c.restrict shards).Canonical := by
  intro shard
  rw [get_restrict]
  split
  · exact h shard
  · exact .empty

/-- A coverage that holds a shard has a member. -/
theorem Canonical.isEmpty_iff {c : Coverage} (h : c.Canonical) :
    c.isEmpty = true ↔ ∀ p, p ∉ c := by
  constructor
  · intro none p hp
    rw [eq_empty_of_isEmpty none] at hp
    exact not_mem_empty p hp
  · intro none
    have same : c = Coverage.empty := h.ext .empty fun p =>
      ⟨fun hp => absurd hp (none p), fun hp => absurd hp (not_mem_empty p)⟩
    rw [same]
    rfl

/-- Made by the operations on coverages, out of sets that are made by theirs. -/
inductive Made : Coverage → Prop
  | empty : Made .empty
  | ofShards (shards : List Shard) (r : Interval) : Made (.ofShards shards r)
  | set {c : Coverage} (h : Made c) (shard : Shard) {s : TimeSet} (hs : s.Made) :
      Made (c.set shard s)
  | add {c : Coverage} (h : Made c) (shard : Shard) (r : Interval) : Made (c.add shard r)
  | addSet {c : Coverage} (h : Made c) (shard : Shard) {s : TimeSet} (hs : s.Made) :
      Made (c.addSet shard s)
  | union {a b : Coverage} (ha : Made a) (hb : Made b) : Made (a.union b)
  | diff {a b : Coverage} (ha : Made a) (hb : Made b) : Made (a.diff b)
  | intersect {a b : Coverage} (ha : Made a) (hb : Made b) : Made (a.intersect b)
  | restrict {c : Coverage} (h : Made c) (shards : List Shard) : Made (c.restrict shards)

theorem Made.canonical {c : Coverage} (h : c.Made) : c.Canonical := by
  induction h with
  | empty => exact .empty
  | ofShards shards r =>
    exact List.foldlRecOn shards _ Canonical.empty fun _ hc shard _ => hc.add shard r
  | set _ shard hs ih => exact ih.set shard hs.canonical
  | add _ shard r ih => exact ih.add shard r
  | addSet _ shard _ ih => exact ih.addSet shard _
  | union _ _ ih _ => exact ih.union _
  | diff _ _ ih _ => exact ih.diff _
  | intersect _ _ _ _ => exact .intersect _ _
  | restrict _ shards ih => exact ih.restrict shards

theorem mem_foldl_add (shards : List Shard) (r : Interval) {c : Coverage} (h : c.Canonical)
    {p : Shard × Instant} :
    p ∈ shards.foldl (·.add · r) c ↔ p ∈ c ∨ p.1 ∈ shards ∧ p.2 ∈ r := by
  induction shards generalizing c with
  | nil => simp
  | cons shard shards ih =>
    rw [List.foldl_cons, ih (h.add shard r), mem_add h, or_assoc, List.mem_cons, or_and_right]

theorem mem_ofShards {shards : List Shard} {r : Interval} {p : Shard × Instant} :
    p ∈ ofShards shards r ↔ p.1 ∈ shards ∧ p.2 ∈ r :=
  (mem_foldl_add shards r .empty).trans (or_iff_right (not_mem_empty p))

end Coverage

namespace ShardSets

theorem mem_coverage {m : ShardSets} {p : Shard × Instant} : p ∈ m.coverage ↔ p ∈ m :=
  Iff.of_eq (congrArg (p.2 ∈ ·) (Coverage.get_coverage m p.1))

theorem coverage_ofShards (shards : List Shard) (r : Interval) :
    (ofShards shards r).coverage = .ofShards shards r := by
  refine List.foldl_rel (r := fun (m : ShardSets) (c : Coverage) => m.coverage = c) rfl
    fun shard _ m c same => ?_
  subst same
  exact Coverage.ext_get fun other => by simp

/-- A shard without instants makes no difference: it could have been dropped before an operation as
well as after it, and nothing that is asked tells whether it was. -/
structure Projection (a b : ShardSets) : Prop where
  set : ∀ shard s, (a.set shard s).coverage = a.coverage.set shard s
  add : ∀ shard r, (a.add shard r).coverage = a.coverage.add shard r
  addSet : ∀ shard s, (a.addSet shard s).coverage = a.coverage.addSet shard s
  union : (a.union b).coverage = a.coverage.union b.coverage
  diff : (a.diff b).coverage = a.coverage.diff b.coverage
  intersect : (a.intersect b).coverage = a.coverage.intersect b.coverage
  restrict : ∀ shards, (a.restrict shards).coverage = a.coverage.restrict shards
  get? : ∀ shard, a.get? shard = a.coverage.sets.get? shard
  entries : a.entries = a.coverage.entries
  isEmpty : a.isEmpty = a.coverage.isEmpty
  covers : a.covers b = a.coverage.covers b.coverage
  beq : (a == b) = true ↔ a.coverage = b.coverage

theorem isEmpty_coverage (m : ShardSets) : m.isEmpty = m.coverage.isEmpty := by
  have none : m.coverage.sets.entries = m.entries := entries_retained m
  rw [Bool.eq_iff_iff, isEmpty, Coverage.isEmpty, SortedMap.isEmpty, none, entries,
    List.isEmpty_iff, List.filter_eq_nil_iff, SortedMap.values]
  simp

theorem diff_coverage (a b : ShardSets) :
    (a.diff b).coverage = a.coverage.diff b.coverage :=
  Coverage.ext_get fun shard => by simp

/-- Each operation is one on coverages, and so is each question. -/
theorem projects (a b : ShardSets) : Projection a b where
  set shard s := Coverage.ext_get fun other => by simp
  add shard r := Coverage.ext_get fun other => by simp
  addSet shard s := Coverage.ext_get fun other => by simp
  union := Coverage.ext_get fun shard => by simp
  diff := diff_coverage a b
  intersect := Coverage.ext_get fun shard => by simp
  restrict shards := Coverage.ext_get fun shard => by simp
  get? shard := (get?_retained a shard).symm
  entries := (entries_retained a).symm
  isEmpty := isEmpty_coverage a
  covers := by rw [covers, isEmpty_coverage, diff_coverage, Coverage.covers]
  beq := by
    rw [show (a == b) = (a.entries == b.entries) from rfl, beq_iff_eq, ← entries_retained a,
      ← entries_retained b]
    exact ⟨fun same => Coverage.ext_sets (SortedMap.ext_entries same),
      fun same => congrArg (·.sets.entries) same⟩

/-- Made by the operations on sets by shard, out of sets that are made by theirs. -/
inductive Made : ShardSets → Prop
  | empty : Made .empty
  | ofShards (shards : List Shard) (r : Interval) : Made (.ofShards shards r)
  | set {c : ShardSets} (h : Made c) (shard : Shard) {s : TimeSet} (hs : s.Made) :
      Made (c.set shard s)
  | add {c : ShardSets} (h : Made c) (shard : Shard) (r : Interval) : Made (c.add shard r)
  | addSet {c : ShardSets} (h : Made c) (shard : Shard) {s : TimeSet} (hs : s.Made) :
      Made (c.addSet shard s)
  | union {a b : ShardSets} (ha : Made a) (hb : Made b) : Made (a.union b)
  | diff {a b : ShardSets} (ha : Made a) (hb : Made b) : Made (a.diff b)
  | intersect {a b : ShardSets} (ha : Made a) (hb : Made b) : Made (a.intersect b)
  | restrict {c : ShardSets} (h : Made c) (shards : List Shard) : Made (c.restrict shards)

/-- Without the shards that hold no instants, it is made in the same way. -/
theorem Made.coverage {m : ShardSets} (h : m.Made) : m.coverage.Made := by
  induction h with
  | empty => exact .empty
  | ofShards shards r => exact coverage_ofShards shards r ▸ .ofShards shards r
  | set _ shard hs ih => exact (projects _ .empty).set shard _ ▸ ih.set shard hs
  | add _ shard r ih => exact (projects _ .empty).add shard r ▸ ih.add shard r
  | addSet _ shard hs ih => exact (projects _ .empty).addSet shard _ ▸ ih.addSet shard hs
  | union _ _ ih ih' => exact (projects ..).union ▸ ih.union ih'
  | diff _ _ ih ih' => exact (projects ..).diff ▸ ih.diff ih'
  | intersect _ _ ih ih' => exact (projects ..).intersect ▸ ih.intersect ih'
  | restrict _ shards ih => exact (projects _ .empty).restrict shards ▸ ih.restrict shards

/-- What every operation does to the members, and what is said of them when asked. -/
structure SetAlgebra (a b : ShardSets) : Prop where
  empty : ∀ p, p ∉ ShardSets.empty
  ofShards : ∀ shards r p, p ∈ ofShards shards r ↔ p.1 ∈ shards ∧ p.2 ∈ r
  set : ∀ shard s p, p ∈ a.set shard s ↔ if p.1 = shard then p.2 ∈ s else p ∈ a
  add : ∀ shard r p, p ∈ a.add shard r ↔ p ∈ a ∨ p.1 = shard ∧ p.2 ∈ r
  addSet : ∀ shard s p, p ∈ a.addSet shard s ↔ p ∈ a ∨ p.1 = shard ∧ p.2 ∈ s
  union : ∀ p, p ∈ a.union b ↔ p ∈ a ∨ p ∈ b
  diff : ∀ p, p ∈ a.diff b ↔ p ∈ a ∧ p ∉ b
  intersect : ∀ p, p ∈ a.intersect b ↔ p ∈ a ∧ p ∈ b
  restrict : ∀ shards p, p ∈ a.restrict shards ↔ p ∈ a ∧ p.1 ∈ shards
  isEmpty : a.isEmpty = true ↔ ∀ p, p ∉ a
  covers : a.covers b = true ↔ ∀ p, p ∈ b → p ∈ a
  beq : (a == b) = true ↔ ∀ p, p ∈ a ↔ p ∈ b
  apart : ∀ p, p ∈ a.fulfilled b → p ∉ a.intersect b
  whole : ((a.fulfilled b).union (a.intersect b) == a) = true

/-- Nothing more is needed than that each shard's set is canonical. -/
theorem Made.setAlgebra {a b : ShardSets} (ha : a.Made) (hb : b.Made) : SetAlgebra a b := by
  have hca := ha.coverage.canonical
  have hcb := hb.coverage.canonical
  have ops := projects a b
  have diff (p : Shard × Instant) : p ∈ a.diff b ↔ p ∈ a ∧ p ∉ b := by
    rw [← mem_coverage, ops.diff, Coverage.mem_diff, mem_coverage, mem_coverage]
  have intersect (p : Shard × Instant) : p ∈ a.intersect b ↔ p ∈ a ∧ p ∈ b := by
    rw [← mem_coverage, ops.intersect, Coverage.mem_intersect, mem_coverage, mem_coverage]
  have beq {c d : ShardSets} (hc : c.Made) (hd : d.Made) :
      (c == d) = true ↔ ∀ p, p ∈ c ↔ p ∈ d := by
    simp only [(projects c d).beq, ← mem_coverage]
    exact ⟨fun same p => same ▸ Iff.rfl, hc.coverage.canonical.ext hd.coverage.canonical⟩
  constructor
  case empty => exact Coverage.not_mem_empty
  case ofShards =>
    intro shards r p
    rw [← mem_coverage, coverage_ofShards, Coverage.mem_ofShards]
  case set =>
    intro shard s p
    rw [← mem_coverage, ops.set, Coverage.mem_set, mem_coverage]
  case add =>
    intro shard r p
    rw [← mem_coverage, ops.add, Coverage.mem_add hca, mem_coverage]
  case addSet =>
    intro shard s p
    rw [← mem_coverage, ops.addSet, Coverage.mem_addSet hca, mem_coverage]
  case union =>
    intro p
    rw [← mem_coverage, ops.union, Coverage.mem_union hca, mem_coverage, mem_coverage]
  case restrict =>
    intro shards p
    rw [← mem_coverage, ops.restrict, Coverage.mem_restrict, mem_coverage]
  case diff => exact diff
  case intersect => exact intersect
  case isEmpty => simp only [ops.isEmpty, hca.isEmpty_iff, mem_coverage]
  case covers =>
    rw [ops.covers, Coverage.covers, (hcb.diff _).isEmpty_iff]
    simp only [Coverage.mem_diff, not_and, Decidable.not_not, mem_coverage]
  case beq => exact beq ha hb
  case apart =>
    intro p done missing
    exact ((diff p).mp done).2 ((intersect p).mp missing).2
  case whole =>
    apply (beq ((ha.diff hb).union (ha.intersect hb)) ha).mpr
    intro p
    rw [← mem_coverage, (projects ..).union, Coverage.mem_union (ha.diff hb).coverage.canonical,
      mem_coverage, mem_coverage, diff, intersect, ← and_or_left]
    exact and_iff_left (Decidable.em (p ∈ b)).symm

/-- Whether a shard was given nothing or was never named makes no difference, nor does the order in
which two adjacent intervals came. -/
theorem Made.setAlgebra_adjacent :
    let a := ((ShardSets.empty.set 3 .empty).add 1 ⟨0, 4⟩).add 1 ⟨4, 10⟩
    let b := (ShardSets.empty.add 1 ⟨4, 10⟩).add 1 ⟨0, 4⟩
    a.Made ∧ b.Made ∧ SetAlgebra a b ∧ (a == b) = true ∧ a.sets ≠ b.sets := by
  intro a b
  have ha : a.Made := ((Made.empty.set 3 .empty).add 1 ⟨0, 4⟩).add 1 ⟨4, 10⟩
  have hb : b.Made := (Made.empty.add 1 ⟨4, 10⟩).add 1 ⟨0, 4⟩
  exact ⟨ha, hb, Made.setAlgebra ha hb, by decide, by decide⟩

end ShardSets

end Backfill
