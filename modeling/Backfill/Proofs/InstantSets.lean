import Backfill.Proofs.SetAlgebra

/-!
Sets of instants that are made by their own operations are canonical, and so each operation is what
it is on sets, the bounds are the least interval around a set, and two sets with the same instants
are the same.
-/

namespace Backfill

namespace Interval

/-- With an empty one this fails: it overlaps what it lies in. -/
theorem overlaps_iff {a b : Interval} (ha : a.start < a.stop) (hb : b.start < b.stop) :
    a.overlaps b = true ↔ ∃ t, t ∈ a ∧ t ∈ b := by
  simp only [overlaps, Bool.and_eq_true, decide_eq_true_eq]
  constructor
  · intro meet
    exact ⟨max a.start b.start, ⟨by lia, by lia⟩, by lia, by lia⟩
  · intro shared
    obtain ⟨t, ⟨_, _⟩, _, _⟩ := shared
    exact ⟨by lia, by lia⟩

end Interval

namespace TimeSet

theorem Canonical.overlaps_iff {s : TimeSet} (h : s.Canonical) {r : Interval}
    (hr : r.start < r.stop) : s.overlaps r = true ↔ ∃ t, t ∈ s ∧ t ∈ r := by
  rw [overlaps, List.any_eq_true]
  constructor
  · intro meet
    obtain ⟨a, ha, meet⟩ := meet
    obtain ⟨t, here, there⟩ := (Interval.overlaps_iff (h.inhabited a ha) hr).mp meet
    exact ⟨t, ⟨a, ha, here⟩, there⟩
  · intro shared
    obtain ⟨t, ⟨a, ha, here⟩, there⟩ := shared
    exact ⟨a, ha, (Interval.overlaps_iff (h.inhabited a ha) hr).mpr ⟨t, here, there⟩⟩

/-- The last end comes after all instants, and right after the last of them. -/
theorem Canonical.last {s : TimeSet} (h : s.Canonical) {r : Interval}
    (hr : s.intervals.getLast? = some r) : (∀ t ∈ s, t < r.stop) ∧ r.stop - 1 ∈ s := by
  have mem := List.mem_of_getLast? hr
  have some := h.inhabited r mem
  obtain ⟨front, whole⟩ := List.getLast?_eq_some_iff.mp hr
  constructor
  · intro t ht
    obtain ⟨a, ha, _, high⟩ := ht
    rw [whole] at ha
    rcases List.mem_append.mp ha with ha | ha
    · have apart := h.separated
      rw [whole, List.pairwise_append] at apart
      have := apart.2.2 a ha r (List.mem_singleton.mpr rfl)
      lia
    · cases List.mem_singleton.mp ha
      exact high
  · exact ⟨r, mem, by lia, by lia⟩

theorem Canonical.bounds_eq_some {s : TimeSet} (h : s.Canonical) {c : Interval}
    (hc : s.bounds = some c) :
    c.start ∈ s ∧ c.stop - 1 ∈ s ∧ ∀ t ∈ s, t ∈ c := by
  obtain ⟨l⟩ := s
  cases l with
  | nil => cases hc
  | cons r l =>
    unfold bounds at hc
    cases last : (r :: l).getLast? with
    | none => simp at last
    | some q =>
      simp only [List.head?_cons, last, Option.some.injEq] at hc
      subst hc
      obtain ⟨before, final⟩ := h.last last
      exact ⟨h.start_mem, final, fun t ht => ⟨h.start_le_of_mem ht, before t ht⟩⟩

theorem exists_bounds {s : TimeSet} {t : Instant} (ht : t ∈ s) : ∃ c, s.bounds = some c := by
  obtain ⟨l⟩ := s
  cases l with
  | nil => exact absurd ht (not_mem_empty t)
  | cons r l =>
    unfold bounds
    cases last : (r :: l).getLast? with
    | none => simp at last
    | some q => exact ⟨⟨r.start, q.stop⟩, by simp⟩

/-- `c` is the least interval around all instants of the set, of which there is one. -/
structure Encloses (c : Interval) (s : TimeSet) : Prop where
  inhabited : ∃ t, t ∈ s
  around : ∀ t ∈ s, t ∈ c
  least : ∀ d : Interval, (∀ t ∈ s, t ∈ d) → d.start ≤ c.start ∧ c.stop ≤ d.stop

theorem Encloses.unique {s : TimeSet} {c d : Interval} (hc : Encloses c s) (hd : Encloses d s) :
    c = d := by
  obtain ⟨low, high⟩ := hc.least d hd.around
  obtain ⟨low', high'⟩ := hd.least c hc.around
  cases c
  cases d
  simp_all only [Interval.mk.injEq]
  constructor <;> lia

theorem Canonical.bounds_eq_some_iff {s : TimeSet} (h : s.Canonical) {c : Interval} :
    s.bounds = some c ↔ Encloses c s := by
  have encloses {c : Interval} (hc : s.bounds = some c) : Encloses c s := by
    obtain ⟨first, last, around⟩ := h.bounds_eq_some hc
    refine ⟨⟨c.start, first⟩, around, fun d hd => ⟨(hd _ first).1, ?_⟩⟩
    have := (hd _ last).2
    lia
  constructor
  · exact encloses
  · intro hc
    obtain ⟨t, ht⟩ := hc.inhabited
    obtain ⟨d, hd⟩ := exists_bounds ht
    rw [hd, (encloses hd).unique hc]

/-- What every operation does to the instants, and what a set says of them. -/
structure Faithful (a b : TimeSet) : Prop where
  /-- No interval is empty, and each ends strictly before the next starts. -/
  canonical : a.Canonical
  empty : ∀ t, t ∉ TimeSet.empty
  ofInterval : ∀ r t, t ∈ TimeSet.ofInterval r ↔ t ∈ r
  ofIntervals : ∀ l t, t ∈ TimeSet.ofIntervals l ↔ ∃ r ∈ l, t ∈ r
  add : ∀ r t, t ∈ a.add r ↔ t ∈ a ∨ t ∈ r
  union : ∀ t, t ∈ a.union b ↔ t ∈ a ∨ t ∈ b
  remove : ∀ r t, t ∈ a.remove r ↔ t ∈ a ∧ t ∉ r
  diff : ∀ t, t ∈ a.diff b ↔ t ∈ a ∧ t ∉ b
  clip : ∀ r t, t ∈ a.clip r ↔ t ∈ a ∧ t ∈ r
  intersect : ∀ t, t ∈ a.intersect b ↔ t ∈ a ∧ t ∈ b
  eq : a = b ↔ ∀ t, t ∈ a ↔ t ∈ b
  bounds : ∀ c, a.bounds = some c ↔ Encloses c a
  overlaps : ∀ r : Interval, r.start < r.stop → (a.overlaps r = true ↔ ∃ t, t ∈ a ∧ t ∈ r)

/-- Whatever was put in and taken out before, empty and inverted intervals among it. -/
theorem Made.faithful {a b : TimeSet} (ha : a.Made) (hb : b.Made) : Faithful a b where
  canonical := ha.canonical
  empty := not_mem_empty
  ofInterval _ _ := mem_ofInterval
  ofIntervals _ t := (mem_foldl_add Canonical.empty).trans (or_iff_right (not_mem_empty t))
  add _ _ := mem_add ha.canonical
  union _ := mem_union ha.canonical
  remove _ _ := mem_remove
  diff _ := mem_diff
  clip _ _ := mem_clip
  intersect _ := mem_intersect
  eq := ⟨fun same _ => same ▸ Iff.rfl, ha.canonical.ext hb.canonical⟩
  bounds _ := ha.canonical.bounds_eq_some_iff
  overlaps _ := ha.canonical.overlaps_iff

/-- An inverted interval adds nothing, one in the middle leaves two pieces, and what touches both of
them joins them again. -/
theorem Made.faithful_rejoined :
    let a := (((TimeSet.ofInterval ⟨0, 10⟩).add ⟨7, 3⟩).remove ⟨4, 6⟩).add ⟨4, 6⟩
    let b := TimeSet.ofIntervals [⟨5, 10⟩, ⟨2, 2⟩, ⟨0, 5⟩]
    a.Made ∧ b.Made ∧ Faithful a b ∧ a = b ∧ a.intervals = [⟨0, 10⟩] := by
  intro a b
  have ha : a.Made := (((Made.ofInterval ⟨0, 10⟩).add ⟨7, 3⟩).remove ⟨4, 6⟩).add ⟨4, 6⟩
  have hb : b.Made := .ofIntervals _
  exact ⟨ha, hb, Made.faithful ha hb, by decide, by decide⟩

end TimeSet

end Backfill
