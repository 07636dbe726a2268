import Backfill.TimeSet

/-!
What the operations on intervals and on sets of instants do to membership. Taking away works on any
list of intervals. Putting in needs a canonical set, and keeps it one.
-/

namespace Backfill

namespace Interval

theorem isEmpty_iff {r : Interval} : r.isEmpty = true ↔ r.stop ≤ r.start := decide_eq_true_iff

theorem isEmpty_eq_false_iff {r : Interval} : r.isEmpty = false ↔ r.start < r.stop :=
  decide_eq_false_iff_not.trans Int.not_le

theorem not_mem_of_isEmpty {r : Interval} (h : r.isEmpty = true) (t : Instant) : t ∉ r := by
  intro ht
  have hr := isEmpty_iff.mp h
  have := ht.1
  have := ht.2
  lia

/-- Two intervals meet in one interval, or nowhere. -/
theorem mem_intersect {a b : Interval} {t : Instant} :
    (∃ c, a.intersect b = some c ∧ t ∈ c) ↔ t ∈ a ∧ t ∈ b := by
  simp only [intersect]
  split
  · rename_i h
    constructor
    · intro hm
      obtain ⟨c, hc, _⟩ := hm
      cases hc
    · intro hm
      obtain ⟨ha, hb⟩ := hm
      refine absurd ?_ (not_mem_of_isEmpty h t)
      exact ⟨Int.max_le.mpr ⟨ha.1, hb.1⟩, Int.lt_min.mpr ⟨ha.2, hb.2⟩⟩
  · constructor
    · intro hm
      obtain ⟨c, hc, ht⟩ := hm
      cases hc
      have h₁ := Int.max_le.mp ht.1
      have h₂ := Int.lt_min.mp ht.2
      exact ⟨⟨h₁.1, h₂.1⟩, h₁.2, h₂.2⟩
    · intro hm
      obtain ⟨ha, hb⟩ := hm
      exact ⟨_, rfl, Int.max_le.mpr ⟨ha.1, hb.1⟩, Int.lt_min.mpr ⟨ha.2, hb.2⟩⟩

/-- The pieces on either side of `b` hold the rest of `a`. -/
theorem mem_cut {a b : Interval} {t : Instant} :
    (∃ c ∈ a.cut b, t ∈ c) ↔ t ∈ a ∧ t ∉ b := by
  simp only [cut]
  split
  · rename_i ho
    simp only [overlaps, Bool.and_eq_true, decide_eq_true_eq] at ho
    constructor
    · intro hm
      obtain ⟨c, hc, ht⟩ := hm
      have hl := ht.1
      have hr := ht.2
      rcases List.mem_append.mp hc with hc | hc <;> split at hc <;>
        simp only [List.mem_singleton, List.not_mem_nil] at hc
      all_goals subst c
      · exact ⟨⟨hl, by lia⟩, fun h => by have := h.1; lia⟩
      · exact ⟨⟨by lia, hr⟩, fun h => by have := h.2; lia⟩
    · intro hm
      obtain ⟨ha, hn⟩ := hm
      have hl := ha.1
      have hr := ha.2
      by_cases hs : t < b.start
      · exact ⟨⟨a.start, b.start⟩, by simp [show a.start < b.start by lia], hl, hs⟩
      · have he : b.stop ≤ t := by
          by_cases he : t < b.stop
          · exact absurd ⟨by lia, he⟩ hn
          · lia
        exact ⟨⟨b.stop, a.stop⟩, by simp [show b.stop < a.stop by lia], he, hr⟩
  · rename_i ho
    simp only [overlaps, Bool.and_eq_true, decide_eq_true_eq] at ho
    constructor
    · intro hm
      obtain ⟨c, hc, ht⟩ := hm
      cases List.mem_singleton.mp hc
      refine ⟨ht, fun h => ho ?_⟩
      have := ht.1
      have := ht.2
      have := h.1
      have := h.2
      exact ⟨by lia, by lia⟩
    · intro hm
      obtain ⟨ha, _⟩ := hm
      exact ⟨a, List.mem_singleton.mpr rfl, ha⟩

end Interval

namespace TimeSet

theorem mem_def {s : TimeSet} {t : Instant} : t ∈ s ↔ ∃ r ∈ s.intervals, t ∈ r := Iff.rfl

@[simp] theorem not_mem_empty (t : Instant) : t ∉ empty := by
  intro h
  obtain ⟨r, hr, _⟩ := h
  cases hr

theorem mem_cons {r : Interval} {l : List Interval} {t : Instant} :
    t ∈ TimeSet.mk (r :: l) ↔ t ∈ r ∨ t ∈ TimeSet.mk l := by
  simp [mem_def]

/-- A set without intervals is the empty one. -/
theorem eq_empty_of_isEmpty {s : TimeSet} (h : s.isEmpty = true) : s = empty := by
  obtain ⟨l⟩ := s
  cases l with
  | nil => rfl
  | cons r l => cases h

theorem mem_remove {s : TimeSet} {r : Interval} {t : Instant} :
    t ∈ s.remove r ↔ t ∈ s ∧ t ∉ r := by
  simp only [remove]
  split
  · rename_i h
    exact ⟨fun ht => ⟨ht, Interval.not_mem_of_isEmpty h t⟩, fun ht => ht.1⟩
  · simp only [mem_def, List.mem_flatMap]
    constructor
    · intro hm
      obtain ⟨c, ⟨a, ha, hc⟩, ht⟩ := hm
      obtain ⟨hta, hn⟩ := Interval.mem_cut.mp ⟨c, hc, ht⟩
      exact ⟨⟨a, ha, hta⟩, hn⟩
    · intro hm
      obtain ⟨⟨a, ha, hta⟩, hn⟩ := hm
      obtain ⟨c, hc, ht⟩ := Interval.mem_cut.mpr ⟨hta, hn⟩
      exact ⟨c, ⟨a, ha, hc⟩, ht⟩

theorem mem_foldl_remove {l : List Interval} {s : TimeSet} {t : Instant} :
    t ∈ l.foldl remove s ↔ t ∈ s ∧ t ∉ TimeSet.mk l := by
  induction l generalizing s with
  | nil => simp [mem_def]
  | cons r l ih =>
    rw [List.foldl_cons, ih, mem_remove, mem_cons, not_or, and_assoc]

@[simp] theorem mem_diff {a b : TimeSet} {t : Instant} : t ∈ a.diff b ↔ t ∈ a ∧ t ∉ b :=
  mem_foldl_remove

@[simp] theorem empty_diff (b : TimeSet) : empty.diff b = empty := by
  obtain ⟨l⟩ := b
  simp only [diff]
  induction l with
  | nil => rfl
  | cons r l ih =>
    have hr : empty.remove r = empty := by
      simp only [remove]
      split <;> rfl
    rw [List.foldl_cons, hr, ih]

theorem Canonical.empty : TimeSet.empty.Canonical := ⟨by simp [TimeSet.empty], .nil⟩

theorem Canonical.tail {r : Interval} {l : List Interval} (h : (TimeSet.mk (r :: l)).Canonical) :
    (TimeSet.mk l).Canonical :=
  ⟨fun e he => h.inhabited e (List.mem_cons_of_mem _ he), (List.pairwise_cons.mp h.separated).2⟩

/-- A canonical list beyond an interval that ends before it starts. -/
theorem Canonical.cons {r : Interval} {l : List Interval} (h : (TimeSet.mk l).Canonical)
    (hr : r.start < r.stop) (hl : ∀ e ∈ l, r.stop < e.start) :
    (TimeSet.mk (r :: l)).Canonical := by
  refine ⟨fun e he => ?_, List.pairwise_cons.mpr ⟨hl, h.separated⟩⟩
  rcases List.mem_cons.mp he with rfl | he
  · exact hr
  · exact h.inhabited e he

/-- Intervals beyond one that `m` does not reach are left alone. -/
theorem place_placed {m : Interval} {l : List Interval} (hm : m.start < m.stop)
    (hl : ∀ e ∈ l, m.stop < e.start ∧ e.start < e.stop) : place m true l = l := by
  induction l with
  | nil => rfl
  | cons e l ih =>
    obtain ⟨he, hi⟩ := hl e List.mem_cons_self
    rw [place, if_neg (by lia), if_pos he,
      ih fun d hd => hl d (List.mem_cons_of_mem _ hd)]
    rfl

/-- The intervals after the one that `m` comes before. -/
theorem place_before {m e : Interval} {l : List Interval} (hm : m.start < m.stop)
    (h : (TimeSet.mk (e :: l)).Canonical) (he : m.stop < e.start) :
    place m false (e :: l) = m :: e :: l := by
  have hi := h.inhabited e List.mem_cons_self
  rw [place, if_neg (by lia), if_pos he, place_placed hm fun d hd => ?_]
  · rfl
  · have hd' := h.inhabited d (List.mem_cons_of_mem _ hd)
    have := (List.pairwise_cons.mp h.separated).1 d hd
    exact ⟨by lia, hd'⟩

/-- What stays true of `m` while it grows is true of every interval in the end. -/
theorem forall_mem_place {p q : Interval → Prop} (keep : ∀ m, p m → q m)
    (grow : ∀ m e, p m → q e → ¬ e.stop < m.start → ¬ m.stop < e.start → p (m.hull e))
    {m : Interval} {l : List Interval} (hm : p m) (hl : ∀ e ∈ l, q e) {placed : Bool} :
    ∀ e ∈ place m placed l, q e := by
  induction l generalizing m placed with
  | nil =>
    intro e he
    cases placed
    · cases List.mem_singleton.mp he
      exact keep m hm
    · cases he
  | cons d l ih =>
    obtain ⟨hd, hl⟩ := List.forall_mem_cons.mp hl
    rw [place]
    split
    · exact List.forall_mem_cons.mpr ⟨hd, ih hm hl⟩
    · split
      · have first : ∀ e ∈ if placed then [d] else [m, d], q e := by
          cases placed
          · exact List.forall_mem_cons.mpr ⟨keep m hm, List.forall_mem_singleton.mpr hd⟩
          · exact List.forall_mem_singleton.mpr hd
        exact List.forall_mem_append.mpr ⟨first, ih hm hl⟩
      · rename_i after before
        exact ih (grow m d hm hd after before) hl

/-- Whatever starts after `b` and after `m` does still does once `m` has been placed. -/
theorem le_start_of_mem_place {m : Interval} {b : Instant} {l : List Interval} (hb : b < m.start)
    (hl : ∀ e ∈ l, b < e.start) {placed : Bool} : ∀ e ∈ place m placed l, b < e.start :=
  forall_mem_place (fun _ hb => hb) (fun _ _ hb he _ _ => Int.lt_min.mpr ⟨hb, he⟩) hb hl

theorem canonical_place {m : Interval} {l : List Interval} (hm : m.start < m.stop)
    (h : (TimeSet.mk l).Canonical) : (TimeSet.mk (place m false l)).Canonical := by
  induction l generalizing m with
  | nil => exact h.cons hm (by simp)
  | cons e l ih =>
    have hi := h.inhabited e List.mem_cons_self
    have hs := (List.pairwise_cons.mp h.separated).1
    by_cases hlt : e.stop < m.start
    · rw [place, if_pos hlt]
      exact (ih hm h.tail).cons hi (le_start_of_mem_place hlt hs)
    · by_cases hgt : m.stop < e.start
      · rw [place_before hm h hgt]
        refine h.cons hm fun d hd => ?_
        rcases List.mem_cons.mp hd with rfl | hd
        · exact hgt
        · have := hs d hd
          lia
      · rw [place, if_neg hlt, if_neg hgt]
        exact ih (by simp only [Interval.hull]; lia) h.tail

theorem mem_place {m : Interval} {l : List Interval} (hm : m.start < m.stop)
    (h : (TimeSet.mk l).Canonical) {t : Instant} :
    t ∈ TimeSet.mk (place m false l) ↔ t ∈ TimeSet.mk l ∨ t ∈ m := by
  induction l generalizing m with
  | nil => simp [place, mem_def]
  | cons e l ih =>
    by_cases hlt : e.stop < m.start
    · rw [place, if_pos hlt, mem_cons, mem_cons, ih hm h.tail, or_assoc]
    · by_cases hgt : m.stop < e.start
      · rw [place_before hm h hgt, mem_cons, or_comm]
      · have hi := h.inhabited e List.mem_cons_self
        -- the hull adds nothing, since the two touch
        have hull : t ∈ m.hull e ↔ t ∈ e ∨ t ∈ m := by
          simp only [Membership.mem, Interval.hull]
          lia
        rw [place, if_neg hlt, if_neg hgt, ih (by simp only [Interval.hull]; lia) h.tail, hull,
          mem_cons, or_left_comm, or_assoc]

theorem Canonical.add {s : TimeSet} (h : s.Canonical) (r : Interval) : (s.add r).Canonical := by
  simp only [TimeSet.add]
  split
  · exact h
  · rename_i hr
    exact canonical_place (Interval.isEmpty_eq_false_iff.mp (Bool.eq_false_iff.mpr hr)) h

theorem mem_add {s : TimeSet} (h : s.Canonical) {r : Interval} {t : Instant} :
    t ∈ s.add r ↔ t ∈ s ∨ t ∈ r := by
  simp only [add]
  split
  · rename_i hr
    exact ⟨.inl, fun ht => ht.resolve_right (Interval.not_mem_of_isEmpty hr t)⟩
  · rename_i hr
    exact mem_place (Interval.isEmpty_eq_false_iff.mp (Bool.eq_false_iff.mpr hr)) h

theorem Canonical.foldl_add {s : TimeSet} (h : s.Canonical) (l : List Interval) :
    (l.foldl TimeSet.add s).Canonical := by
  induction l generalizing s with
  | nil => exact h
  | cons r l ih => exact ih (h.add r)

theorem mem_foldl_add {s : TimeSet} (h : s.Canonical) {l : List Interval} {t : Instant} :
    t ∈ l.foldl add s ↔ t ∈ s ∨ t ∈ TimeSet.mk l := by
  induction l generalizing s with
  | nil => simp [mem_def]
  | cons r l ih => rw [List.foldl_cons, ih (h.add r), mem_add h, mem_cons, or_assoc]

/-- Only the set that is added to has to be canonical. -/
theorem Canonical.union {a : TimeSet} (h : a.Canonical) (b : TimeSet) : (a.union b).Canonical :=
  h.foldl_add b.intervals

theorem mem_union {a b : TimeSet} (h : a.Canonical) {t : Instant} :
    t ∈ a.union b ↔ t ∈ a ∨ t ∈ b :=
  mem_foldl_add h

theorem Canonical.ofInterval (r : Interval) : (ofInterval r).Canonical := Canonical.empty.add r

@[simp] theorem mem_ofInterval {r : Interval} {t : Instant} : t ∈ ofInterval r ↔ t ∈ r := by
  simp [ofInterval, mem_add Canonical.empty]

theorem Canonical.clip (s : TimeSet) (r : Interval) : (s.clip r).Canonical :=
  Canonical.empty.foldl_add _

@[simp] theorem mem_clip {s : TimeSet} {r : Interval} {t : Instant} :
    t ∈ s.clip r ↔ t ∈ s ∧ t ∈ r := by
  rw [clip, ofIntervals, mem_foldl_add Canonical.empty, or_iff_right (not_mem_empty t)]
  simp only [mem_def, List.mem_filterMap]
  constructor
  · intro h
    obtain ⟨c, ⟨a, ha, hc⟩, ht⟩ := h
    obtain ⟨hta, htr⟩ := Interval.mem_intersect.mp ⟨c, hc, ht⟩
    exact ⟨⟨a, ha, hta⟩, htr⟩
  · intro h
    obtain ⟨⟨a, ha, hta⟩, htr⟩ := h
    obtain ⟨c, hc, ht⟩ := Interval.mem_intersect.mpr ⟨hta, htr⟩
    exact ⟨c, ⟨a, ha, hc⟩, ht⟩

theorem Canonical.lt_of_mem_tail {r : Interval} {l : List Interval}
    (h : (TimeSet.mk (r :: l)).Canonical) {t : Instant} (ht : t ∈ TimeSet.mk l) : r.stop < t := by
  obtain ⟨e, he, low, _⟩ := ht
  have apart := (List.pairwise_cons.mp h.separated).1 e he
  lia

theorem Canonical.start_le_of_mem {r : Interval} {l : List Interval}
    (h : (TimeSet.mk (r :: l)).Canonical) {t : Instant} (ht : t ∈ TimeSet.mk (r :: l)) :
    r.start ≤ t := by
  rcases mem_cons.mp ht with here | later
  · exact here.1
  · have apart := h.lt_of_mem_tail later
    have first := h.inhabited r List.mem_cons_self
    lia

theorem Canonical.start_mem {r : Interval} {l : List Interval}
    (h : (TimeSet.mk (r :: l)).Canonical) : r.start ∈ TimeSet.mk (r :: l) :=
  mem_cons.mpr (.inl ⟨Int.le_refl _, h.inhabited r List.mem_cons_self⟩)

/-- The first gap of a set is a gap in each part of it. -/
theorem Canonical.stop_le {r q : Interval} {l m : List Interval}
    (hb : (TimeSet.mk (q :: m)).Canonical) (start : r.start = q.start)
    (sub : ∀ t, t ∈ TimeSet.mk (r :: l) → t ∈ TimeSet.mk (q :: m)) : r.stop ≤ q.stop := by
  have first := hb.inhabited q List.mem_cons_self
  apply Int.not_lt.mp
  intro lt
  rcases mem_cons.mp (sub q.stop (mem_cons.mpr (.inl ⟨by lia, lt⟩))) with here | later
  · have := here.2
    lia
  · have := hb.lt_of_mem_tail later
    lia

/-- A canonical set is the only one with its members. -/
theorem Canonical.ext {a b : TimeSet} (ha : a.Canonical) (hb : b.Canonical)
    (h : ∀ t, t ∈ a ↔ t ∈ b) : a = b := by
  obtain ⟨l⟩ := a
  obtain ⟨m⟩ := b
  induction l generalizing m with
  | nil =>
    cases m with
    | nil => rfl
    | cons q m => exact absurd ((h _).mpr hb.start_mem) (not_mem_empty _)
  | cons r l ih =>
    cases m with
    | nil => exact absurd ((h _).mp ha.start_mem) (not_mem_empty _)
    | cons q m =>
      have start : r.start = q.start := by
        have := ha.start_le_of_mem ((h _).mpr hb.start_mem)
        have := hb.start_le_of_mem ((h _).mp ha.start_mem)
        lia
      have stop : r.stop = q.stop := by
        have := hb.stop_le start fun t => (h t).mp
        have := ha.stop_le start.symm fun t => (h t).mpr
        lia
      have head : r = q := by
        cases r
        cases q
        simp_all
      subst head
      have apart {k : List Interval} (hk : (TimeSet.mk (r :: k)).Canonical) {t : Instant}
          (ht : t ∈ TimeSet.mk k) : t ∉ r := by
        have later := hk.lt_of_mem_tail ht
        intro here
        have := here.2
        lia
      have tails : TimeSet.mk l = TimeSet.mk m := by
        refine ih ha.tail m hb.tail fun t => ⟨fun ht => ?_, fun ht => ?_⟩
        · exact (mem_cons.mp ((h t).mp (mem_cons.mpr (.inr ht)))).resolve_left (apart ha ht)
        · exact (mem_cons.mp ((h t).mpr (mem_cons.mpr (.inr ht)))).resolve_left (apart hb ht)
      rw [TimeSet.mk.injEq] at tails
      rw [tails]

end TimeSet

end Backfill
