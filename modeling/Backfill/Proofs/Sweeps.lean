import Backfill.Proofs.InstantSets

/-!
Lists of intervals in any order, empty, inverted and overlapping ones among them. Taking away works
on all of them. Putting in goes through the list once, and puts the new interval before the first
that starts beyond it, so it needs that no instant stands only behind an interval that starts after
that instant. That stays so from one change to the next unless an interval is inverted.
-/

namespace Backfill

theorem Interval.mem_mk {a b t : Instant} : t ∈ Interval.mk a b ↔ a ≤ t ∧ t < b := Iff.rfl

namespace TimeSet

variable {s : TimeSet} {m e : Interval} {l : List Interval} {t : Instant} {c : Interval → Bool}

/-- A sweep that goes on while `c` holds comes by an interval that holds `t`. -/
def Seen (c : Interval → Bool) (t : Instant) (l : List Interval) : Prop :=
  t ∈ TimeSet.mk (l.takeWhile c)

/-- The sweep stops at the first interval that starts after `t`. -/
def Met (t : Instant) : List Interval → Prop := Seen (·.start ≤ t) t

instance : Decidable (Met t l) := inferInstanceAs (Decidable (t ∈ TimeSet.mk _))

theorem not_seen_nil : ¬ Seen c t [] := not_mem_empty t

theorem seen_cons : Seen c t (e :: l) ↔ c e = true ∧ (t ∈ e ∨ Seen c t l) := by
  rw [Seen, List.takeWhile_cons]
  by_cases go : c e = true
  · rw [if_pos go, mem_cons, and_iff_right go, Seen]
  · rw [if_neg go]
    exact iff_of_false (not_mem_empty t) fun h => go h.1

theorem seen_all : Seen (fun _ => true) t l ↔ t ∈ TimeSet.mk l := by
  induction l with
  | nil => exact Iff.rfl
  | cons e l ih => rw [seen_cons, and_iff_right rfl, mem_cons, ih]

/-- What holds `t` has started by then. -/
theorem met_cons : Met t (e :: l) ↔ t ∈ e ∨ e.start ≤ t ∧ Met t l := by
  rw [Met, seen_cons, decide_eq_true_eq, and_or_left]
  exact or_congr_left (and_iff_right_of_imp And.left)

/-- A sweep that goes on past all that have started sees what is met. -/
theorem Met.seen (h : Met t l) (started : ∀ e : Interval, e.start ≤ t → c e = true) :
    Seen c t l := by
  induction l with
  | nil => exact absurd h not_seen_nil
  | cons e l ih =>
    rcases met_cons.mp h with here | later
    · exact seen_cons.mpr ⟨started e here.1, .inl here⟩
    · exact seen_cons.mpr ⟨started e later.1, .inr (ih later.2)⟩

/-- No instant stands only behind an interval that starts after it. -/
def Sweepable (s : TimeSet) : Prop := ∀ t ∈ s, Met t s.intervals

/-- Two intervals that touch have nothing between them. -/
theorem mem_hull (_ : m.start < m.stop) (after : ¬ e.stop < m.start) (before : ¬ m.stop < e.start) :
    t ∈ m.hull e ↔ t ∈ e ∨ t ∈ m := by
  simp only [Membership.mem, Interval.hull]
  lia

theorem hull_inhabited (_ : m.start < m.stop) : (m.hull e).start < (m.hull e).stop := by
  simp only [Interval.hull]
  lia

/-- Nothing is there afterwards that was not there before or put in. -/
theorem mem_of_mem_place (hm : m.start < m.stop) {placed : Bool}
    (h : t ∈ TimeSet.mk (place m placed l)) : t ∈ TimeSet.mk l ∨ t ∈ m := by
  apply Decidable.byContradiction
  intro outside
  obtain ⟨others, new⟩ := not_or.mp outside
  obtain ⟨e, he, ht⟩ := h
  refine forall_mem_place (p := fun m => m.start < m.stop ∧ t ∉ m) (q := (t ∉ ·))
    (fun _ => And.right) (fun m e hm out after before => ?_) ⟨hm, new⟩ (fun e he ht => ?_) e he ht
  · refine ⟨hull_inhabited hm.1, fun here => ?_⟩
    exact ((mem_hull hm.1 after before).mp here).elim out hm.2
  · exact others ⟨e, he, ht⟩

/-- The sweep goes on past all that have started or ended by `t`. With all intervals forward, those
that have ended have started, too. -/
structure Passes (c : Interval → Bool) (t : Instant) (l : List Interval) : Prop where
  started : ∀ e : Interval, e.start ≤ t → c e = true
  ended : ∀ e ∈ l, e.stop ≤ t → c e = true

theorem Passes.tail (h : Passes c t (e :: l)) : Passes c t l :=
  ⟨h.started, fun d hd => h.ended d (List.mem_cons_of_mem _ hd)⟩

/-- What is put in is there afterwards. -/
theorem seen_place_self (hm : m.start < m.stop) (pass : Passes c t l) (ht : t ∈ m) :
    Seen c t (place m false l) := by
  induction l generalizing m with
  | nil => exact seen_cons.mpr ⟨pass.started m ht.1, .inl ht⟩
  | cons e l ih =>
    rw [place]
    split
    · rename_i after
      have ended : e.stop ≤ t := Int.le_trans (Int.le_of_lt after) ht.1
      exact seen_cons.mpr ⟨pass.ended e List.mem_cons_self ended, .inr (ih hm pass.tail ht)⟩
    · split
      · exact seen_cons.mpr ⟨pass.started m ht.1, .inl ht⟩
      · rename_i after before
        exact ih (hull_inhabited hm) pass.tail ((mem_hull hm after before).mpr (.inr ht))

/-- Once `m` has been placed it takes up what it touches. That is no loss beyond its end, as long as
nothing reaches over it. -/
theorem seen_place_placed (clear : m.stop ∉ TimeSet.mk l) (beyond : m.stop ≤ t)
    (ht : Seen c t l) : Seen c t (place m true l) := by
  induction l generalizing m with
  | nil => exact ht
  | cons e l ih =>
    obtain ⟨first, rest⟩ := not_or.mp (clear ∘ mem_cons.mpr)
    obtain ⟨go, ht⟩ := seen_cons.mp ht
    rw [place]
    split
    · exact seen_cons.mpr ⟨go, ht.imp_right (ih rest beyond)⟩
    · split
      · exact seen_cons.mpr ⟨go, ht.imp_right (ih rest beyond)⟩
      · rename_i _ before
        have short : e.stop ≤ m.stop := by
          apply Int.not_lt.mp
          intro reaches
          exact first ⟨Int.not_lt.mp before, reaches⟩
        have same : (m.hull e).stop = m.stop := Int.max_eq_left short
        have behind : t ∉ e := by
          intro here
          have := here.2
          lia
        rw [← same] at rest beyond
        exact ih rest beyond (ht.resolve_left behind)

/-- Before the end of `m` it is enough that `t` itself is met. -/
theorem seen_place_near (hm : m.start < m.stop) (pass : Passes c t l) (ht : Met t l)
    (near : t < m.stop) : Seen c t (place m false l) := by
  induction l generalizing m with
  | nil => exact absurd ht not_seen_nil
  | cons e l ih =>
    by_cases here : m.start ≤ t
    · exact seen_place_self hm pass ⟨here, near⟩
    have started : e.start ≤ t := (met_cons.mp ht).elim And.left And.left
    rw [place]
    split
    · refine seen_cons.mpr ⟨pass.started e started, ?_⟩
      exact (met_cons.mp ht).imp_right fun later => ih hm pass.tail later.2 near
    · rw [if_neg (by lia)]
      refine seen_place_self (hull_inhabited hm) pass.tail ?_
      exact ⟨by simp only [Interval.hull]; lia, by simp only [Interval.hull]; lia⟩

/-- Beyond it, what is met at the end of `m` tells that nothing reaches over it later on. -/
theorem seen_place_beyond (hm : m.start < m.stop) (pass : Passes c t l)
    (met : ∀ u ∈ TimeSet.mk l, m.stop ≤ u → Met u l) (beyond : m.stop ≤ t)
    (ht : t ∈ TimeSet.mk l) : Seen c t (place m false l) := by
  induction l generalizing m with
  | nil => exact absurd ht (not_mem_empty t)
  | cons e l ih =>
    -- an interval that has ended by `b` is not what meets an instant from there on
    have rest {b : Instant} (hb : m.stop ≤ b) (short : e.stop ≤ b) :
        ∀ u ∈ TimeSet.mk l, b ≤ u → Met u l := by
      intro u hu hbu
      have behind : u ∉ e := by
        intro here
        have := here.2
        lia
      exact ((met_cons.mp (met u (mem_cons.mpr (.inr hu)) (by lia))).resolve_left behind).2
    rw [place]
    split
    · refine seen_cons.mpr ⟨pass.ended e List.mem_cons_self (by lia), ?_⟩
      exact (mem_cons.mp ht).imp_right (ih hm pass.tail (rest (Int.le_refl _) (by lia)) beyond)
    · split
      · rename_i _ before
        have clear : m.stop ∉ TimeSet.mk l := by
          intro reached
          rcases met_cons.mp (met _ (mem_cons.mpr (.inr reached)) (Int.le_refl _)) with here | later
          · exact absurd here.1 (by lia)
          · exact absurd later.1 (by lia)
        have old : Seen c t (e :: place m true l) := by
          rcases met_cons.mp (met t ht beyond) with here | later
          · exact seen_cons.mpr ⟨pass.started e here.1, .inl here⟩
          · refine seen_cons.mpr ⟨pass.started e later.1, .inr ?_⟩
            exact seen_place_placed clear beyond (later.2.seen pass.started)
        exact seen_cons.mpr ⟨pass.started m (by lia), .inr old⟩
      · by_cases near : t < (m.hull e).stop
        · refine seen_place_self (hull_inhabited hm) pass.tail ⟨?_, near⟩
          simp only [Interval.hull]
          lia
        · have wide : m.stop ≤ (m.hull e).stop := Int.le_max_left ..
          have short : e.stop ≤ (m.hull e).stop := Int.le_max_right ..
          refine ih (hull_inhabited hm) pass.tail (rest wide short) (Int.not_lt.mp near) ?_
          refine (mem_cons.mp ht).resolve_left fun here => near ?_
          exact Int.lt_of_lt_of_le here.2 short

/-- A sweepable list loses nothing. -/
theorem Sweepable.seen_place (h : Sweepable ⟨l⟩) (hm : m.start < m.stop) (pass : Passes c t l)
    (ht : t ∈ TimeSet.mk l ∨ t ∈ m) : Seen c t (place m false l) := by
  rcases ht with old | new
  · by_cases near : t < m.stop
    · exact seen_place_near hm pass (h t old) near
    · exact seen_place_beyond hm pass (fun u hu _ => h u hu) (Int.not_lt.mp near) old
  · exact seen_place_self hm pass new

theorem not_mem_place_placed (start : ∀ e ∈ l, m.start ≤ e.stop) (near : t ≤ m.stop) :
    t ∉ TimeSet.mk (place m true l) := by
  induction l generalizing m with
  | nil => exact not_mem_empty t
  | cons e l ih =>
    have first := start e List.mem_cons_self
    have rest : ∀ d ∈ l, m.start ≤ d.stop := fun d hd => start d (List.mem_cons_of_mem _ hd)
    rw [place, if_neg (by lia)]
    split
    · intro ht
      rcases mem_cons.mp ht with here | later
      · exact absurd here.1 (by lia)
      · exact ih rest near later
    · refine ih (fun d hd => ?_) ?_
      · exact Int.le_trans (Int.min_le_left ..) (rest d hd)
      · exact Int.le_trans near (Int.le_max_left ..)

/-- An interval that comes from before all others and ends where the sweep misses `t` is placed
without it, and takes up whatever holds it later. -/
theorem not_mem_place_of_not_met (missed : ¬ Met t l) (start : ∀ e ∈ l, m.start ≤ e.stop)
    (stop : m.stop = t) : t ∉ TimeSet.mk (place m false l) := by
  induction l generalizing m with
  | nil =>
    intro ht
    have here := (mem_cons.mp ht).resolve_right (not_mem_empty t)
    exact absurd here.2 (by lia)
  | cons e l ih =>
    have first := start e List.mem_cons_self
    have rest : ∀ d ∈ l, m.start ≤ d.stop := fun d hd => start d (List.mem_cons_of_mem _ hd)
    obtain ⟨outside, missed⟩ := not_or.mp (missed ∘ met_cons.mpr)
    rw [place, if_neg (by lia)]
    split
    · intro ht
      rcases mem_cons.mp ht with here | later
      · exact absurd here.2 (by lia)
      · rcases mem_cons.mp later with here | later
        · exact outside here
        · exact not_mem_place_placed rest (by lia) later
    · rename_i before
      have started : e.start ≤ t := by lia
      have short : e.stop ≤ t := Int.not_lt.mp fun reaches => outside ⟨started, reaches⟩
      refine ih (fun met => missed ⟨started, met⟩) (fun d hd => ?_) ?_
      · exact Int.le_trans (Int.min_le_left ..) (rest d hd)
      · simp only [Interval.hull]
        lia

theorem exists_before (l : List Interval) (t : Instant) : ∃ b < t, ∀ e ∈ l, b ≤ e.stop := by
  induction l with
  | nil => exact ⟨t - 1, by lia, by simp⟩
  | cons e l ih =>
    obtain ⟨b, hb, hl⟩ := ih
    refine ⟨min b e.stop, by lia, fun d hd => ?_⟩
    rcases List.mem_cons.mp hd with rfl | hd
    · exact Int.min_le_right ..
    · exact Int.le_trans (Int.min_le_left ..) (hl d hd)

theorem add_of_inhabited {r : Interval} (hr : r.start < r.stop) :
    s.add r = ⟨place r false s.intervals⟩ := by
  rw [add, if_neg (Bool.eq_false_iff.mp (Interval.isEmpty_eq_false_iff.mpr hr))]

theorem add_of_not_inhabited {r : Interval} (hr : ¬ r.start < r.stop) : s.add r = s := by
  rw [add, if_pos (Interval.isEmpty_iff.mpr (Int.not_lt.mp hr))]

theorem mem_of_mem_add {r : Interval} (h : t ∈ s.add r) : t ∈ s ∨ t ∈ r := by
  by_cases hr : r.start < r.stop
  · rw [add_of_inhabited hr] at h
    exact mem_of_mem_place hr h
  · rw [add_of_not_inhabited hr] at h
    exact .inl h

theorem mem_add_self {r : Interval} (h : t ∈ r) : t ∈ s.add r := by
  have hr : r.start < r.stop := Int.lt_of_le_of_lt h.1 h.2
  rw [add_of_inhabited hr]
  exact seen_all.mp (seen_place_self hr ⟨fun _ _ => rfl, fun _ _ _ => rfl⟩ h)

theorem Sweepable.mem_add (h : s.Sweepable) {r : Interval} : t ∈ s.add r ↔ t ∈ s ∨ t ∈ r := by
  refine ⟨mem_of_mem_add, fun ht => ?_⟩
  by_cases hr : r.start < r.stop
  · rw [add_of_inhabited hr]
    exact seen_all.mp (h.seen_place hr ⟨fun _ _ => rfl, fun _ _ _ => rfl⟩ ht)
  · rw [add_of_not_inhabited hr]
    exact ht.resolve_right fun here => hr (Int.lt_of_le_of_lt here.1 here.2)

/-- These are the lists to which every interval can be added. -/
theorem sweepable_iff : s.Sweepable ↔ ∀ r t, t ∈ s.add r ↔ t ∈ s ∨ t ∈ r := by
  constructor
  · intro h r t
    exact h.mem_add
  · intro union t ht
    apply Decidable.byContradiction
    intro missed
    obtain ⟨b, hb, before⟩ := exists_before s.intervals t
    have lost : t ∉ s.add ⟨b, t⟩ := by
      rw [add_of_inhabited hb]
      exact not_mem_place_of_not_met missed before rfl
    exact lost ((union ⟨b, t⟩ t).mpr (.inl ht))

/-- No interval is inverted, and every interval can be added. -/
structure Orderly (s : TimeSet) : Prop where
  forward : ∀ r ∈ s.intervals, r.start ≤ r.stop
  sweepable : s.Sweepable

theorem Orderly.passes (h : s.Orderly) : Passes (·.start ≤ t) t s.intervals :=
  ⟨fun _ started => decide_eq_true started,
    fun d hd ended => decide_eq_true (Int.le_trans (h.forward d hd) ended)⟩

theorem forward_place (hm : m.start < m.stop) (hl : ∀ d ∈ l, d.start ≤ d.stop) {placed : Bool} :
    ∀ d ∈ place m placed l, d.start ≤ d.stop :=
  forall_mem_place (fun _ => Int.le_of_lt) (fun _ _ hm _ _ _ => hull_inhabited hm) hm hl

theorem Orderly.add (h : s.Orderly) (r : Interval) : (s.add r).Orderly := by
  by_cases hr : r.start < r.stop
  · rw [add_of_inhabited hr]
    refine ⟨forward_place hr h.forward, fun t ht => ?_⟩
    exact h.sweepable.seen_place hr h.passes (mem_of_mem_place hr ht)
  · rw [add_of_not_inhabited hr]
    exact h

theorem forward_of_mem_cut {a b : Interval} (forward : a.start ≤ a.stop) (h : e ∈ a.cut b) :
    e.start ≤ e.stop := by
  by_cases inhabited : a.start < a.stop
  · exact Int.le_of_lt (Interval.within_of_mem_cut inhabited h).2.1
  · rw [Interval.cut] at h
    split at h
    · rename_i meet
      simp only [Interval.overlaps, Bool.and_eq_true, decide_eq_true_eq] at meet
      rcases List.mem_append.mp h with h | h <;> split at h <;>
        simp only [List.mem_singleton, List.not_mem_nil] at h
      all_goals
        subst e
        dsimp only
        lia
    · exact List.mem_singleton.mp h ▸ forward

/-- The pieces of `a` are met like `a` itself, away from what is cut out. -/
theorem met_cut_append {a b : Interval} (outside : t ∉ b) (h : Met t (a :: l)) :
    Met t (a.cut b ++ l) := by
  have out : ¬ (b.start ≤ t ∧ t < b.stop) := outside
  have h : a.start ≤ t ∧ t < a.stop ∨ a.start ≤ t ∧ Met t l := met_cons.mp h
  rw [Interval.cut]
  split
  · rename_i meet
    simp only [Interval.overlaps, Bool.and_eq_true, decide_eq_true_eq] at meet
    split <;> split <;>
      simp only [List.cons_append, List.nil_append, met_cons, Interval.mem_mk]
    all_goals grind
  · exact met_cons.mpr h

theorem Met.remove {b : Interval} (outside : t ∉ b) (h : Met t l) :
    Met t (l.flatMap (·.cut b)) := by
  induction l with
  | nil => exact h
  | cons a l ih =>
    rw [List.flatMap_cons]
    apply met_cut_append outside
    exact met_cons.mpr ((met_cons.mp h).imp_right fun later => ⟨later.1, ih later.2⟩)

theorem Sweepable.remove (h : s.Sweepable) (r : Interval) : (s.remove r).Sweepable := by
  intro t ht
  obtain ⟨old, outside⟩ := mem_remove.mp ht
  rw [TimeSet.remove]
  split
  · exact h t old
  · exact (h t old).remove outside

theorem Orderly.remove (h : s.Orderly) (r : Interval) : (s.remove r).Orderly := by
  refine ⟨fun e he => ?_, h.sweepable.remove r⟩
  rw [TimeSet.remove] at he
  split at he
  · exact h.forward e he
  · obtain ⟨a, ha, he⟩ := List.mem_flatMap.mp he
    exact forward_of_mem_cut (h.forward a ha) he

theorem sweepable_of_ascending (h : s.intervals.Pairwise (·.start ≤ ·.start)) : s.Sweepable := by
  obtain ⟨l⟩ := s
  intro t ht
  induction l with
  | nil => exact absurd ht (not_mem_empty t)
  | cons e l ih =>
    obtain ⟨first, rest⟩ := List.pairwise_cons.mp h
    refine met_cons.mpr ((mem_cons.mp ht).imp_right fun later => ⟨?_, ih rest later⟩)
    obtain ⟨d, hd, started, _⟩ := later
    exact Int.le_trans (first d hd) started

/-- A change to a set. -/
inductive Edit where
  | add (r : Interval)
  | remove (r : Interval)

namespace Edit

def apply (s : TimeSet) : Edit → TimeSet
  | add r => s.add r
  | remove r => s.remove r

/-- Whether `t` belongs to the set after the change, given whether it did before. -/
def holds (t : Instant) (before : Prop) : Edit → Prop
  | add r => before ∨ t ∈ r
  | remove r => before ∧ t ∉ r

end Edit

theorem Orderly.apply (h : s.Orderly) (edit : Edit) : (edit.apply s).Orderly := by
  cases edit with
  | add r => exact h.add r
  | remove r => exact h.remove r

theorem Canonical.apply (h : s.Canonical) (edit : Edit) : (edit.apply s).Canonical := by
  cases edit with
  | add r => exact h.add r
  | remove r => exact h.remove r

theorem Sweepable.mem_apply (h : s.Sweepable) (edit : Edit) :
    t ∈ edit.apply s ↔ edit.holds t (t ∈ s) := by
  cases edit with
  | add r => exact h.mem_add
  | remove r => exact mem_remove

/-- Any number of changes, one after the other. -/
theorem Orderly.mem_edits (h : s.Orderly) (edits : List Edit) :
    t ∈ edits.foldl Edit.apply s ↔ edits.foldl (Edit.holds t) (t ∈ s) := by
  induction edits generalizing s with
  | nil => exact Iff.rfl
  | cons edit edits ih =>
    rw [List.foldl_cons, List.foldl_cons, ih (h.apply edit), h.sweepable.mem_apply edit]

theorem Canonical.edits (h : s.Canonical) (edits : List Edit) :
    (edits.foldl Edit.apply s).Canonical :=
  List.foldlRecOn edits Edit.apply h fun _ hs edit _ => hs.apply edit

/-- A set that is not canonical has a canonical twin, which it is not equal to. -/
theorem canonical_iff : s.Canonical ↔ ∀ b : TimeSet, b.Made → (s = b ↔ ∀ t, t ∈ s ↔ t ∈ b) := by
  constructor
  · intro h b hb
    exact ⟨fun same _ => same ▸ Iff.rfl, h.ext hb.canonical⟩
  · intro h
    have made : Made (ofIntervals s.intervals) := .ofIntervals _
    have same : s = ofIntervals s.intervals := (h _ made).mpr fun t =>
      ((mem_foldl_add Canonical.empty).trans (or_iff_right (not_mem_empty t))).symm
    exact same ▸ made.canonical

end TimeSet

end Backfill
