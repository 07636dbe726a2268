import Backfill.Proofs.Coverage
import Backfill.Proofs.Trail
import Backfill.Proofs.Windows

/-!
A set of instants cut along the aligned windows: the slices lie in the set, each in one window, and
leave nothing out.
-/

namespace Backfill

namespace Instant

theorem floor_eq_mul (t : Instant) (size : Duration) : t.floor size = size * (t / size) := by
  have := Int.mul_ediv_add_emod t size
  unfold floor
  lia

theorem floor_mono {size : Duration} (hs : 0 < size) {s t : Instant} (h : s ≤ t) :
    s.floor size ≤ t.floor size := by
  rw [floor_eq_mul, floor_eq_mul]
  exact Int.mul_le_mul_of_nonneg_left (Int.ediv_le_ediv hs h) (Int.le_of_lt hs)

/-- Instants in order, without those that come again: nothing is lost on an operation that a second
time does nothing more. -/
theorem exists_strict {β γ : Type} {l : List Instant} (h : l.Pairwise (· ≤ ·))
    (g : Instant → Option β) (op : γ → β → γ) (again : ∀ m b, op (op m b) b = op m b) :
    ∃ l' : List Instant, l'.Pairwise (· < ·) ∧ (∀ b, b ∈ l' ↔ b ∈ l) ∧
      ∀ m, (l'.filterMap g).foldl op m = (l.filterMap g).foldl op m := by
  induction l with
  | nil => exact ⟨[], .nil, fun b => Iff.rfl, fun m => rfl⟩
  | cons a l ih =>
    obtain ⟨ha, hl⟩ := List.pairwise_cons.mp h
    obtain ⟨l', strict, mem, fold⟩ := ih hl
    by_cases hm : a ∈ l
    · refine ⟨l', strict, fun b => ?_, fun m => ?_⟩
      · rw [mem, List.mem_cons]
        constructor
        · exact .inr
        · intro hx
          rcases hx with rfl | hb
          · exact hm
          · exact hb
      · -- `a` comes first in `l'` too
        cases l' with
        | nil => exact absurd ((mem a).mpr hm) List.not_mem_nil
        | cons c l' =>
          have hc : a ≤ c := ha c ((mem c).mp List.mem_cons_self)
          have first : c = a := by
            rcases List.mem_cons.mp ((mem a).mpr hm) with eq | hmem
            · exact eq.symm
            · have := (List.pairwise_cons.mp strict).1 a hmem
              lia
          subst first
          have hm := fold m
          simp only [List.filterMap_cons] at fold ⊢
          cases hg : g c with
          | none =>
            simp only [hg] at fold ⊢
            exact fold m
          | some b =>
            simp only [hg, List.foldl_cons] at fold ⊢
            rw [← fold (op m b), again]
    · refine ⟨a :: l', List.pairwise_cons.mpr ⟨fun b hb => ?_, strict⟩, fun b => ?_, fun m => ?_⟩
      · have hb := (mem b).mp hb
        have := ha b hb
        have ne : a ≠ b := fun eq => hm (eq ▸ hb)
        lia
      · rw [List.mem_cons, List.mem_cons, mem]
      · simp only [List.filterMap_cons]
        cases g a with
        | none => exact fold m
        | some b => exact fold (op m b)

end Instant

namespace TimeSet

/-- Every interval fits into words. -/
def FitsWords (s : TimeSet) : Prop := ∀ r ∈ s.intervals, r.FitsWords

instance (s : TimeSet) : Decidable s.FitsWords :=
  inferInstanceAs (Decidable (∀ r ∈ s.intervals, r.FitsWords))

theorem FitsWords.of_mem {s : TimeSet} (h : s.FitsWords) {t : Instant} (ht : t ∈ s) :
    FitsWord t := by
  obtain ⟨r, hr, hl, hu⟩ := ht
  obtain ⟨⟨_, _⟩, _, _⟩ := h r hr
  exact ⟨by lia, by lia⟩

/-- What is left of an interval lies in it. -/
theorem fitsWords_of_mem_cut {a b c : Interval} (h : a.FitsWords) (hc : c ∈ a.cut b) :
    c.FitsWords := by
  simp only [Interval.cut] at hc
  split at hc
  · rename_i meet
    obtain ⟨⟨_, _⟩, _, _⟩ := h
    simp only [Interval.overlaps, Bool.and_eq_true, decide_eq_true_eq] at meet
    rcases List.mem_append.mp hc with hc | hc <;> split at hc <;>
      simp only [List.mem_singleton, List.not_mem_nil] at hc
    all_goals
      subst c
      exact ⟨⟨by lia, by lia⟩, by lia, by lia⟩
  · cases List.mem_singleton.mp hc
    exact h

theorem FitsWords.diff {a : TimeSet} (h : a.FitsWords) (b : TimeSet) : (a.diff b).FitsWords := by
  obtain ⟨l⟩ := b
  rw [TimeSet.diff]
  dsimp only
  induction l generalizing a with
  | nil => exact h
  | cons r l ih =>
    refine ih fun c hc => ?_
    rw [remove] at hc
    split at hc
    · exact h c hc
    · obtain ⟨e, he, hc⟩ := List.mem_flatMap.mp hc
      exact fitsWords_of_mem_cut (h e he) hc

/-- One aligned window, and a part of `r` in it. -/
structure Slice.Within (v : Slice) (r : Interval) (size : Duration) : Prop where
  aligned : v.window.Aligned size
  inhabited : v.part.start < v.part.stop
  mem_part : ∀ t, t ∈ v.part ↔ t ∈ v.window ∧ t ∈ r

theorem Slice.Within.window_eq {v : Slice} {r : Interval} {size : Duration} (h : v.Within r size)
    {t : Instant} (ht : t ∈ v.part) : v.window = Interval.around t size :=
  h.aligned.eq_around ((h.mem_part t).mp ht).1

theorem Slice.Within.start_mem {v : Slice} {r : Interval} {size : Duration} (h : v.Within r size) :
    v.part.start ∈ v.part := ⟨Int.le_refl _, h.inhabited⟩

theorem Slice.Within.fitsWords {v : Slice} {r : Interval} {size : Duration} (h : v.Within r size)
    (hr : r.FitsWords) : v.part.FitsWords := by
  have first := ((h.mem_part v.part.start).mp h.start_mem).2
  have last : v.part.stop - 1 ∈ r := by
    have := h.inhabited
    refine ((h.mem_part _).mp ⟨?_, ?_⟩).2 <;> lia
  have hl := first.1
  have hr' := last.2
  have := h.inhabited
  obtain ⟨⟨_, _⟩, _, _⟩ := hr
  exact ⟨⟨by lia, by lia⟩, by lia, by lia⟩

/-- The part of a window that was cut off needs no other window. -/
theorem Slice.Within.windows_part {v : Slice} {r : Interval} {size : Duration} (hs : 0 < size)
    (hw : FitsWord size) (hr : r.FitsWords) (h : v.Within r size) :
    v.part.windows size = ⟨[v.window], .ok ()⟩ := by
  obtain ⟨n, heq, hstop, hlt⟩ := Interval.windows_eq hs hw (h.fitsWords hr) h.inhabited
  have window : v.window = ⟨v.part.start.floor size, v.part.start.floor size + size⟩ :=
    h.window_eq h.start_mem
  have hi := h.inhabited
  have hfloor := Instant.floor_le hs v.part.start
  have last : v.part.stop ≤ v.part.start.floor size + size := by
    have hl : v.part.stop - 1 ∈ v.part := ⟨by lia, by lia⟩
    have hl := ((h.mem_part _).mp hl).1.2
    rw [window] at hl
    dsimp only at hl
    lia
  rw [heq]
  match n, hstop, hlt with
  | 0, hstop, _ =>
    simp at hstop
    lia
  | 1, _, _ => rw [window]; rfl
  | n + 2, _, hlt =>
    have second := hlt _ (List.mem_cons_of_mem _ List.mem_cons_self)
    dsimp only at second
    lia

/-- The slices of one interval. -/
def slicesOf (size : Duration) (r : Interval) : List Slice :=
  (r.windows size).entries.filterMap fun w => (w.intersect r).map (⟨w, ·⟩)

variable {s : TimeSet} {size : Duration}

theorem windows_ok (hs : 0 < size) (hw : FitsWord size) {r : Interval} (hr : r.FitsWords) :
    (r.windows size).outcome = .ok () := by
  by_cases hne : r.start < r.stop
  · obtain ⟨n, h, _⟩ := Interval.windows_eq hs hw hr hne
    rw [h]
  · rw [Interval.windows, Interval.windowsUpTo, if_pos (by simp [Interval.isEmpty]; lia)]
    rfl

theorem slices_eq (hs : 0 < size) (hw : FitsWord size) (hf : s.FitsWords) :
    s.slices size = ⟨s.intervals.flatMap (slicesOf size), .ok ()⟩ :=
  Trail.each_ok fun r hr => by
    dsimp only
    rw [windows_ok hs hw (hf r hr)]
    rfl

theorem within_of_mem_slicesOf (hs : 0 < size) (hw : FitsWord size) {r : Interval}
    (hr : r.FitsWords) {v : Slice} (hv : v ∈ slicesOf size r) : v.Within r size := by
  obtain ⟨w, hmem, hmap⟩ := List.mem_filterMap.mp hv
  obtain ⟨part, hpart, rfl⟩ := Option.map_eq_some_iff.mp hmap
  have mem (t : Instant) : t ∈ part ↔ t ∈ w ∧ t ∈ r := by
    rw [← Interval.mem_intersect]
    constructor
    · intro ht
      exact ⟨part, hpart, ht⟩
    · intro h
      obtain ⟨c, hc, ht⟩ := h
      rw [hpart] at hc
      cases hc
      exact ht
  have inhabited : part.start < part.stop := by
    simp only [Interval.intersect] at hpart
    split at hpart
    · cases hpart
    · rename_i hne
      cases hpart
      exact Interval.isEmpty_eq_false_iff.mp (Bool.eq_false_iff.mpr hne)
  have hne : r.start < r.stop := by
    have ht := ((mem part.start).mp ⟨Int.le_refl _, inhabited⟩).2
    have := ht.1
    have := ht.2
    lia
  obtain ⟨n, heq, _⟩ := Interval.windows_eq hs hw hr hne
  rw [heq] at hmem
  exact ⟨Interval.tiles_aligned (Instant.floor_emod _ _) hmem, inhabited, mem⟩

theorem exists_slice (hs : 0 < size) (hw : FitsWord size) {r : Interval} (hr : r.FitsWords)
    {t : Instant} (ht : t ∈ r) : ∃ v ∈ slicesOf size r, t ∈ v.part := by
  have hl := ht.1
  have hu := ht.2
  have hfloor := Instant.floor_le hs r.start
  obtain ⟨n, heq, hstop, _⟩ := Interval.windows_eq hs hw hr (by lia)
  obtain ⟨w, hmem, htw⟩ := Interval.exists_tile size (n := n)
    (b := r.start.floor size) (t := t) (by lia) (by lia)
  obtain ⟨part, hpart, htp⟩ := Interval.mem_intersect.mpr ⟨htw, ht⟩
  refine ⟨⟨w, part⟩, List.mem_filterMap.mpr ⟨w, ?_, by rw [hpart]; rfl⟩, htp⟩
  rw [heq]
  exact hmem

/-- Every instant of the set is in a slice, and every slice in the set. -/
theorem mem_iff_slice (hs : 0 < size) (hw : FitsWord size) (hf : s.FitsWords) {t : Instant} :
    t ∈ s ↔ ∃ v ∈ (s.slices size).entries, t ∈ v.part := by
  rw [slices_eq hs hw hf]
  constructor
  · intro h
    obtain ⟨r, hr, ht⟩ := h
    obtain ⟨v, hv, htv⟩ := exists_slice hs hw (hf r hr) ht
    exact ⟨v, List.mem_flatMap.mpr ⟨r, hr, hv⟩, htv⟩
  · intro h
    obtain ⟨v, hv, ht⟩ := h
    obtain ⟨r, hr, hv⟩ := List.mem_flatMap.mp hv
    exact ⟨r, hr, (((within_of_mem_slicesOf hs hw (hf r hr) hv).mem_part t).mp ht).2⟩

theorem exists_within (hs : 0 < size) (hw : FitsWord size) (hf : s.FitsWords) {v : Slice}
    (hv : v ∈ (s.slices size).entries) : ∃ r ∈ s.intervals, v.Within r size := by
  rw [slices_eq hs hw hf] at hv
  obtain ⟨r, hr, hv⟩ := List.mem_flatMap.mp hv
  exact ⟨r, hr, within_of_mem_slicesOf hs hw (hf r hr) hv⟩

/-- The slices of a canonical set come in the order of their windows. -/
theorem slices_ascend (hs : 0 < size) (hw : FitsWord size) (hf : s.FitsWords)
    (hc : s.Canonical) :
    (s.slices size).entries.Pairwise (fun v w => v.window.start ≤ w.window.start) := by
  rw [slices_eq hs hw hf, List.pairwise_flatMap]
  refine ⟨fun r hr => ?_, hc.separated.imp_of_mem fun {r q} hr hq hlt v hv w hw' => ?_⟩
  · refine List.Pairwise.filterMap _ ?_ (R := fun v w => v.start < w.start) ?_
    · intro a b hab v hv w hw
      obtain ⟨_, _, rfl⟩ := Option.map_eq_some_iff.mp hv
      obtain ⟨_, _, rfl⟩ := Option.map_eq_some_iff.mp hw
      exact Int.le_of_lt hab
    · obtain ⟨n, heq, _⟩ := Interval.windows_eq hs hw (hf r hr) (hc.inhabited r hr)
      rw [heq]
      exact Interval.tiles_ascend hs n _
  · -- both parts have an instant, and the windows are those around them
    have hv := within_of_mem_slicesOf hs hw (hf r hr) hv
    have hw' := within_of_mem_slicesOf hs hw (hf q hq) hw'
    have first := ((hv.mem_part _).mp hv.start_mem).2.2
    have second := ((hw'.mem_part _).mp hw'.start_mem).2.1
    rw [hv.window_eq hv.start_mem, hw'.window_eq hw'.start_mem]
    exact Instant.floor_mono hs (by lia)

end TimeSet

/-- Every shard's intervals fit into words. -/
def Coverage.FitsWords (c : Coverage) : Prop := ∀ shard, (c.get shard).FitsWords

theorem Coverage.fitsWords_of_entries {c : Coverage} (h : ∀ e ∈ c.entries, e.2.FitsWords) :
    c.FitsWords := by
  intro shard r hr
  rw [get] at hr
  cases hs : c.sets.get? shard with
  | none =>
    rw [hs] at hr
    cases hr
  | some s =>
    rw [hs] at hr
    exact h (shard, s) (SortedMap.get?_eq_some_iff.mp hs) r hr

theorem Coverage.FitsWords.diff {a : Coverage} (h : a.FitsWords) (b : Coverage) :
    (a.diff b).FitsWords := by
  intro shard
  rw [get_diff]
  exact (h shard).diff _

end Backfill
