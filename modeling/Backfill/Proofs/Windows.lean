import Backfill.Proofs.TimeSet

/-!
The aligned windows that time is cut into, and what a set of instants looks like cut into them.
Everything here is about lengths and times that fit into a word, which the clock never runs out on.
-/

namespace Backfill

/-- The last multiple of `size` not after `t`. -/
def Instant.floor (t : Instant) (size : Duration) : Instant := t - t % size

/-- The aligned window that holds `t`. -/
def Interval.around (t : Instant) (size : Duration) : Interval :=
  ⟨t.floor size, t.floor size + size⟩

/-- A window from a multiple of `size` to the next. -/
structure Interval.Aligned (w : Interval) (size : Duration) : Prop where
  start : w.start % size = 0
  stop : w.stop = w.start + size

namespace Instant

theorem floor_le {size : Duration} (hs : 0 < size) (t : Instant) : t.floor size ≤ t := by
  have := Int.emod_nonneg t (Int.ne_of_gt hs)
  unfold floor
  lia

theorem lt_floor_add {size : Duration} (hs : 0 < size) (t : Instant) : t < t.floor size + size := by
  have := Int.emod_lt_of_pos t hs
  unfold floor
  lia

theorem floor_emod (t : Instant) (size : Duration) : t.floor size % size = 0 :=
  Int.emod_eq_zero_of_dvd (Int.dvd_self_sub_emod ..)

theorem windowStart_eq {t : Instant} {size : Duration} (hs : 0 < size) (hw : FitsWord size)
    (ht : FitsWord t) : windowStart t size = .ok (t.floor size) := by
  rw [windowStart, if_neg (by simp [hw, ht]; lia), if_neg (by lia)]
  rfl

theorem windowStart_total (t : Instant) {size : Duration} (hs : 0 < size) :
    ∃ start, windowStart t size = .ok start := by
  unfold windowStart
  split
  · exact ⟨t, rfl⟩
  · rw [if_neg (Int.ne_of_gt hs)]
    exact ⟨_, rfl⟩

/-- Also beyond a word, a time is in its window. -/
theorem mem_window {t start : Instant} {size : Duration} (hs : 0 < size)
    (h : windowStart t size = .ok start) : t ∈ Interval.mk start (start + size) := by
  have low := floor_le hs t
  have high := lt_floor_add hs t
  unfold windowStart at h
  split at h
  · cases h
    exact ⟨Int.le_refl _, by lia⟩
  · rw [if_neg (by lia)] at h
    cases h
    exact ⟨low, high⟩

theorem shift_eq {t : Instant} {d : Duration} (hl : earliest ≤ t + d) (hu : t + d ≤ latest) :
    shift t d = .ok (t + d) := if_pos ⟨hl, hu⟩

/-- The clock tells the date that comes `d` after `t`. -/
def Reaches (t : Instant) (d : Duration) : Prop := earliest ≤ t + d ∧ t + d ≤ latest

instance (t : Instant) (d : Duration) : Decidable (t.Reaches d) := inferInstanceAs (Decidable (_ ∧ _))

theorem reaches_of_fits {t : Instant} {d : Duration} (ht : FitsWord t) (hd : FitsWord d) :
    t.Reaches d := by
  obtain ⟨_, _⟩ := ht
  obtain ⟨_, _⟩ := hd
  exact ⟨by unfold earliest; lia, by unfold latest; lia⟩

theorem reaches_floor {t : Instant} {size : Duration} (hs : 0 < size) (hw : FitsWord size)
    (ht : FitsWord t) : (t.floor size).Reaches size := by
  have low := floor_le hs t
  have high := lt_floor_add hs t
  obtain ⟨_, _⟩ := hw
  obtain ⟨_, _⟩ := ht
  exact ⟨by unfold earliest; lia, by unfold latest; lia⟩

end Instant

namespace Interval

theorem ofStart_eq {start : Instant} {size : Duration} (h : start.Reaches size) :
    ofStart start size = .ok ⟨start, start + size⟩ := by
  rw [ofStart, Instant.shift_eq h.1 h.2]
  rfl

/-- An aligned window is the one around each of its instants. -/
theorem Aligned.eq_around {w : Interval} {size : Duration} (h : w.Aligned size) {t : Instant}
    (ht : t ∈ w) : w = around t size := by
  have hl := ht.1
  have hr := ht.2
  rw [h.stop] at hr
  have hmod : t % size = t - w.start := by
    have split : t = w.start + (t - w.start) := by lia
    rw [split, Int.add_emod, h.start, Int.zero_add, Int.emod_emod,
      Int.emod_eq_of_lt (by lia) (by lia)]
    lia
  obtain ⟨start, stop⟩ := w
  have hstop : stop = start + size := h.stop
  simp only [around, Instant.floor, Interval.mk.injEq] at hmod ⊢
  lia

theorem Aligned.eq_of_start {v w : Interval} {size : Duration} (hv : v.Aligned size)
    (hw : w.Aligned size) (start : v.start = w.start) : v = w := by
  have stop : v.stop = w.stop := by rw [hv.stop, hw.stop, start]
  cases v
  cases w
  cases start
  cases stop
  rfl

/-- So many windows, each from where the one before it ends. -/
def tiles (size : Duration) : Nat → Instant → List Interval
  | 0, _ => []
  | n + 1, b => ⟨b, b + size⟩ :: tiles size n (b + size)

theorem tiles_start_le {size : Duration} (hs : 0 < size) {n : Nat} {b : Instant} {w : Interval}
    (hw : w ∈ tiles size n b) : b ≤ w.start := by
  induction n generalizing b with
  | zero => cases hw
  | succ n ih =>
    rcases List.mem_cons.mp hw with rfl | hw
    · exact Int.le_refl b
    · have := ih hw
      lia

theorem tiles_ascend {size : Duration} (hs : 0 < size) (n : Nat) (b : Instant) :
    (tiles size n b).Pairwise (fun v w => v.start < w.start) := by
  induction n generalizing b with
  | zero => exact .nil
  | succ n ih =>
    refine List.pairwise_cons.mpr ⟨fun w hw => ?_, ih _⟩
    have := tiles_start_le hs hw
    dsimp only
    lia

theorem tiles_aligned {size : Duration} {n : Nat} {b : Instant} (hb : b % size = 0) {w : Interval}
    (hw : w ∈ tiles size n b) : w.Aligned size := by
  induction n generalizing b with
  | zero => cases hw
  | succ n ih =>
    rcases List.mem_cons.mp hw with rfl | hw
    · exact ⟨hb, rfl⟩
    · exact ih (by rw [Int.add_emod_right, hb]) hw

/-- No instant between the first window and the last is left out. -/
theorem exists_tile (size : Duration) {n : Nat} {b t : Instant} (hl : b ≤ t)
    (hu : t < b + n * size) : ∃ w ∈ tiles size n b, t ∈ w := by
  induction n generalizing b with
  | zero =>
    simp at hu
    lia
  | succ n ih =>
    by_cases ht : t < b + size
    · exact ⟨⟨b, b + size⟩, List.mem_cons_self, hl, ht⟩
    · have hn : ((n + 1 : Nat) : Int) * size = n * size + size := by
        rw [Int.natCast_succ, Int.add_mul, Int.one_mul]
      obtain ⟨w, hw, hm⟩ := ih (b := b + size) (by lia) (by lia)
      exact ⟨w, List.mem_cons_of_mem _ hw, hm⟩

/-- As long as the clock and the fuel last, the walk lists the windows up to `stop`. -/
theorem walk_eq {size : Duration} (hs : 0 < size) (stop : Instant) (fuel : Nat) (b : Instant)
    (hb : b < stop + size) (hl : Instant.earliest ≤ b)
    (hu : stop + size + size ≤ Instant.latest) (hf : stop + size ≤ b + fuel * size) :
    ∃ n, walk (Instant.shift · size) stop fuel b = ⟨tiles size n b, .ok ()⟩ ∧ stop ≤ b + n * size ∧
      ∀ w ∈ tiles size n b, w.start < stop := by
  induction fuel generalizing b with
  | zero =>
    simp at hf
    lia
  | succ fuel ih =>
    have hn (n : Nat) : ((n + 1 : Nat) : Int) * size = n * size + size := by
      rw [Int.natCast_succ, Int.add_mul, Int.one_mul]
    rw [walk, Instant.shift_eq (by lia) (by lia)]
    dsimp only
    split
    · rename_i hlt
      obtain ⟨n, hw, hstop, hall⟩ := ih (b + size) (by lia) (by lia) (by rw [hn] at hf; lia)
      refine ⟨n + 1, ?_, by rw [hn]; lia, fun w hw => ?_⟩
      · rw [hw]
        rfl
      · rcases List.mem_cons.mp hw with rfl | hw
        · exact hlt
        · exact hall w hw
    · rename_i hge
      refine ⟨0, rfl, ?_, fun w hw => by cases hw⟩
      simp
      lia

/-- Both ends fit into a word. -/
structure FitsWords (r : Interval) : Prop where
  start : FitsWord r.start
  stop : FitsWord r.stop

instance (r : Interval) : Decidable r.FitsWords :=
  decidable_of_iff (FitsWord r.start ∧ FitsWord r.stop) ⟨fun h => ⟨h.1, h.2⟩, fun h => ⟨h.1, h.2⟩⟩

/-- The windows of an interval start with the one around its start, and go on up to its end. -/
theorem windows_eq {r : Interval} {size : Duration} (hs : 0 < size) (hw : FitsWord size)
    (hr : r.FitsWords) (hne : r.start < r.stop) :
    ∃ n, r.windows size = ⟨tiles size n (r.start.floor size), .ok ()⟩ ∧
      r.stop ≤ r.start.floor size + n * size ∧
      ∀ w ∈ tiles size n (r.start.floor size), w.start < r.stop := by
  have hfloor := Instant.floor_le hs r.start
  have hfloor' := Instant.lt_floor_add hs r.start
  obtain ⟨hw₁, hw₂⟩ := hw
  obtain ⟨⟨hl₁, hl₂⟩, hu₁, hu₂⟩ := hr
  -- the fuel is for one window more than the quotient, rounded up
  have fuel : r.stop + size ≤ r.start.floor size + (r.windowFuel size : Nat) * size := by
    have hd : r.stop - r.start < size * ((r.stop - r.start) / size) + size :=
      Int.lt_mul_ediv_self_add hs
    have hq : 0 ≤ (r.stop - r.start) / size := Int.ediv_nonneg (by lia) (by lia)
    have hc : ((r.windowFuel size : Nat) : Int) = (r.stop - r.start) / size + 3 := by
      simp only [windowFuel]
      lia
    rw [hc, Int.add_mul, Int.mul_comm ((r.stop - r.start) / size)]
    lia
  obtain ⟨n, h⟩ := walk_eq hs r.stop (r.windowFuel size) (r.start.floor size)
    (by lia) (by unfold Instant.earliest; lia) (by unfold Instant.latest; lia) fuel
  refine ⟨n, ?_, h.2⟩
  rw [windows, windowsUpTo, if_neg (by simp [isEmpty]; lia),
    Instant.windowStart_eq hs ⟨hw₁, hw₂⟩ ⟨hl₁, hl₂⟩, Trail.bind_lift_ok, h.1]

end Interval

end Backfill
