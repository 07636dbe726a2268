import Backfill.Interval.Clock
import Backfill.Proofs.Tiling

/-!
The windows of an interval lie side by side on the grid of the multiples of their length, from the
last one not after the interval's start up to the first that reaches its end. Going from window to
window and rounding each instant down by itself give the same windows.
-/

namespace Backfill

namespace Instant

theorem floor_of_emod {t : Instant} {size : Duration} (h : t % size = 0) : t.floor size = t := by
  rw [floor, h, Int.sub_zero]

/-- No later multiple of `size` is before `t`. -/
theorem le_floor {size : Duration} (hs : 0 < size) {m t : Instant} (hm : m % size = 0)
    (h : m ≤ t) : m ≤ t.floor size := by
  have mono := floor_mono hs h
  rwa [floor_of_emod hm] at mono

/-- Also where the start of the window no longer fits into a word. -/
theorem windowStart_floor {size : Duration} (hs : 0 < size) (t : Instant) :
    windowStart (t.floor size) size = .ok (t.floor size) := by
  unfold windowStart
  split
  · rfl
  · rw [if_neg (Int.ne_of_gt hs), floor_emod, Int.sub_zero]

/-- How instants that fit into a word are rounded down. -/
structure Rounding (size : Duration) : Prop where
  total : ∀ t, FitsWord t → ∃ b, windowStart t size = .ok b
  idempotent : ∀ t b, FitsWord t → windowStart t size = .ok b → windowStart b size = .ok b
  monotone : ∀ s t b c, FitsWord s → FitsWord t → s ≤ t → windowStart s size = .ok b →
    windowStart t size = .ok c → b ≤ c

theorem rounding {size : Duration} (hs : 0 < size) (hw : FitsWord size) : Rounding size where
  total t _ := windowStart_total t hs
  idempotent t b ht h := by
    rw [windowStart_eq hs hw ht, Except.ok.injEq] at h
    subst h
    exact windowStart_floor hs t
  monotone s t b c fits fits' le hb hc := by
    rw [windowStart_eq hs hw fits, Except.ok.injEq] at hb
    rw [windowStart_eq hs hw fits', Except.ok.injEq] at hc
    subst hb hc
    exact floor_mono hs le

end Instant

namespace Interval

/-- The window number `i` from `first` on. -/
def tile (size : Duration) (first : Instant) (i : Nat) : Interval :=
  ⟨first + i * size, first + (i + 1) * size⟩

theorem tiles_eq_map (size : Duration) (n : Nat) (first : Instant) :
    tiles size n first = (List.range n).map (tile size first) := by
  induction n generalizing first with
  | zero => rfl
  | succ n ih =>
    rw [tiles, ih, List.range_succ_eq_map, List.map_cons, List.map_map]
    congr 1
    · simp [tile]
    · refine List.map_congr_left fun i _ => ?_
      simp only [tile, Function.comp_apply, Int.natCast_succ, Int.add_mul, Int.one_mul, mk.injEq]
      constructor <;> lia

/-- With more than `n` steps the walk stops of itself. -/
theorem walk_tiles {size : Duration} (hs : 0 < size) {stop : Instant} {n limit : Nat}
    {b : Instant} (hl : Instant.earliest ≤ b) (hu : stop + size + size ≤ Instant.latest)
    (inside : ∀ w ∈ tiles size n b, w.start < stop) (reached : stop ≤ b + n * size)
    (last : b < stop + size) (more : n < limit) :
    walk (Instant.shift · size) stop limit b = ⟨tiles size n b, .ok ()⟩ := by
  induction n generalizing limit b with
  | zero =>
    obtain ⟨limit, rfl⟩ := Nat.exists_eq_succ_of_ne_zero (Nat.ne_of_gt more)
    rw [walk, Instant.shift_eq (by lia) (by lia)]
    dsimp only
    rw [if_neg (by simp at reached; lia)]
    rfl
  | succ n ih =>
    obtain ⟨limit, rfl⟩ := Nat.exists_eq_succ_of_ne_zero (Nat.ne_of_gt (Nat.zero_lt_of_lt more))
    have here : b < stop := inside _ List.mem_cons_self
    rw [Int.natCast_succ, Int.add_mul, Int.one_mul] at reached
    rw [walk, Instant.shift_eq (by lia) (by lia)]
    dsimp only
    rw [if_pos here, ih (by lia) (fun w hw => inside w (List.mem_cons_of_mem _ hw)) (by lia)
      (by lia) (by omega)]
    rfl

/-- The windows of `r` are `n` on the grid of the multiples of `size`, from `first` on. -/
structure Tiled (r : Interval) (size : Duration) (first : Instant) (n : Nat) : Prop where
  /-- The walk comes to its end. -/
  walk : r.windows size = ⟨(List.range n).map (tile size first), .ok ()⟩
  /-- It is not the number of steps granted that ends it. -/
  ends : ∀ limit, n < limit → r.windowsUpTo limit size = r.windows size
  aligned : size ∣ first
  before : first ≤ r.start
  greatest : ∀ m, size ∣ m → m ≤ r.start → m ≤ first
  needed : ∀ k : Nat, n ≤ k ↔ r.stop ≤ first + k * size
  meets : ∀ w ∈ (r.windows size).entries, ∃ t, t ∈ w ∧ t ∈ r
  apart : ((r.windows size).entries.filterMap (·.intersect r)).Pairwise fun a b =>
    ∀ t, t ∈ a → t ∉ b
  whole : ∀ t, t ∈ r ↔ ∃ part ∈ (r.windows size).entries.filterMap (·.intersect r), t ∈ part
  own : ∀ t ∈ r, ∃ w ∈ (r.windows size).entries, t ∈ w ∧
    Instant.windowStart t size = .ok w.start ∧ ∀ v ∈ (r.windows size).entries, t ∈ v → v = w

theorem intersects_apart {size : Duration} (hs : 0 < size) (r : Interval) :
    ((r.windows size).entries.filterMap (·.intersect r)).Pairwise fun a b =>
      ∀ t, t ∈ a → t ∉ b := by
  refine (windows_apart hs r).2.filterMap _ fun v w apart a ha b hb t hta htb => ?_
  have := (mem_intersect.mp ⟨a, ha, hta⟩).1.2
  have := (mem_intersect.mp ⟨b, hb, htb⟩).1.1
  lia

section Needs

variable {r : Interval} {size : Duration} {n : Nat} (hs : 0 < size)
  (reached : r.stop ≤ r.start.floor size + n * size)
  (inside : ∀ w ∈ tiles size n (r.start.floor size), w.start < r.stop)

include hs

include reached in
theorem exists_tile_mem {t : Instant} (ht : t ∈ r) :
    ∃ w ∈ tiles size n (r.start.floor size), t ∈ w := by
  obtain ⟨low, high⟩ := ht
  have := Instant.floor_le hs r.start
  exact exists_tile size (by lia) (by lia)

include reached in
theorem mem_iff_part {t : Instant} : t ∈ r ↔
    ∃ part ∈ (tiles size n (r.start.floor size)).filterMap (·.intersect r), t ∈ part := by
  simp only [List.mem_filterMap]
  constructor
  · intro ht
    obtain ⟨w, listed, here⟩ := exists_tile_mem hs reached ht
    obtain ⟨part, meets, there⟩ := mem_intersect.mpr ⟨here, ht⟩
    exact ⟨part, ⟨w, listed, meets⟩, there⟩
  · intro h
    obtain ⟨part, ⟨w, _, meets⟩, ht⟩ := h
    exact (mem_intersect.mp ⟨part, meets, ht⟩).2

include reached in
theorem exists_own_tile (hw : FitsWord size) {t : Instant} (ht : t ∈ r) (fits : FitsWord t) :
    ∃ w ∈ tiles size n (r.start.floor size), t ∈ w ∧
      Instant.windowStart t size = .ok w.start ∧
      ∀ v ∈ tiles size n (r.start.floor size), t ∈ v → v = w := by
  have multiple := Instant.floor_emod r.start size
  obtain ⟨w, listed, here⟩ := exists_tile_mem hs reached ht
  have around := (tiles_aligned multiple listed).eq_around here
  refine ⟨w, listed, here, ?_, fun v other there => ?_⟩
  · rw [Instant.windowStart_eq hs hw fits, around]
    rfl
  · rw [(tiles_aligned multiple other).eq_around there, around]

include inside in
theorem tile_meets (hne : r.start < r.stop) {w : Interval}
    (hw : w ∈ tiles size n (r.start.floor size)) : ∃ t, t ∈ w ∧ t ∈ r := by
  have within := inside w hw
  have later := tiles_start_le hs hw
  have stop := (tiles_aligned (Instant.floor_emod r.start size) hw).stop
  have after := Instant.lt_floor_add hs r.start
  by_cases h : w.start < r.start
  · exact ⟨r.start, ⟨by lia, by lia⟩, Int.le_refl _, hne⟩
  · exact ⟨w.start, ⟨Int.le_refl _, by lia⟩, by lia, within⟩

include reached inside in
theorem tiles_needed (k : Nat) : n ≤ k ↔ r.stop ≤ r.start.floor size + k * size := by
  constructor
  · intro enough
    have longer := Int.mul_le_mul_of_nonneg_right (Int.ofNat_le.mpr enough) (Int.le_of_lt hs)
    lia
  · intro enough
    apply Nat.not_lt.mp
    intro few
    have listed : tile size (r.start.floor size) k ∈ tiles size n (r.start.floor size) := by
      rw [tiles_eq_map]
      exact List.mem_map.mpr ⟨k, List.mem_range.mpr few, rfl⟩
    have within := inside _ listed
    dsimp only [tile] at within
    lia

include reached inside in
theorem windowsUpTo_tiles (hw : FitsWord size) (hr : r.FitsWords) (hne : r.start < r.stop)
    {limit : Nat} (more : n < limit) :
    r.windowsUpTo limit size = ⟨tiles size n (r.start.floor size), .ok ()⟩ := by
  have before := Instant.floor_le hs r.start
  have after := Instant.lt_floor_add hs r.start
  rw [windowsUpTo, if_neg (Bool.eq_false_iff.mp (isEmpty_eq_false_iff.mpr hne)),
    Instant.windowStart_eq hs hw hr.start, Trail.bind_lift_ok]
  obtain ⟨⟨_, _⟩, _, _⟩ := hr
  obtain ⟨_, _⟩ := hw
  exact walk_tiles hs (by unfold Instant.earliest; lia) (by unfold Instant.latest; lia)
    inside reached (by lia) more

end Needs

theorem windows_tiled {r : Interval} {size : Duration} (hs : 0 < size) (hw : FitsWord size)
    (hr : r.FitsWords) (hne : r.start < r.stop) :
    ∃ n, r.Tiled size (r.start.floor size) n := by
  obtain ⟨n, walk, reached, inside⟩ := windows_eq hs hw hr hne
  have entries : (r.windows size).entries = tiles size n (r.start.floor size) := by rw [walk]
  refine ⟨n, ?_⟩
  constructor
  case walk => rw [walk, tiles_eq_map]
  case ends =>
    intro limit more
    rw [walk, windowsUpTo_tiles hs reached inside hw hr hne more]
  case aligned => exact Int.dvd_of_emod_eq_zero (Instant.floor_emod r.start size)
  case before => exact Instant.floor_le hs r.start
  case greatest =>
    intro m hm
    exact Instant.le_floor hs (Int.emod_eq_zero_of_dvd hm)
  case needed => exact tiles_needed hs reached inside
  case meets =>
    rw [entries]
    exact fun w => tile_meets hs inside hne
  case apart => exact intersects_apart hs r
  case whole =>
    rw [entries]
    exact fun t => mem_iff_part hs reached
  case own =>
    rw [entries]
    intro t ht
    obtain ⟨low, high⟩ := ht
    obtain ⟨⟨_, _⟩, _, _⟩ := hr
    exact exists_own_tile hs reached hw ⟨low, high⟩ ⟨by lia, by lia⟩

/-- Away from leap seconds the clock shows the same windows and rounds times down to the same
ones. -/
structure OnClock (r : Interval) (size : Duration) : Prop where
  entries : ∀ limit, ((r.map ClockTime.ofInstant).clockWindows limit size).entries =
    (r.windowsUpTo limit size).entries.map (map ClockTime.ofInstant)
  outcome : ∀ limit, ((r.map ClockTime.ofInstant).clockWindows limit size).outcome =
    (r.windowsUpTo limit size).outcome
  start : ∀ t, ClockTime.windowStart (.ofInstant t) size =
    (Instant.windowStart t size).map ClockTime.ofInstant

theorem on_clock (r : Interval) (size : Duration) : r.OnClock size where
  entries limit := by rw [clockWindows_ofInstant]
  outcome limit := by rw [clockWindows_ofInstant]
  start t := ClockTime.windowStart_ofInstant t size

/-- The windows of an interval that fits into words lie on the grid, as many as it needs, and part
it; instants by themselves are rounded down to the same grid. Instants are what the clock shows away
from leap seconds, and it shows them the same windows. -/
theorem windows_part_grid {r : Interval} {size : Duration} (hs : 0 < size) (hw : FitsWord size)
    (hr : r.FitsWords) (hne : r.start < r.stop) :
    (∃ first n, r.Tiled size first n) ∧ Instant.Rounding size ∧ r.OnClock size :=
  ⟨⟨_, windows_tiled hs hw hr hne⟩, Instant.rounding hs hw, on_clock r size⟩

/-- From before the epoch to after it, with neither end on the grid. -/
theorem windows_part_grid_epoch :
    let r := Interval.mk (-5) 7
    (0 : Int) < 4 ∧ FitsWord 4 ∧ r.FitsWords ∧ r.start < r.stop ∧
      (r.windows 4).entries = [⟨-8, -4⟩, ⟨-4, 0⟩, ⟨0, 4⟩, ⟨4, 8⟩] ∧
      (∃ first n, r.Tiled 4 first n) ∧ Instant.Rounding 4 ∧ r.OnClock 4 := by
  intro r
  have inhabited : r.start < r.stop := by decide
  have words : r.FitsWords := by decide
  exact ⟨by decide, by decide, words, inhabited, by decide,
    windows_part_grid (by decide) (by decide) words inhabited⟩

/-- In the leap second at the end of a minute, a time is rounded down to the start of that second,
which is not where its window starts. An interval that starts there has windows that lie off the
grid, and one that ends there has none for the part that counts as the next minute. -/
theorem windows_leap :
    let minute := 60 * Duration.second
    let second (n : Int) := ClockTime.ofParts n 0
    let leap (nanos : Int) := ClockTime.ofParts 59 (1000000000 + nanos)
    let whole := Interval.mk (second 0) (second 120)
    let late := Interval.mk (leap 500000000) (second 179)
    let early := Interval.mk (second 59) (leap 500000000)
    (whole.clockWindows 9 minute).entries =
        [⟨second 0, second 60⟩, ⟨second 60, second 120⟩] ∧
      leap 500000000 ∈ Interval.mk (second 0) (second 60) ∧
      (ClockTime.windowStart (leap 500000000) minute).toOption = some (leap 0) ∧
      (late.clockWindows 9 minute).entries =
        [⟨leap 0, second 119⟩, ⟨second 119, second 179⟩] ∧
      (ClockTime.windowStart (second 130) minute).toOption = some (second 120) ∧
      (early.clockWindows 9 minute).entries = [⟨second 0, second 60⟩] ∧
      (leap 500000000).toInstant = minute + 500000000 ∧
      early.intersect ⟨second 60, second 120⟩ = none := by
  intro minute second leap whole late early
  decide

end Interval

end Backfill
