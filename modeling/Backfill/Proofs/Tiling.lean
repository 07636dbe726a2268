import Backfill.Proofs.Slices

/-!
Windows one after the other, also where lengths and times do not fit into a word and where the clock
runs out on them: none reaches into the next, and what is cut from a set along them lies apart.
-/

namespace Backfill

namespace Interval

/-- Each window starts where the one before it ends, or later. -/
theorem walk_apart {size : Duration} (hs : 0 < size) (stop : Instant) (fuel : Nat)
    (b : Instant) :
    (∀ w ∈ (walk (Instant.shift · size) stop fuel b).entries, b ≤ w.start ∧ w.start < w.stop) ∧
      (walk (Instant.shift · size) stop fuel b).entries.Pairwise (·.stop ≤ ·.start) := by
  induction fuel generalizing b with
  | zero => exact ⟨fun w hw => (List.not_mem_nil hw).elim, .nil⟩
  | succ fuel ih =>
    unfold walk
    cases h : Instant.shift b size with
    | error f => exact ⟨fun w hw => (List.not_mem_nil hw).elim, .nil⟩
    | ok next =>
      have later : b < next := by
        unfold Instant.shift at h
        split at h
        · cases h
          lia
        · cases h
      dsimp only
      split
      · obtain ⟨after, apart⟩ := ih next
        refine ⟨fun w hw => ?_, List.pairwise_cons.mpr ⟨fun w hw => (after w hw).1, apart⟩⟩
        rcases List.mem_cons.mp hw with rfl | hw
        · exact ⟨Int.le_refl b, later⟩
        · have := (after w hw).1
          exact ⟨by lia, (after w hw).2⟩
      · exact ⟨fun w hw => (List.not_mem_nil hw).elim, .nil⟩

theorem windows_apart {size : Duration} (hs : 0 < size) (r : Interval) :
    (∀ w ∈ (r.windows size).entries, w.start < w.stop) ∧
      (r.windows size).entries.Pairwise (·.stop ≤ ·.start) := by
  unfold windows windowsUpTo
  split
  · exact ⟨fun w hw => (List.not_mem_nil hw).elim, .nil⟩
  · cases Instant.windowStart r.start size with
    | error f => exact ⟨fun w hw => (List.not_mem_nil hw).elim, .nil⟩
    | ok b =>
      obtain ⟨after, apart⟩ := walk_apart hs r.stop (r.windowFuel size) b
      exact ⟨fun w hw => (after w hw).2, apart⟩

theorem starts_nodup {size : Duration} (hs : 0 < size) (r : Interval) :
    ((r.windows size).entries.map (·.start)).Nodup := by
  obtain ⟨inhabited, apart⟩ := windows_apart hs r
  refine List.pairwise_map.mpr (apart.imp_of_mem fun {v w} hv _ h same => ?_)
  have := inhabited v hv
  lia

theorem ends_of_intersect {a b c : Interval} (h : a.intersect b = some c) :
    c.start = max a.start b.start ∧ c.stop = min a.stop b.stop ∧ c.start < c.stop := by
  unfold intersect at h
  dsimp only at h
  split at h
  · cases h
  · rename_i inhabited
    cases h
    exact ⟨rfl, rfl, isEmpty_eq_false_iff.mp (Bool.eq_false_iff.mpr inhabited)⟩

end Interval

/-- What is cut from a canonical set lies apart, in the order of the clock. -/
theorem TimeSet.slices_apart {s : TimeSet} {size : Duration} (hs : 0 < size)
    (canonical : s.Canonical) :
    (s.slices size).entries.Pairwise (·.part.stop ≤ ·.part.start) := by
  rw [slices, Trail.each_eq_foldEach]
  refine Trail.pairwise_foldEach (fun _ r _ => ?_) (canonical.separated.imp fun {r q} before => ?_)
  · -- in one interval the windows lie apart
    refine (Interval.windows_apart hs r).2.filterMap _ fun v w apart a ha b hb => ?_
    obtain ⟨_, meets, rfl⟩ := Option.map_eq_some_iff.mp ha
    obtain ⟨_, meets', rfl⟩ := Option.map_eq_some_iff.mp hb
    have := (Interval.ends_of_intersect meets).2.1
    have := (Interval.ends_of_intersect meets').1
    dsimp only
    lia
  · -- a window may reach into two intervals, but these lie apart themselves
    intro _ _ u hu v hv
    obtain ⟨_, _, hu⟩ := List.mem_filterMap.mp hu
    obtain ⟨_, _, hv⟩ := List.mem_filterMap.mp hv
    obtain ⟨_, meets, rfl⟩ := Option.map_eq_some_iff.mp hu
    obtain ⟨_, meets', rfl⟩ := Option.map_eq_some_iff.mp hv
    have := (Interval.ends_of_intersect meets).2.1
    have := (Interval.ends_of_intersect meets').1
    dsimp only
    lia

end Backfill
