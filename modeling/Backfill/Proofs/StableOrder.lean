import Backfill.Proofs.Encoding

/-!
Putting points in order is a stable sort by time and one pass over the sorted points that keeps the
last of those at one instant. It can be done in pieces, since all that counts is what comes last at
each instant.
-/

namespace Backfill.Point

theorem last?_normalize (points : List Point) (t : Instant) :
    last? (normalize points) t = last? points t := by
  rw [← get?_latest (normalize points), normalize, latest_ofSamples, get?_latest]

/-- Points in order are told by what comes last at each instant, and by nothing else. -/
theorem normalize_eq_iff {a b : List Point} :
    normalize a = normalize b ↔ ∀ t, last? a t = last? b t := by
  constructor
  · intro same t
    rw [← last?_normalize a, same, last?_normalize]
  · exact normalize_congr

theorem normalize_append_left (a b : List Point) :
    normalize (normalize a ++ b) = normalize (a ++ b) := by
  apply normalize_congr
  intro t
  rw [last?_append, last?_append, last?_normalize]

theorem normalize_append_right (a b : List Point) :
    normalize (a ++ normalize b) = normalize (a ++ b) := by
  apply normalize_congr
  intro t
  rw [last?_append, last?_append, last?_normalize]

/-- Takes in one more point. The kept points have the latest in front, which gives way to one at
its own instant. -/
def keep : List Point → Point → List Point
  | [], p => [p]
  | q :: kept, p => if q.time = p.time then p :: kept else p :: q :: kept

def dedupe (points : List Point) : List Point := (points.foldl keep []).reverse

theorem last?_reverse_keep (kept : List Point) (p : Point) (t : Instant) :
    last? (keep kept p).reverse t = last? (kept.reverse ++ [p]) t := by
  cases kept with
  | nil => rfl
  | cons q kept =>
    rw [keep]
    split
    · rename_i same
      -- the point that gives way would have been overtaken by `p`
      simp only [List.reverse_cons, last?_append]
      by_cases here : p.time = t
      · simp [last?, here]
      · simp [last?, here, same]
    · rw [List.reverse_cons]

theorem last?_foldl_keep (kept points : List Point) (t : Instant) :
    last? (points.foldl keep kept).reverse t = last? (kept.reverse ++ points) t := by
  induction points generalizing kept with
  | nil => simp
  | cons p points ih =>
    rw [List.foldl_cons, ih, last?_append, last?_reverse_keep, ← last?_append]
    simp

/-- What is kept descends from the last point that was taken in. -/
theorem keep_descending {kept : List Point} {p : Point}
    (descending : kept.Pairwise (fun a b => b.time < a.time))
    (before : ∀ q ∈ kept, q.time ≤ p.time) :
    (keep kept p).Pairwise (fun a b => b.time < a.time) := by
  cases kept with
  | nil => exact List.pairwise_singleton _ _
  | cons q kept =>
    obtain ⟨below, rest⟩ := List.pairwise_cons.mp descending
    rw [keep]
    split
    · rename_i same
      exact List.pairwise_cons.mpr ⟨fun d hd => same ▸ below d hd, rest⟩
    · rename_i other
      have first := before q List.mem_cons_self
      refine List.pairwise_cons.mpr ⟨fun d hd => ?_, descending⟩
      rcases List.mem_cons.mp hd with rfl | hd
      · exact Int.lt_iff_le_and_ne.mpr ⟨first, other⟩
      · have := below d hd
        lia

theorem mem_keep {kept : List Point} {p q : Point} (h : q ∈ keep kept p) :
    q = p ∨ q ∈ kept := by
  cases kept with
  | nil => exact .inl (List.mem_singleton.mp h)
  | cons d kept =>
    rw [keep] at h
    split at h
    · exact (List.mem_cons.mp h).imp_right (List.mem_cons_of_mem _)
    · exact List.mem_cons.mp h

theorem foldl_keep_descending {kept points : List Point}
    (descending : kept.Pairwise (fun a b => b.time < a.time))
    (before : ∀ q ∈ kept, ∀ p ∈ points, q.time ≤ p.time)
    (ascending : points.Pairwise (·.time ≤ ·.time)) :
    (points.foldl keep kept).Pairwise (fun a b => b.time < a.time) := by
  induction points generalizing kept with
  | nil => exact descending
  | cons p points ih =>
    obtain ⟨first, rest⟩ := List.pairwise_cons.mp ascending
    refine ih (keep_descending descending fun q hq => before q hq p List.mem_cons_self) ?_ rest
    intro q hq d hd
    rcases mem_keep hq with rfl | hq
    · exact first d hd
    · exact before q hq d (List.mem_cons_of_mem _ hd)

theorem last?_dedupe (points : List Point) (t : Instant) :
    last? (dedupe points) t = last? points t :=
  last?_foldl_keep [] points t

theorem dedupe_ascending {points : List Point} (ascending : points.Pairwise (·.time ≤ ·.time)) :
    (dedupe points).Pairwise (·.time < ·.time) := by
  rw [dedupe, List.pairwise_reverse]
  exact foldl_keep_descending .nil (fun _ h => absurd h List.not_mem_nil) ascending

/-- Any sort will do that leaves the points at one instant in their order. -/
theorem dedupe_of_stable {points sorted : List Point}
    (ascending : sorted.Pairwise (·.time ≤ ·.time))
    (stable : ∀ t, sorted.filter (·.time = t) = points.filter (·.time = t)) :
    dedupe sorted = normalize points := by
  rw [← normalize_of_ascending (dedupe_ascending ascending)]
  apply normalize_congr
  intro t
  rw [last?_dedupe, last?, stable, last?]

def notAfter (p q : Point) : Bool := p.time ≤ q.time

theorem notAfter_iff {p q : Point} : notAfter p q = true ↔ p.time ≤ q.time := decide_eq_true_iff

theorem notAfter_trans (p q r : Point) (pq : notAfter p q = true) (qr : notAfter q r = true) :
    notAfter p r = true :=
  notAfter_iff.mpr (Int.le_trans (notAfter_iff.mp pq) (notAfter_iff.mp qr))

theorem notAfter_total (p q : Point) : (notAfter p q || notAfter q p) = true := by
  rw [Bool.or_eq_true, notAfter_iff, notAfter_iff]
  exact Int.le_total _ _

/-- Earlier points first. -/
def sort (points : List Point) : List Point := points.mergeSort notAfter

theorem sort_ascending (points : List Point) : (sort points).Pairwise (·.time ≤ ·.time) :=
  (List.pairwise_mergeSort notAfter_trans notAfter_total points).imp notAfter_iff.mp

/-- Points at one instant stay in their order. -/
theorem filter_sort (points : List Point) (t : Instant) :
    (sort points).filter (·.time = t) = points.filter (·.time = t) := by
  have tied : (points.filter (·.time = t)).Pairwise (fun p q => notAfter p q = true) := by
    refine List.pairwise_of_forall_mem_list fun p hp q hq => notAfter_iff.mpr ?_
    have hp := of_decide_eq_true (List.mem_filter.mp hp).2
    have hq := of_decide_eq_true (List.mem_filter.mp hq).2
    exact Int.le_of_eq (hp.trans hq.symm)
  have within : (points.filter (·.time = t)).Sublist (sort points) :=
    List.sublist_mergeSort notAfter_trans notAfter_total tied List.filter_sublist
  have part : (points.filter (·.time = t)).Sublist ((sort points).filter (·.time = t)) := by
    simpa only [List.filter_filter, Bool.and_self] using within.filter (·.time = t)
  have same : (points.filter (·.time = t)).length = ((sort points).filter (·.time = t)).length :=
    ((List.mergeSort_perm points _).filter _).length_eq.symm
  exact (part.eq_of_length same).symm

/-- Points may be put in order piece by piece, and over again. -/
structure Incremental (a b : List Point) : Prop where
  sorted : normalize a = dedupe (sort a)
  again : normalize (normalize a) = normalize a
  left : normalize (normalize a ++ b) = normalize (a ++ b)
  right : normalize (a ++ normalize b) = normalize (a ++ b)
  determined : normalize a = normalize b ↔ ∀ t, last? a t = last? b t

theorem normalize_incremental (a b : List Point) : Incremental a b where
  sorted := (dedupe_of_stable (sort_ascending a) (filter_sort a)).symm
  again := normalize_normalize a
  left := normalize_append_left a b
  right := normalize_append_right a b
  determined := normalize_eq_iff

end Backfill.Point
