import Backfill.CommitLog.Snapshot
import Backfill.Proofs.Folds
import Backfill.Proofs.Interleaving
import Backfill.Proofs.InstantSets
import Backfill.Proofs.Windows
import Backfill.SortedMap.Lemmas
import Mathlib

/-!
Each block is restored from the first listed of its best volumes. Going through the listing is a
running maximum under every key at once, so what is held in the end is the `List.argmax` of the
volumes of that key, and the order of the listing decides among equals only.
-/

namespace Backfill

namespace SnapshotInfo

variable {set : TimeSet} {size : Duration} {infos : List SnapshotInfo}

/-- A volume number counts for more than when the volume was taken. -/
def rank (info : SnapshotInfo) : Nat ×ₗ Int := toLex (info.volume, info.time)

def window (size : Duration) (info : SnapshotInfo) : Interval := ⟨info.start, info.start + size⟩

/-- A complete volume of a block that shares an instant with the set. -/
structure Eligible (set : TimeSet) (size : Duration) (info : SnapshotInfo) : Prop where
  complete : info.checkpointed = true
  meets : ∃ t, t ∈ set ∧ t ∈ info.window size

/-- The blocks of the complete volumes end on the clock. -/
def Dated (size : Duration) (infos : List SnapshotInfo) : Prop :=
  ∀ info ∈ infos, info.checkpointed = true → info.start.Reaches size

instance : Decidable (Dated size infos) :=
  inferInstanceAs (Decidable (∀ info ∈ infos, info.checkpointed = true → _))

/-- The volume of the block that a listing puts before all others. -/
structure Best (set : TimeSet) (size : Duration) (infos : List SnapshotInfo) (start : Instant)
    (info : SnapshotInfo) : Prop where
  eligible : info.Eligible set size
  here : info.start = start
  greatest : ∀ other ∈ infos, other.Eligible set size → other.start = start →
    other.rank ≤ info.rank
  first : ∃ before after, infos = before ++ info :: after ∧
    ∀ other ∈ before, other.Eligible set size → other.start = start → other.rank < info.rank

/-- As it is told apart from the others while the listing is gone through. -/
def candidate (set : TimeSet) (size : Duration) (start : Instant) (info : SnapshotInfo) : Bool :=
  info.checkpointed && set.overlaps (info.window size) && info.start = start

theorem candidate_iff (hset : set.Canonical) (hsize : 0 < size) {start : Instant}
    {info : SnapshotInfo} :
    info.candidate set size start = true ↔ info.Eligible set size ∧ info.start = start := by
  have meets : set.overlaps (info.window size) = true ↔ ∃ t, t ∈ set ∧ t ∈ info.window size :=
    hset.overlaps_iff (by simp only [window]; lia)
  rw [candidate, Bool.and_eq_true, Bool.and_eq_true, meets, decide_eq_true_iff]
  constructor
  · intro h
    obtain ⟨⟨complete, meets⟩, here⟩ := h
    exact ⟨⟨complete, meets⟩, here⟩
  · intro h
    exact ⟨⟨h.1.complete, h.1.meets⟩, h.2⟩

theorem newer_eq (a b : SnapshotInfo) : a.newer b = decide (b.rank < a.rank) := by
  rw [newer, rank, rank, Bool.eq_iff_iff]
  simp only [Bool.or_eq_true, Bool.and_eq_true, decide_eq_true_eq, Prod.Lex.toLex_lt_toLex,
    @eq_comm _ a.volume]

/-- One volume is looked at: the maximum under its own start moves on, the others stay. -/
theorem consider_step (set : TimeSet) (held : SortedMap Instant SnapshotInfo)
    {info : SnapshotInfo} (dated : info.checkpointed = true → info.start.Reaches size) :
    ∃ held', consider set size held info = .ok held' ∧ ∀ start, held'.get? start =
      if info.candidate set size start then
        List.argAux (fun b c => rank c < rank b) (held.get? start) info
      else held.get? start := by
  by_cases complete : info.checkpointed = true
  · have block : Interval.ofStart info.start size = .ok (info.window size) :=
      Interval.ofStart_eq (dated complete)
    by_cases meets : set.overlaps (info.window size) = true
    · refine ⟨_, by rw [consider, if_pos complete, block]; exact congrArg _ (if_pos meets), ?_⟩
      intro start
      simp only [SortedMap.get?_alter, candidate, complete, meets, Bool.and_self, Bool.true_and,
        decide_eq_true_eq]
      by_cases here : info.start = start
      · subst here
        simp only [↓reduceIte]
        cases held.get? info.start with
        | none => rfl
        | some old =>
          simp only [List.argAux, newer_eq, decide_eq_true_eq]
          split <;> rfl
      · rw [if_neg (Ne.symm here), if_neg here]
    · refine ⟨held, by rw [consider, if_pos complete, block]; exact congrArg _ (if_neg meets), ?_⟩
      intro start
      simp [candidate, complete, meets]
  · refine ⟨held, by rw [consider, if_neg complete], fun start => ?_⟩
    simp [candidate, complete]

theorem foldlM_consider (dated : Dated size infos) (held : SortedMap Instant SnapshotInfo) :
    ∃ chosen, infos.foldlM (consider set size) held = .ok chosen ∧ ∀ start, chosen.get? start =
      (infos.filter (candidate set size start)).foldl
        (List.argAux fun b c => rank c < rank b) (held.get? start) := by
  induction infos generalizing held with
  | nil => exact ⟨held, rfl, fun _ => rfl⟩
  | cons info infos ih =>
    obtain ⟨next, step, seen⟩ := consider_step set held (dated info List.mem_cons_self)
    obtain ⟨chosen, rest, seen'⟩ := ih (fun i hi => dated i (List.mem_cons_of_mem _ hi)) next
    refine ⟨chosen, by rw [List.foldlM_cons, step]; exact rest, fun start => ?_⟩
    rw [seen', seen, List.filter_cons]
    split <;> rfl

/-- A listing that is gone through leaves the maximum of every block. -/
theorem select_eq_argmax (set : TimeSet) (dated : Dated size infos) :
    ∃ chosen, select set size infos = .ok chosen ∧
      ∀ start, chosen.get? start = (infos.filter (candidate set size start)).argmax rank :=
  foldlM_consider dated .empty

/-- The maximum of a list is where all before is smaller and nothing after is greater. -/
theorem argmax_eq_some_iff_split {l : List SnapshotInfo} {m : SnapshotInfo} :
    l.argmax rank = some m ↔ (∀ a ∈ l, rank a ≤ rank m) ∧
      ∃ before after, l = before ++ m :: after ∧ ∀ a ∈ before, rank a < rank m := by
  rw [List.argmax_eq_some_iff]
  constructor
  · intro max
    obtain ⟨mem, greatest, first⟩ := max
    obtain ⟨before, after, rfl, fresh⟩ := List.eq_append_cons_of_mem mem
    refine ⟨greatest, before, after, rfl, fun a ha => ?_⟩
    by_contra reaches
    have order := first a (List.mem_append_left _ ha) (not_lt.mp reaches)
    rw [List.idxOf_append_of_notMem fresh, List.idxOf_append_of_mem ha,
      List.idxOf_cons_self] at order
    have := List.idxOf_lt_length_of_mem ha
    omega
  · intro max
    obtain ⟨greatest, before, after, rfl, smaller⟩ := max
    refine ⟨List.mem_append_right _ List.mem_cons_self, greatest, fun a _ reaches => ?_⟩
    have fresh : ∀ b, rank m ≤ rank b → b ∉ before := fun b hb mem => hb.not_gt (smaller b mem)
    rw [List.idxOf_append_of_notMem (fresh m le_rfl), List.idxOf_append_of_notMem (fresh a reaches),
      List.idxOf_cons_self]
    omega

/-- Splitting at a kept element what is left of a list splits the list. -/
theorem exists_split_filter_iff {l : List SnapshotInfo} {p : SnapshotInfo → Bool} {m : SnapshotInfo}
    {P : SnapshotInfo → Prop} :
    (∃ before after, l.filter p = before ++ m :: after ∧ ∀ a ∈ before, P a) ↔
      p m = true ∧ ∃ before after, l = before ++ m :: after ∧ ∀ a ∈ before, p a = true → P a := by
  constructor
  · intro h
    obtain ⟨before, after, split, all⟩ := h
    obtain ⟨front, back, rfl, rfl, rest⟩ := List.filter_eq_append_iff.mp split
    obtain ⟨gap, after', rfl, none, hm, _⟩ := List.filter_eq_cons_iff.mp rest
    refine ⟨hm, front ++ gap, after', by rw [List.append_assoc], fun a ha kept => ?_⟩
    rcases List.mem_append.mp ha with ha | ha
    · exact all a (List.mem_filter.mpr ⟨ha, kept⟩)
    · exact absurd kept (none a ha)
  · intro h
    obtain ⟨hm, before, after, rfl, all⟩ := h
    refine ⟨before.filter p, after.filter p, ?_, fun a ha => ?_⟩
    · rw [List.filter_append, List.filter_cons_of_pos hm]
    · exact all a (List.mem_filter.mp ha).1 (List.mem_filter.mp ha).2

theorem argmax_candidates_iff (hset : set.Canonical) (hsize : 0 < size) {start : Instant}
    {info : SnapshotInfo} :
    (infos.filter (candidate set size start)).argmax rank = some info ↔
      Best set size infos start info := by
  rw [argmax_eq_some_iff_split, exists_split_filter_iff]
  simp only [List.mem_filter, candidate_iff hset hsize, and_imp]
  constructor
  · intro h
    obtain ⟨greatest, ⟨eligible, start⟩, first⟩ := h
    exact ⟨eligible, start, greatest, first⟩
  · intro h
    exact ⟨h.greatest, ⟨h.eligible, h.here⟩, h.first⟩

theorem exists_argmax_candidates_iff (hset : set.Canonical) (hsize : 0 < size) {start : Instant} :
    (∃ info, (infos.filter (candidate set size start)).argmax rank = some info) ↔
      ∃ info ∈ infos, info.Eligible set size ∧ info.start = start := by
  rw [← Option.ne_none_iff_exists', Ne, List.argmax_eq_none, List.filter_eq_nil_iff]
  simp only [not_forall, not_not, candidate_iff hset hsize, exists_prop]

/-- In any order the greatest rank is the same. -/
theorem map_rank_argmax_of_perm {l l' : List SnapshotInfo} (perm : l.Perm l') :
    (l.argmax rank).map rank = (l'.argmax rank).map rank := by
  cases ha : l.argmax rank with
  | none =>
    rw [List.argmax_eq_none.mp ha] at perm
    rw [perm.nil_eq.symm]
    rfl
  | some a =>
    cases hb : l'.argmax rank with
    | none =>
      rw [List.argmax_eq_none.mp hb] at perm
      rw [perm.eq_nil] at ha
      cases ha
    | some b =>
      have left := List.le_of_mem_argmax (perm.mem_iff.mp (List.argmax_mem ha)) hb
      have right := List.le_of_mem_argmax (perm.mem_iff.mpr (List.argmax_mem hb)) ha
      exact congrArg some (le_antisymm left right)

/-- What is chosen for a block is its best volume, the first listed one of those: there is one
whenever the block has an eligible volume. Reordering the listing leaves all ranks that are chosen
as they are, and volumes that are not eligible can be listed anywhere without any effect. -/
theorem select_best (hset : set.Canonical) (hsize : 0 < size) (dated : Dated size infos) :
    ∃ chosen, select set size infos = .ok chosen ∧
      (∀ start, (∃ info, chosen.get? start = some info) ↔
        ∃ info ∈ infos, info.Eligible set size ∧ info.start = start) ∧
      (∀ start info, chosen.get? start = some info ↔ Best set size infos start info) ∧
      (∀ listing, listing.Perm infos → ∃ other, select set size listing = .ok other ∧
        ∀ start, (other.get? start).map rank = (chosen.get? start).map rank) ∧
      ∀ extra listing, Interleaves [infos, extra] listing → Dated size extra →
        (∀ info ∈ extra, ¬ info.Eligible set size) → select set size listing = .ok chosen := by
  obtain ⟨chosen, done, seen⟩ := select_eq_argmax set dated
  refine ⟨chosen, done, fun start => ?_, fun start info => ?_, fun listing perm => ?_,
    fun extra listing turns dated' barred => ?_⟩
  · rw [seen]
    exact exists_argmax_candidates_iff hset hsize
  · rw [seen]
    exact argmax_candidates_iff hset hsize
  · have dated' : Dated size listing := fun info hi => dated info (perm.mem_iff.mp hi)
    obtain ⟨other, done', seen'⟩ := select_eq_argmax set dated'
    refine ⟨other, done', fun start => ?_⟩
    rw [seen, seen']
    exact map_rank_argmax_of_perm (perm.filter _)
  · have all : Dated size listing := fun info hi => by
      rcases List.mem_append.mp (turns.mem_iff.mp hi) with hi | hi
      · exact dated info hi
      · exact dated' info (by simpa using hi)
    obtain ⟨other, done', seen'⟩ := select_eq_argmax set all
    rw [done']
    refine congrArg _ (SortedMap.ext fun start => ?_)
    have gone : extra.filter (candidate set size start) = [] :=
      List.filter_eq_nil_iff.mpr fun info hi candidate =>
        barred info hi ((candidate_iff hset hsize).mp candidate).1
    have kept := turns.filter_eq (p := candidate set size start)
      (List.pairwise_pair.mpr (.inr gone))
    rw [seen, seen', kept, List.filter_flatten]
    simp [gone]

theorem select_best_of_two_equals :
    let volume (shard : Shard) (number : Nat) (time : Instant) (complete : Bool) : SnapshotInfo :=
      ⟨[], shard, 0, number, time, complete⟩
    let set := TimeSet.ofInterval ⟨0, 20⟩
    let infos := [volume 0 1 9 true, volume 1 2 3 true, volume 2 7 9 false, volume 3 2 3 true]
    set.Canonical ∧ (0 : Int) < 10 ∧ Dated 10 infos ∧
      (select set 10 infos).map (·.entries) = .ok [(0, volume 1 2 3 true)] ∧
      ∃ chosen, select set 10 infos = .ok chosen ∧
        ∀ start info, chosen.get? start = some info ↔ Best set 10 infos start info := by
  intro volume set infos
  have canonical : set.Canonical := TimeSet.Canonical.ofInterval _
  have dated : Dated 10 infos := by decide
  obtain ⟨chosen, done, _, best, _⟩ := select_best canonical (by decide) dated
  exact ⟨canonical, by decide, dated, by decide, chosen, done, best⟩

end SnapshotInfo

end Backfill
