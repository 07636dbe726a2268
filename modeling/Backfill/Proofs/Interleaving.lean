import Mathlib.Data.List.Flatten
import Mathlib.Data.List.Perm.Basic

/-!
The steps of several workers in one order, in which those of each worker keep theirs.
-/

namespace Backfill

variable {α : Type}

/-- The workers' lists have been merged into one. -/
inductive Interleaves : List (List α) → List α → Prop
  | done {workers : List (List α)} (idle : ∀ w ∈ workers, w = []) : Interleaves workers []
  | step {before after : List (List α)} {a : α} {w l : List α}
      (rest : Interleaves (before ++ w :: after) l) :
      Interleaves (before ++ (a :: w) :: after) (a :: l)

namespace Interleaves

variable {workers : List (List α)} {l : List α}

/-- A worker without steps changes nothing. -/
theorem cons_nil (h : Interleaves workers l) : Interleaves ([] :: workers) l := by
  induction h with
  | done idle => exact .done (by simpa using idle)
  | @step before after a w l _ ih => exact @Interleaves.step _ ([] :: before) after a w l ih

theorem of_cons_nil (h : Interleaves ([] :: workers) l) : Interleaves workers l := by
  generalize all : [] :: workers = others at h
  induction h generalizing workers with
  | done idle =>
    subst all
    exact .done fun w hw => idle w (List.mem_cons_of_mem _ hw)
  | @step before after a w l _ ih =>
    cases before with
    | nil => cases all
    | cons v before =>
      cases all
      exact .step (ih rfl)

/-- It does not matter which worker is which. -/
theorem workers_perm (h : Interleaves workers l) {workers' : List (List α)}
    (same : workers.Perm workers') : Interleaves workers' l := by
  induction h generalizing workers' with
  | done idle => exact .done fun w hw => idle w (same.mem_iff.mpr hw)
  | @step before after a w l _ ih =>
    obtain ⟨before', after', rfl⟩ := List.append_of_mem
      (same.mem_iff.mp (List.mem_append_right _ List.mem_cons_self))
    have others : (before ++ after).Perm (before' ++ after') :=
      (List.perm_middle.symm.trans (same.trans List.perm_middle)).cons_inv
    exact .step (ih (List.perm_middle.trans ((others.cons w).trans List.perm_middle.symm)))

/-- One worker after the other. -/
theorem flatten (workers : List (List α)) : Interleaves workers workers.flatten := by
  induction workers with
  | nil => exact .done (by simp)
  | cons w workers ih =>
    induction w with
    | nil => exact ih.cons_nil
    | cons a w rest => exact @Interleaves.step _ [] workers a w _ rest

theorem perm (h : Interleaves workers l) : l.Perm workers.flatten := by
  induction h with
  | done idle => rw [List.flatten_eq_nil_iff.mpr idle]
  | @step before after a w l _ ih =>
    rw [List.flatten_append, List.flatten_cons] at ih ⊢
    exact (ih.cons a).trans List.perm_middle.symm

theorem mem_iff (h : Interleaves workers l) {a : α} : a ∈ l ↔ a ∈ workers.flatten :=
  h.perm.mem_iff

/-- What is left out is left out of every worker's list. -/
theorem filter (h : Interleaves workers l) (p : α → Bool) :
    Interleaves (workers.map (List.filter p)) (l.filter p) := by
  induction h with
  | done idle =>
    refine .done fun w hw => ?_
    obtain ⟨v, hv, rfl⟩ := List.mem_map.mp hw
    rw [idle v hv, List.filter_nil]
  | @step before after a w l _ ih =>
    rw [List.map_append, List.map_cons] at ih ⊢
    by_cases ha : p a = true
    · rw [List.filter_cons_of_pos ha, List.filter_cons_of_pos ha]
      exact .step ih
    · rw [List.filter_cons_of_neg ha, List.filter_cons_of_neg ha]
      exact ih

/-- With one worker at most that has steps, there is one order only. -/
theorem eq_flatten (h : Interleaves workers l)
    (alone : workers.Pairwise fun v w => v = [] ∨ w = []) : l = workers.flatten := by
  induction h with
  | done idle => exact (List.flatten_eq_nil_iff.mpr idle).symm
  | @step before after a w l _ ih =>
    obtain ⟨first, second, between⟩ := List.pairwise_append.mp alone
    obtain ⟨here, second⟩ := List.pairwise_cons.mp second
    have none : ∀ v ∈ before, v = [] := fun v hv => by
      simpa using between v hv (a :: w) List.mem_cons_self
    have none' : ∀ v ∈ after, v = [] := fun v hv => by simpa using here v hv
    have rest : l = (before ++ w :: after).flatten := by
      refine ih (List.pairwise_append.mpr ⟨first, ?_, fun v hv _ _ => .inl (none v hv)⟩)
      exact List.pairwise_cons.mpr ⟨fun v hv => .inr (none' v hv), second⟩
    rw [rest]
    simp [List.flatten_eq_nil_iff.mpr none, List.flatten_eq_nil_iff.mpr none']

/-- Steps that one worker only takes come in its order. -/
theorem filter_eq (h : Interleaves workers l) {p : α → Bool}
    (alone : workers.Pairwise fun v w => v.filter p = [] ∨ w.filter p = []) :
    l.filter p = workers.flatten.filter p := by
  rw [List.filter_flatten]
  exact (h.filter p).eq_flatten (List.pairwise_map.mpr alone)

end Interleaves

end Backfill
