import Backfill.SortedMap

/-!
Each map operation seen through `get?`, and extensionality.
-/

namespace Backfill.SortedMap

variable {κ α β : Type} [LT κ] [DecidableEq κ] [KeyOrder κ]

theorem lookup_eq_some_iff {k : κ} {a : α} {l : List (κ × α)}
    (hl : l.Pairwise (fun a b => a.1 < b.1)) : lookup k l = some a ↔ (k, a) ∈ l := by
  induction l with
  | nil => simp [lookup]
  | cons e r ih =>
    obtain ⟨he, hr⟩ := List.pairwise_cons.mp hl
    obtain ⟨k', a'⟩ := e
    by_cases hk : k = k'
    · subst hk
      have : (k, a) ∉ r := fun h => KeyOrder.irrefl k (he _ h)
      simp [lookup, this, eq_comm]
    · simp [lookup, hk, ih hr]

omit [DecidableEq κ] in
theorem keys_distinct (m : SortedMap κ α) : m.entries.Pairwise (·.1 ≠ ·.1) := by
  refine m.ascending.imp fun {a b} lt eq => ?_
  rw [eq] at lt
  exact KeyOrder.irrefl _ lt

theorem get?_eq_some_iff {m : SortedMap κ α} {k : κ} {a : α} :
    m.get? k = some a ↔ (k, a) ∈ m.entries :=
  lookup_eq_some_iff m.ascending

omit [LT κ] [KeyOrder κ] in
theorem lookup_eq_none {k : κ} {l : List (κ × α)} (h : ∀ e ∈ l, e.1 ≠ k) : lookup k l = none := by
  induction l with
  | nil => rfl
  | cons e r ih =>
    have hk : k ≠ e.1 := fun hk => h e List.mem_cons_self hk.symm
    simp [lookup, hk, ih fun d hd => h d (List.mem_cons_of_mem _ hd)]

omit [DecidableEq κ] in
theorem entries_ext {l l' : List (κ × α)} (hl : l.Pairwise (fun a b => a.1 < b.1))
    (hl' : l'.Pairwise (fun a b => a.1 < b.1)) (h : ∀ e, e ∈ l ↔ e ∈ l') : l = l' := by
  induction l generalizing l' with
  | nil =>
    cases l' with
    | nil => rfl
    | cons e r => exact absurd ((h e).mpr List.mem_cons_self) (by simp)
  | cons e r ih =>
    cases l' with
    | nil => exact absurd ((h e).mp List.mem_cons_self) (by simp)
    | cons e' r' =>
      obtain ⟨he, hr⟩ := List.pairwise_cons.mp hl
      obtain ⟨he', hr'⟩ := List.pairwise_cons.mp hl'
      have head : e = e' := by
        rcases List.mem_cons.mp ((h e).mp List.mem_cons_self) with eq | lt
        · exact eq
        · rcases List.mem_cons.mp ((h e').mpr List.mem_cons_self) with eq | lt'
          · exact eq.symm
          · exact absurd (KeyOrder.trans (he _ lt') (he' _ lt)) (KeyOrder.irrefl _)
      subst head
      refine congrArg _ (ih hr hr' fun d => ⟨fun hd => ?_, fun hd => ?_⟩)
      · rcases List.mem_cons.mp ((h d).mp (List.mem_cons_of_mem _ hd)) with rfl | hd'
        · exact absurd (he _ hd) (KeyOrder.irrefl _)
        · exact hd'
      · rcases List.mem_cons.mp ((h d).mpr (List.mem_cons_of_mem _ hd)) with rfl | hd'
        · exact absurd (he' _ hd) (KeyOrder.irrefl _)
        · exact hd'

@[ext] theorem ext {a b : SortedMap κ α} (h : ∀ k, a.get? k = b.get? k) : a = b :=
  ext_entries <| entries_ext a.ascending b.ascending fun e => by
    rw [← get?_eq_some_iff (m := a) (k := e.1), ← get?_eq_some_iff (m := b) (k := e.1), h]

omit [KeyOrder κ] in
@[simp] theorem get?_empty (k : κ) : (empty : SortedMap κ α).get? k = none := rfl

omit [LT κ] [KeyOrder κ] in
theorem lookup_append_singleton (o : Option α) (k j : κ) {l : List (κ × α)} :
    lookup j (o.toList.map (k, ·) ++ l) = if j = k then o.or (lookup j l) else lookup j l := by
  cases o <;> simp [lookup]

/-- What is listed key by key, for one of the keys. -/
theorem filter_flatMap_entries (m : SortedMap κ α) (f : κ → α → List β) (k : κ) :
    (m.entries.flatMap fun e => (f e.1 e.2).map (e.1, ·)).filter (·.1 = k) =
      (m.get? k).elim [] fun a => (f k a).map (k, ·) := by
  have same (j : κ) (l : List β) (h : j = k) : (l.map (j, ·)).filter (·.1 = k) = l.map (j, ·) := by
    rw [List.filter_eq_self]
    intro b hb
    obtain ⟨_, _, rfl⟩ := List.mem_map.mp hb
    simpa using h
  have other (j : κ) (l : List β) (h : j ≠ k) : (l.map (j, ·)).filter (·.1 = k) = [] := by
    rw [List.filter_eq_nil_iff]
    intro b hb
    obtain ⟨_, _, rfl⟩ := List.mem_map.mp hb
    simpa using h
  obtain ⟨l, ascending⟩ := m
  dsimp only [get?]
  induction l with
  | nil => rfl
  | cons e l ih =>
    obtain ⟨he, hl⟩ := List.pairwise_cons.mp ascending
    rw [List.flatMap_cons, List.filter_append, ih hl]
    by_cases hk : e.1 = k
    · have absent : lookup k l = none := lookup_eq_none fun d hd eq =>
        KeyOrder.irrefl k (by simpa [eq, hk] using he d hd)
      rw [same _ _ hk, absent]
      simp [lookup, hk]
    · rw [other _ _ hk]
      simp [lookup, Ne.symm hk]

variable [DecidableLT κ]

theorem lookup_alterEntries (k j : κ) (f : Option α → Option α) {l : List (κ × α)}
    (hl : l.Pairwise (fun a b => a.1 < b.1)) :
    lookup j (alterEntries k f l) = if j = k then f (lookup k l) else lookup j l := by
  induction l with
  | nil =>
    have := lookup_append_singleton (f none) k j (l := [])
    simpa [alterEntries, lookup] using this
  | cons e r ih =>
    obtain ⟨he, hr⟩ := List.pairwise_cons.mp hl
    simp only [alterEntries]
    split
    · rename_i lt
      have absent : lookup k (e :: r) = none := lookup_eq_none fun d hd eq => by
        rcases List.mem_cons.mp hd with rfl | hd
        · exact KeyOrder.irrefl k (eq ▸ lt)
        · exact KeyOrder.irrefl k (KeyOrder.trans lt (eq ▸ he d hd))
      rw [lookup_append_singleton]
      by_cases hj : j = k
      · subst hj; simp [absent]
      · simp [hj]
    · split
      · rename_i eq
        have absent : lookup k r = none := lookup_eq_none fun d hd eq' =>
          KeyOrder.irrefl k (by simpa [eq', ← eq] using he d hd)
        rw [lookup_append_singleton]
        by_cases hj : j = k
        · subst hj
          rw [if_pos rfl, if_pos rfl, absent]
          simp [lookup, eq]
        · rw [if_neg hj, if_neg hj]
          have ne : j ≠ e.1 := fun h => hj (h.trans eq.symm)
          simp [lookup, ne]
      · rename_i ne
        by_cases hj : j = e.1
        · simp [lookup, hj, Ne.symm ne]
        · simp [lookup, hj, ih hr, ne]

@[simp] theorem get?_alter (m : SortedMap κ α) (k j : κ) (f : Option α → Option α) :
    (m.alter k f).get? j = if j = k then f (m.get? k) else m.get? j :=
  lookup_alterEntries k j f m.ascending

@[simp] theorem get?_insert (m : SortedMap κ α) (k j : κ) (a : α) :
    (m.insert k a).get? j = if j = k then some a else m.get? j := get?_alter ..

@[simp] theorem get?_erase (m : SortedMap κ α) (k j : κ) :
    (m.erase k).get? j = if j = k then none else m.get? j := get?_alter ..

@[simp] theorem get?_update (m : SortedMap κ α) (k j : κ) (a : α) (f : α → α) :
    (m.update k a f).get? j = if j = k then some (f ((m.get? k).getD a)) else m.get? j :=
  get?_alter ..

theorem get?_foldl_alter (g : Option α → β → Option α) {l : List (κ × β)}
    (hl : l.Pairwise (fun a b => a.1 < b.1)) (m : SortedMap κ α) (j : κ) :
    (l.foldl (fun m e => m.alter e.1 (g · e.2)) m).get? j =
      match lookup j l with
      | none => m.get? j
      | some b => g (m.get? j) b := by
  induction l generalizing m with
  | nil => rfl
  | cons e r ih =>
    obtain ⟨he, hr⟩ := List.pairwise_cons.mp hl
    rw [List.foldl_cons, ih hr]
    by_cases hj : j = e.1
    · have absent : lookup j r = none := lookup_eq_none fun d hd eq =>
        KeyOrder.irrefl j (by simpa [eq, ← hj] using he d hd)
      subst hj
      simp [lookup, absent]
    · simp [lookup, hj]

theorem lookup_joinEntries (f : α → α → α) (j : κ) {xs ys : List (κ × α)}
    (hx : xs.Pairwise (fun a b => a.1 < b.1)) (hy : ys.Pairwise (fun a b => a.1 < b.1)) :
    lookup j (joinEntries f xs ys) =
      match lookup j ys with
      | none => lookup j xs
      | some y => some ((lookup j xs).elim y (f · y)) := by
  induction xs generalizing ys with
  | nil => cases h : lookup j ys <;> simp [joinEntries, lookup, h]
  | cons x xs ih =>
    obtain ⟨hx, hxs⟩ := List.pairwise_cons.mp hx
    have absent {k : κ} {zs : List (κ × α)} (hk : ∀ d ∈ zs, k < d.1) : lookup k zs = none :=
      lookup_eq_none fun d hd eq => KeyOrder.irrefl k (eq ▸ hk d hd)
    rw [joinEntries]
    induction ys with
    | nil => simp [joinAt, lookup]
    | cons y ys ihy =>
      obtain ⟨hy', hys⟩ := List.pairwise_cons.mp hy
      simp only [joinAt]
      split
      · rename_i lt
        have none : lookup x.1 (y :: ys) = none := absent fun d hd => by
          rcases List.mem_cons.mp hd with rfl | hd
          · exact lt
          · exact KeyOrder.trans lt (hy' d hd)
        by_cases hj : j = x.1
        · subst hj
          rw [none]
          simp [lookup]
        · simp only [lookup, if_neg hj, ih hxs hy]
      · split
        · rename_i eq
          by_cases hj : j = x.1
          · simp [lookup, hj, eq]
          · have hj' : j ≠ y.1 := fun h => hj (h.trans eq.symm)
            simp only [lookup, if_neg hj, if_neg hj', ih hxs hys]
        · rename_i nlt ne
          have lt : y.1 < x.1 := KeyOrder.connected nlt ne
          by_cases hj : j = y.1
          · have none : lookup y.1 xs = none := absent fun d hd => KeyOrder.trans lt (hx d hd)
            simp [lookup, hj, Ne.symm ne, none]
          · rw [lookup, if_neg hj, ihy hys]
            simp [lookup, hj]

@[simp] theorem get?_unionWith (f : α → α → α) (a b : SortedMap κ α) (j : κ) :
    (unionWith f a b).get? j =
      match b.get? j with
      | none => a.get? j
      | some y => some ((a.get? j).elim y (f · y)) :=
  lookup_joinEntries f j a.ascending b.ascending

theorem unionWith_assoc {f : α → α → α} {a b c : SortedMap κ α}
    (h : ∀ k x y z, a.get? k = some x → b.get? k = some y → c.get? k = some z →
      f (f x y) z = f x (f y z)) :
    unionWith f (unionWith f a b) c = unionWith f a (unionWith f b c) := by
  ext1 k
  simp only [get?_unionWith]
  cases hc : c.get? k with
  | none => rfl
  | some z =>
    cases hb : b.get? k with
    | none => rfl
    | some y =>
      cases ha : a.get? k with
      | none => rfl
      | some x => exact congrArg some (h k x y z ha hb hc)

theorem unionWith_self {f : α → α → α} {a : SortedMap κ α}
    (h : ∀ k x, a.get? k = some x → f x x = x) : unionWith f a a = a := by
  ext1 k
  rw [get?_unionWith]
  cases ha : a.get? k with
  | none => rfl
  | some x => exact congrArg some (h k x ha)

theorem unionWith_empty (f : α → α → α) (a : SortedMap κ α) : unionWith f a empty = a := by
  ext1 k
  rw [get?_unionWith, get?_empty]

theorem empty_unionWith (f : α → α → α) (a : SortedMap κ α) : unionWith f empty a = a := by
  ext1 k
  rw [get?_unionWith, get?_empty]
  cases a.get? k <;> rfl

/-- Going through the second map one key at a time comes to the same. -/
theorem foldl_update_eq_unionWith {f : α → α → α} {e : α} (he : ∀ x, f e x = x)
    (a b : SortedMap κ α) :
    b.entries.foldl (fun m d => m.update d.1 e (f · d.2)) a = unionWith f a b := by
  ext1 k
  rw [get?_unionWith]
  apply (get?_foldl_alter (fun o x => some (f (o.getD e) x)) b.ascending a k).trans
  rw [get?, get?]
  cases lookup k b.entries with
  | none => rfl
  | some y =>
    cases lookup k a.entries with
    | none => exact congrArg some (he y)
    | some x => rfl

omit [DecidableLT κ] in
@[simp] theorem get?_filterMap (f : κ → α → Option β) (m : SortedMap κ α) (k : κ) :
    (m.filterMap f).get? k = (m.get? k).bind (f k) := by
  apply Option.ext
  intro b
  rw [get?_eq_some_iff, Option.bind_eq_some_iff]
  constructor
  · intro h
    obtain ⟨e, he, hb⟩ := List.mem_filterMap.mp h
    obtain ⟨c, hc, eq⟩ := Option.map_eq_some_iff.mp hb
    cases eq
    exact ⟨e.2, get?_eq_some_iff.mpr he, hc⟩
  · intro hm
    obtain ⟨a, ha, hb⟩ := hm
    exact List.mem_filterMap.mpr ⟨(k, a), get?_eq_some_iff.mp ha, by simp [hb]⟩

/-- A value that replaces another leaves the keys as they are. -/
theorem insert_eq_filterMap {m : SortedMap κ α} {k : κ} {a : α} (h : m.get? k = some a) (b : α) :
    m.insert k b = m.filterMap fun j c => some (if j = k then b else c) := by
  ext1 j
  rw [get?_insert, get?_filterMap]
  by_cases same : j = k
  · subst same
    simp [h]
  · simp [same]

omit [DecidableLT κ] in
@[simp] theorem get?_filter (p : κ → α → Bool) (m : SortedMap κ α) (k : κ) :
    (m.filter p).get? k = (m.get? k).filter (p k) := by
  rw [filter, get?_filterMap]
  cases m.get? k <;> simp [Option.filter]

end Backfill.SortedMap
