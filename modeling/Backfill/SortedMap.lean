/-!
Finite maps held as lists of pairs whose keys strictly ascend. The order makes the list unique for
what it maps, so two maps that answer `get?` alike are equal (`SortedMap.ext`).
-/

namespace Backfill

/-- A strict order in which any two different keys compare. -/
class KeyOrder (κ : Type) [LT κ] : Prop where
  irrefl : ∀ a : κ, ¬ a < a
  trans : ∀ {a b c : κ}, a < b → b < c → a < c
  connected : ∀ {a b : κ}, ¬ a < b → a ≠ b → b < a

instance : KeyOrder Nat where
  irrefl := Nat.lt_irrefl
  trans := Nat.lt_trans
  connected h n := by omega

instance : KeyOrder Int where
  irrefl := Int.lt_irrefl
  trans := Int.lt_trans
  connected h n := by omega

instance : KeyOrder (List UInt8) where
  irrefl := List.lt_irrefl
  trans := List.lt_trans
  connected h n := Std.lt_of_le_of_ne (Std.not_lt.mp h) (Ne.symm n)

/-- Keys strictly ascend. -/
structure SortedMap (κ : Type) [LT κ] (α : Type) where
  entries : List (κ × α)
  ascending : entries.Pairwise (fun a b => a.1 < b.1)

namespace SortedMap

variable {κ α β : Type} [LT κ]

theorem ext_entries {a b : SortedMap κ α} (h : a.entries = b.entries) : a = b := by
  cases a; cases b; cases h; rfl

instance [DecidableEq κ] [DecidableEq α] : DecidableEq (SortedMap κ α) :=
  fun a b => decidable_of_iff (a.entries = b.entries) ⟨ext_entries, fun h => h ▸ rfl⟩

def empty : SortedMap κ α := ⟨[], .nil⟩

instance : Inhabited (SortedMap κ α) := ⟨empty⟩

def keys (m : SortedMap κ α) : List κ := m.entries.map (·.1)

def values (m : SortedMap κ α) : List α := m.entries.map (·.2)

def size (m : SortedMap κ α) : Nat := m.entries.length

/-- What the values count for together. -/
def total (m : SortedMap κ α) (count : α → Nat) : Nat :=
  m.entries.foldr (fun e n => count e.2 + n) 0

def isEmpty (m : SortedMap κ α) : Bool := m.entries.isEmpty

def lookup [DecidableEq κ] (k : κ) : List (κ × α) → Option α
  | [] => none
  | e :: r => if k = e.1 then some e.2 else lookup k r

def get? [DecidableEq κ] (m : SortedMap κ α) (k : κ) : Option α := lookup k m.entries

def contains [DecidableEq κ] (m : SortedMap κ α) (k : κ) : Bool := (m.get? k).isSome

/-- `f` sees what is held under `k` and says what is held afterwards. -/
def alterEntries [DecidableEq κ] [DecidableLT κ] (k : κ) (f : Option α → Option α) :
    List (κ × α) → List (κ × α)
  | [] => (f none).toList.map (k, ·)
  | e :: r =>
    if k < e.1 then (f none).toList.map (k, ·) ++ e :: r
    else if k = e.1 then (f (some e.2)).toList.map (k, ·) ++ r
    else e :: alterEntries k f r

theorem mem_alterEntries [DecidableEq κ] [DecidableLT κ] {k : κ} {f : Option α → Option α}
    {l : List (κ × α)} {e : κ × α} (h : e ∈ alterEntries k f l) : e.1 = k ∨ e ∈ l := by
  induction l with
  | nil =>
    obtain ⟨a, _, rfl⟩ := List.mem_map.mp h
    exact .inl rfl
  | cons d r ih =>
    simp only [alterEntries] at h
    split at h
    · rcases List.mem_append.mp h with h | h
      · obtain ⟨a, _, rfl⟩ := List.mem_map.mp h
        exact .inl rfl
      · exact .inr h
    · split at h
      · rcases List.mem_append.mp h with h | h
        · obtain ⟨a, _, rfl⟩ := List.mem_map.mp h
          exact .inl rfl
        · exact .inr (List.mem_cons_of_mem _ h)
      · rcases List.mem_cons.mp h with rfl | h
        · exact .inr List.mem_cons_self
        · exact (ih h).imp_right (List.mem_cons_of_mem _)

theorem pairwise_toList_append {k : κ} (o : Option α) {l : List (κ × α)}
    (hl : l.Pairwise (fun a b => a.1 < b.1)) (hk : ∀ e ∈ l, k < e.1) :
    (o.toList.map (k, ·) ++ l).Pairwise (fun a b => a.1 < b.1) := by
  cases o with
  | none => exact hl
  | some a => exact List.pairwise_cons.mpr ⟨hk, hl⟩

theorem pairwise_alterEntries [KeyOrder κ] [DecidableEq κ] [DecidableLT κ] (k : κ)
    (f : Option α → Option α) {l : List (κ × α)} (hl : l.Pairwise (fun a b => a.1 < b.1)) :
    (alterEntries k f l).Pairwise (fun a b => a.1 < b.1) := by
  induction l with
  | nil => simpa [alterEntries] using pairwise_toList_append (f none) hl (by simp)
  | cons d r ih =>
    obtain ⟨hd, hr⟩ := List.pairwise_cons.mp hl
    simp only [alterEntries]
    split
    · rename_i lt
      refine pairwise_toList_append _ hl fun e he => ?_
      rcases List.mem_cons.mp he with rfl | he
      · exact lt
      · exact KeyOrder.trans lt (hd e he)
    · split
      · rename_i eq
        exact pairwise_toList_append _ hr fun e he => eq ▸ hd e he
      · rename_i nlt ne
        refine List.pairwise_cons.mpr ⟨fun e he => ?_, ih hr⟩
        rcases mem_alterEntries he with h | h
        · exact h ▸ KeyOrder.connected nlt ne
        · exact hd e h

def alter [KeyOrder κ] [DecidableEq κ] [DecidableLT κ] (m : SortedMap κ α) (k : κ)
    (f : Option α → Option α) : SortedMap κ α :=
  ⟨alterEntries k f m.entries, pairwise_alterEntries k f m.ascending⟩

theorem pairwise_filterMap {f : κ → α → Option β} {l : List (κ × α)}
    (hl : l.Pairwise (fun a b => a.1 < b.1)) :
    (l.filterMap (fun e => (f e.1 e.2).map (e.1, ·))).Pairwise (fun a b => a.1 < b.1) := by
  refine List.Pairwise.filterMap _ ?_ hl
  intro a b hab x hx y hy
  obtain ⟨_, _, rfl⟩ := Option.map_eq_some_iff.mp hx
  obtain ⟨_, _, rfl⟩ := Option.map_eq_some_iff.mp hy
  exact hab

/-- Keeps the keys for which `f` gives a value. -/
def filterMap (f : κ → α → Option β) (m : SortedMap κ α) : SortedMap κ β :=
  ⟨m.entries.filterMap (fun e => (f e.1 e.2).map (e.1, ·)), pairwise_filterMap m.ascending⟩

def filter (p : κ → α → Bool) (m : SortedMap κ α) : SortedMap κ α :=
  m.filterMap (fun k a => if p k a then some a else none)

/-- Goes through the second list up to the place of `x`. `rest` joins what comes after `x`, which is
`xs`, with what is left then. -/
def joinAt [DecidableEq κ] [DecidableLT κ] (f : α → α → α) (x : κ × α) (xs : List (κ × α))
    (rest : List (κ × α) → List (κ × α)) : List (κ × α) → List (κ × α)
  | [] => x :: xs
  | y :: ys =>
    if x.1 < y.1 then x :: rest (y :: ys)
    else if x.1 = y.1 then (x.1, f x.2 y.2) :: rest ys
    else y :: joinAt f x xs rest ys

/-- Both lists side by side, each gone through once. -/
def joinEntries [DecidableEq κ] [DecidableLT κ] (f : α → α → α) :
    List (κ × α) → List (κ × α) → List (κ × α)
  | [], ys => ys
  | x :: xs, ys => joinAt f x xs (joinEntries f xs) ys

theorem mem_joinEntries [DecidableEq κ] [DecidableLT κ] {f : α → α → α} {xs ys : List (κ × α)}
    {e : κ × α} (h : e ∈ joinEntries f xs ys) :
    (∃ d ∈ xs, d.1 = e.1) ∨ ∃ d ∈ ys, d.1 = e.1 := by
  induction xs generalizing ys with
  | nil => exact .inr ⟨e, h, rfl⟩
  | cons x xs ih =>
    have lift {zs ws : List (κ × α)} (sub : ∀ d ∈ zs, d ∈ ws) (h : e ∈ joinEntries f xs zs) :
        (∃ d ∈ x :: xs, d.1 = e.1) ∨ ∃ d ∈ ws, d.1 = e.1 :=
      (ih h).imp (fun ⟨d, hd, eq⟩ => ⟨d, List.mem_cons_of_mem _ hd, eq⟩)
        fun ⟨d, hd, eq⟩ => ⟨d, sub d hd, eq⟩
    rw [joinEntries] at h
    induction ys with
    | nil => exact .inl ⟨e, h, rfl⟩
    | cons y ys ihy =>
      simp only [joinAt] at h
      split at h
      · rcases List.mem_cons.mp h with rfl | h
        · exact .inl ⟨_, List.mem_cons_self, rfl⟩
        · exact lift (fun d hd => hd) h
      · split at h
        · rcases List.mem_cons.mp h with rfl | h
          · exact .inl ⟨_, List.mem_cons_self, rfl⟩
          · exact lift (fun d hd => List.mem_cons_of_mem _ hd) h
        · rcases List.mem_cons.mp h with rfl | h
          · exact .inr ⟨_, List.mem_cons_self, rfl⟩
          · exact (ihy h).imp_right fun ⟨d, hd, eq⟩ => ⟨d, List.mem_cons_of_mem _ hd, eq⟩

theorem pairwise_joinEntries [KeyOrder κ] [DecidableEq κ] [DecidableLT κ] (f : α → α → α)
    {xs ys : List (κ × α)} (hx : xs.Pairwise (fun a b => a.1 < b.1))
    (hy : ys.Pairwise (fun a b => a.1 < b.1)) :
    (joinEntries f xs ys).Pairwise (fun a b => a.1 < b.1) := by
  induction xs generalizing ys with
  | nil => exact hy
  | cons x xs ih =>
    obtain ⟨hx, hxs⟩ := List.pairwise_cons.mp hx
    have above {k : κ} {zs : List (κ × α)} (hk : k = x.1 ∨ k < x.1) (hz : ∀ d ∈ zs, k < d.1) :
        ∀ e ∈ joinEntries f xs zs, k < e.1 := fun e he => by
      rcases mem_joinEntries he with ⟨d, hd, eq⟩ | ⟨d, hd, eq⟩
      · rcases hk with rfl | hk
        · exact eq ▸ hx d hd
        · exact eq ▸ KeyOrder.trans hk (hx d hd)
      · exact eq ▸ hz d hd
    rw [joinEntries]
    induction ys with
    | nil => exact List.pairwise_cons.mpr ⟨hx, hxs⟩
    | cons y ys ihy =>
      obtain ⟨hy', hys⟩ := List.pairwise_cons.mp hy
      simp only [joinAt]
      split
      · rename_i lt
        refine List.pairwise_cons.mpr ⟨above (.inl rfl) fun d hd => ?_, ih hxs hy⟩
        rcases List.mem_cons.mp hd with rfl | hd
        · exact lt
        · exact KeyOrder.trans lt (hy' d hd)
      · split
        · rename_i eq
          exact List.pairwise_cons.mpr ⟨above (.inl rfl) fun d hd => eq ▸ hy' d hd, ih hxs hys⟩
        · rename_i nlt ne
          have lt : y.1 < x.1 := KeyOrder.connected nlt ne
          refine List.pairwise_cons.mpr ⟨fun e he => ?_, ihy hys⟩
          have he : e ∈ joinEntries f (x :: xs) ys := he
          rcases mem_joinEntries he with ⟨d, hd, eq⟩ | ⟨d, hd, eq⟩
          · rcases List.mem_cons.mp hd with rfl | hd
            · exact eq ▸ lt
            · exact eq ▸ KeyOrder.trans lt (hx d hd)
          · exact eq ▸ hy' d hd

section Keyed

variable [KeyOrder κ] [DecidableEq κ] [DecidableLT κ]

def insert (m : SortedMap κ α) (k : κ) (a : α) : SortedMap κ α := m.alter k (fun _ => some a)

/-- Leaves a value already held under `k` alone. -/
def insertNew (m : SortedMap κ α) (k : κ) (a : α) : SortedMap κ α :=
  m.alter k (fun o => some (o.getD a))

def erase (m : SortedMap κ α) (k : κ) : SortedMap κ α := m.alter k (fun _ => none)

/-- Applies `f` to the value under `k`, or to `a` when there is none. -/
def update (m : SortedMap κ α) (k : κ) (a : α) (f : α → α) : SortedMap κ α :=
  m.alter k (fun o => some (f (o.getD a)))

/-- A later pair replaces an earlier one with the same key. -/
def ofList (l : List (κ × α)) : SortedMap κ α := l.foldl (fun m e => m.insert e.1 e.2) empty

/-- Keys held by both sides get `f` of the two values. -/
def unionWith (f : α → α → α) (a b : SortedMap κ α) : SortedMap κ α :=
  ⟨joinEntries f a.entries b.entries, pairwise_joinEntries f a.ascending b.ascending⟩

end Keyed

end SortedMap

end Backfill
