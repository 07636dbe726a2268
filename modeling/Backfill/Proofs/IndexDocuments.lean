import Backfill.Proofs.PeerIndex

/-!
The documents and the blocks that the workers of an index read bring about. Of several documents of
one series for one block the first goes in; a block is there when a document goes into it or
something is marked in it.
-/

namespace Backfill

namespace Index

variable {start : Instant} {id : SeriesId}

/-- The tags of the first document of a series for a block. -/
def first? (documents : List (Instant × SeriesId × Tags)) (start : Instant) (id : SeriesId) :
    Option Tags :=
  (documents.find? fun d => d.1 = start && d.2.1 = id).map (·.2.2)

theorem first?_append (a b : List (Instant × SeriesId × Tags)) (start : Instant) (id : SeriesId) :
    first? (a ++ b) start id = (first? a start id).or (first? b start id) := by
  rw [first?, List.find?_append, Option.map_or]
  rfl

theorem mem_of_first? {l : List (Instant × SeriesId × Tags)} {tags : Tags}
    (h : first? l start id = some tags) : (start, id, tags) ∈ l := by
  obtain ⟨d, hd, rfl⟩ := Option.map_eq_some_iff.mp h
  have here := List.find?_some hd
  simp only [Bool.and_eq_true, decide_eq_true_eq] at here
  obtain ⟨rfl, rfl⟩ := here
  exact List.mem_of_find?_eq_some hd

theorem first?_isSome {l : List (Instant × SeriesId × Tags)} :
    (first? l start id).isSome = true ↔ ∃ tags, (start, id, tags) ∈ l := by
  rw [first?, Option.isSome_map, List.find?_isSome]
  constructor
  · intro h
    obtain ⟨⟨k, name, tags⟩, hd, here⟩ := h
    simp only [Bool.and_eq_true, decide_eq_true_eq] at here
    obtain ⟨rfl, rfl⟩ := here
    exact ⟨tags, hd⟩
  · intro h
    obtain ⟨tags, hd⟩ := h
    exact ⟨_, hd, by simp⟩

theorem document?_foldl_insert (l : List (Instant × SeriesId × Tags)) (i : Index)
    (start : Instant) (id : SeriesId) :
    (l.foldl (fun i d => i.insert d.1 d.2.1 d.2.2) i).document? start id =
      (i.document? start id).or (first? l start id) := by
  induction l generalizing i with
  | nil => exact Option.or_none.symm
  | cons d l ih =>
    rw [List.foldl_cons, ih, document?_insert, first?, first?, List.find?_cons]
    by_cases here : start = d.1 ∧ id = d.2.1
    · obtain ⟨rfl, rfl⟩ := here
      cases i.document? d.1 d.2.1 <;> simp
    · rw [if_neg here]
      have other : (decide (d.1 = start) && decide (d.2.1 = id)) = false := by
        rw [Bool.eq_false_iff]
        intro same
        simp only [Bool.and_eq_true, decide_eq_true_eq] at same
        exact here ⟨same.1.symm, same.2.symm⟩
      rw [other]

theorem contains_foldl_insert (l : List (Instant × SeriesId × Tags)) (i : Index)
    (start : Instant) :
    (l.foldl (fun i d => i.insert d.1 d.2.1 d.2.2) i).blocks.contains start = true ↔
      i.blocks.contains start = true ∨ ∃ d ∈ l, d.1 = start := by
  have adds := foldl_adds (l := l) (f := fun (i : Index) d => i.insert d.1 d.2.1 d.2.2)
    (fun _ => True) (fun i start => i.blocks.contains start = true) (fun d start => d.1 = start)
    (fun d _ i _ => ⟨trivial, fun start => by rw [contains_insert, eq_comm (a := start)]⟩)
    (s := i) trivial
  exact adds.2 start

end Index

namespace Peers

namespace IndexAction

/-- The documents that the action puts in, as long as they are the first. -/
def documents : IndexAction → List (Instant × SeriesId × Tags)
  | .absorb w => w.documents
  | _ => []

/-- Actions without a document for a block of a series have no say in it. -/
theorem first?_filter {l : List (Shard × IndexAction)} {p : Shard × IndexAction → Bool}
    {start : Instant} {id : SeriesId}
    (only : ∀ a ∈ l, ∀ tags, (start, id, tags) ∈ a.2.documents → p a = true) :
    Index.first? (l.flatMap (·.2.documents)) start id =
      Index.first? ((l.filter p).flatMap (·.2.documents)) start id := by
  induction l with
  | nil => rfl
  | cons a l ih =>
    have rest := ih fun b hb => only b (List.mem_cons_of_mem _ hb)
    rw [List.flatMap_cons, Index.first?_append, rest, List.filter_cons]
    split
    · rw [List.flatMap_cons, Index.first?_append]
    · rename_i left
      have none : Index.first? a.2.documents start id = none := by
        rw [Option.eq_none_iff_forall_ne_some]
        intro tags found
        exact left (only a List.mem_cons_self tags (Index.mem_of_first? found))
      rw [none, Option.none_or]

/-- The block at `start` is there after the action. -/
def Opens (a : IndexAction) (start : Instant) : Prop :=
  match a with
  | .absorb w => (∃ d ∈ w.documents, d.1 = start) ∨ w.indexed.isEmpty = false ∧ start = w.start
  | _ => False

end IndexAction

namespace IndexState

theorem act_document? (s : IndexState) (a : Shard × IndexAction) (start : Instant)
    (id : SeriesId) : (s.act a).index.index.document? start id =
      (s.index.index.document? start id).or (Index.first? a.2.documents start id) := by
  obtain ⟨shard, action⟩ := a
  cases action with
  | event e => exact Option.or_none.symm
  | miss part => exact Option.or_none.symm
  | absorb w =>
    simp only [act, IndexWindow.absorb, IndexAction.documents]
    split
    · exact Index.document?_foldl_insert w.documents s.index.index start id
    · rw [Index.document?_mark]
      exact Index.document?_foldl_insert w.documents s.index.index start id

theorem act_contains (s : IndexState) (a : Shard × IndexAction) (start : Instant) :
    (s.act a).index.index.blocks.contains start = true ↔
      s.index.index.blocks.contains start = true ∨ a.2.Opens start := by
  obtain ⟨shard, action⟩ := a
  cases action with
  | event e => simp [act, IndexAction.Opens]
  | miss part => simp [act, IndexAction.Opens, RecoveredIndex.addMissing]
  | absorb w =>
    simp only [act, IndexWindow.absorb, IndexAction.Opens]
    split
    · rename_i none
      rw [Index.contains_foldl_insert]
      simp [none]
    · rename_i some
      rw [Index.contains_mark, Index.contains_foldl_insert, or_assoc]
      simp [some]

/-- What goes into a block of a series is the first of all its documents. -/
theorem run_document? (l : List (Shard × IndexAction)) (start : Instant) (id : SeriesId) :
    (run l).index.index.document? start id =
      Index.first? (l.flatMap (·.2.documents)) start id := by
  have fold (s : IndexState) : (l.foldl act s).index.index.document? start id =
      (s.index.index.document? start id).or
        (Index.first? (l.flatMap (·.2.documents)) start id) := by
    induction l generalizing s with
    | nil => exact Option.or_none.symm
    | cons a l ih =>
      rw [List.foldl_cons, ih, act_document?, List.flatMap_cons, Index.first?_append,
        Option.or_assoc]
  exact fold ⟨.empty, []⟩

theorem run_contains (l : List (Shard × IndexAction)) (start : Instant) :
    (run l).index.index.blocks.contains start = true ↔ ∃ a ∈ l, a.2.Opens start := by
  have adds := foldl_adds (l := l) (fun _ => True)
    (fun (s : IndexState) start => s.index.index.blocks.contains start = true)
    (fun a start => a.2.Opens start) (fun a _ s _ => ⟨trivial, act_contains s a⟩)
    (s := ⟨.empty, []⟩) trivial
  apply (adds.2 start).trans
  exact or_iff_right (by simp [RecoveredIndex.empty, Index.empty, SortedMap.contains])

end IndexState

end Peers

end Backfill
