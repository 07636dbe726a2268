import Backfill.Peers.Flush
import Backfill.SortedMap.Lemmas

/-!
When a flush fails, on a disk whose answer to a call does not depend on the calls before it and that
never breaks off: exactly when the disk refuses to prepare, to persist one of the blocks, or to
close.
-/

namespace Backfill

/-- The answer to a call is always the same, and never that the call broke off. -/
structure Disk.Steady (disk : Disk) : Prop where
  same : ∀ nth call, disk.answer nth call = disk.answer 0 call
  calm : ∀ call, disk.answer 0 call ≠ .crash

def Disk.Refuses (disk : Disk) (call : DiskCall) : Prop := ∃ e, disk.answer 0 call = .error e

/-- Something that the files of one window take is refused. -/
inductive Disk.Spoils (disk : Disk) (f : Fileset) (d : ShardData) : Prop
  | prepare (h : disk.Refuses (.prepare f))
  | persist (id : SeriesId) (s : Series) (b : Block) (held : d.series.get? id = some s)
      (here : s.blocks.get? f.start = some b) (h : disk.Refuses (.persist f id s.tags b))
  | close (h : disk.Refuses (.close f))

namespace Flush

/-- The calls come to an end, with an error just when `bad` holds. -/
def Ends (x : DiskTrail) (bad : Prop) : Prop :=
  ¬ bad ∧ x.outcome = .ok () ∨ bad ∧ ∃ e, x.outcome = .error (.error e)

theorem Ends.congr {x : DiskTrail} {bad bad' : Prop} (h : Ends x bad) (iff : bad ↔ bad') :
    Ends x bad' := by
  unfold Ends at *
  rw [← iff]
  exact h

theorem Ends.bind {x : DiskTrail} {f : Unit → DiskTrail} {bad bad' : Prop} (hx : Ends x bad)
    (hf : Ends (f ()) bad') : Ends (x.bind f) (bad ∨ bad') := by
  obtain ⟨l, o⟩ := x
  rcases hx with ⟨hn, ho⟩ | ⟨hb, e, ho⟩
  · dsimp only at ho
    subst ho
    rcases hf with ⟨hn', hf⟩ | ⟨hb', e, hf⟩
    · exact .inl ⟨not_or.mpr ⟨hn, hn'⟩, hf⟩
    · exact .inr ⟨.inr hb', e, hf⟩
  · dsimp only at ho
    subst ho
    exact .inr ⟨.inl hb, e, rfl⟩

theorem ends_pure : Ends (.pure ()) False := .inl ⟨not_false, rfl⟩

variable {disk : Disk}

theorem ends_ask (steady : disk.Steady) (nth : Nat) (call : DiskCall) :
    Ends (ask disk nth call) (disk.Refuses call) := by
  have calm := steady.calm call
  simp only [Ends, ask, steady.same nth call, Disk.Refuses]
  cases h : disk.answer 0 call with
  | ok u => simp
  | error e => simp
  | crash => exact absurd h calm

theorem ends_register (steady : disk.Steady) (nth : Nat) (call : DiskCall) :
    Ends (register disk nth call) False := by
  have calm := steady.calm call
  simp only [Ends, register, steady.same nth call]
  cases h : disk.answer 0 call with
  | ok u => simp
  | error e => simp
  | crash => exact absurd h calm

theorem ends_persistBlock (steady : disk.Steady) (f : Fileset) (nth : Nat)
    (b : SeriesId × Tags × Block) :
    Ends (persistBlock disk f nth b) (disk.Refuses (.persist f b.1 b.2.1 b.2.2)) :=
  ((ends_ask steady nth _).bind (ends_register steady _ _)).congr (by simp)

theorem ends_persistBlocks (steady : disk.Steady) (f : Fileset) (nth : Nat)
    (l : List (SeriesId × Tags × Block)) :
    Ends (persistBlocks disk f nth l) (∃ b ∈ l, disk.Refuses (.persist f b.1 b.2.1 b.2.2)) := by
  induction l generalizing nth with
  | nil => exact ends_pure.congr (by simp)
  | cons b l ih =>
    exact ((ends_persistBlock steady f nth b).bind (ih _)).congr (by simp)

/-- Closing comes after the blocks, also where one of them is refused. -/
theorem ends_closeAfter (steady : disk.Steady) (f : Fileset) (nth : Nat) {body : DiskTrail}
    {bad : Prop} (h : Ends body bad) :
    Ends (closeAfter disk f nth body) (bad ∨ disk.Refuses (.close f)) := by
  rcases h with ⟨hn, ho⟩ | ⟨hb, e, ho⟩
  · simp only [closeAfter, ho]
    exact Ends.bind (.inl ⟨hn, ho⟩) (ends_ask steady _ _)
  · refine .inr ⟨.inl hb, e, ?_⟩
    simp only [closeAfter, ho]
    rcases ends_ask steady (nth + body.entries.length) (.close f) with ⟨_, hc⟩ | ⟨_, e', hc⟩ <;>
      simp [hc]

theorem ends_writeFileset (steady : disk.Steady) (f : Fileset) (nth : Nat) (d : ShardData) :
    Ends (writeFileset disk f nth d) (disk.Spoils f d) := by
  refine ((ends_ask steady nth _).bind
    (ends_closeAfter steady f _ (ends_persistBlocks steady f _ _))).congr ?_
  constructor
  · intro hm
    rcases hm with h | ⟨b, hb, h⟩ | h
    · exact .prepare h
    · obtain ⟨⟨id, s⟩, hs, hmap⟩ := List.mem_filterMap.mp hb
      obtain ⟨block, hblock, rfl⟩ := Option.map_eq_some_iff.mp hmap
      exact .persist id s block (SortedMap.get?_eq_some_iff.mpr hs) hblock h
    · exact .close h
  · intro hm
    rcases hm with h | ⟨id, s, b, held, here, h⟩ | h
    · exact .inl h
    · refine .inr (.inl ⟨(id, s.tags, b), List.mem_filterMap.mpr ⟨(id, s), ?_, ?_⟩, h⟩)
      · exact SortedMap.get?_eq_some_iff.mp held
      · simp [here]
    · exact .inr (.inr h)

/-- A flush of one window fails with the files of that window. -/
theorem ends_write (steady : disk.Steady) (t : FlushTarget) (nth : Nat) (flush : Flush)
    {w : Interval} (hw : flush.part.windows t.blockSize = ⟨[w], .ok ()⟩) :
    Ends (write disk t nth flush) (disk.Spoils (fileset t flush.shard w.start) flush.data) := by
  simp only [write, hw, writeWindows]
  have first := ends_writeFileset steady (fileset t flush.shard w.start) nth flush.data
  exact ((first.bind ends_pure).bind ends_pure).congr (by simp)

/-- Whatever calls came before, the flush ends, and with an error just when `bad` holds. -/
def Settles (flush : Flush) (t : Disk × FlushTarget) (bad : Prop) : Prop :=
  ∀ nth, Ends (write t.1 t.2 nth flush) bad

theorem Settles.congr {flush : Flush} {t : Disk × FlushTarget} {bad bad' : Prop}
    (h : flush.Settles t bad) (iff : bad ↔ bad') : flush.Settles t bad' :=
  fun nth => (h nth).congr iff

theorem settles_of_steady (steady : disk.Steady) (t : FlushTarget) {flush : Flush} {w : Interval}
    (hw : flush.part.windows t.blockSize = ⟨[w], .ok ()⟩) :
    flush.Settles (disk, t) (disk.Spoils (fileset t flush.shard w.start) flush.data) :=
  fun nth => ends_write steady t nth flush hw

end Flush

end Backfill
