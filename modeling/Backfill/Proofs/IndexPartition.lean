import Backfill.Proofs.Overflow
import Backfill.Proofs.PeerIndex
import Backfill.Proofs.ReplayIndex

/-!
Whichever source an index was read from, what is marked in its blocks and what is missing part the
request between them.
-/

namespace Backfill

/-- Has a series without a name at 22, among others. -/
def Peers.unnamed : Session where
  blocks _ _ := .ok .empty
  metadata _ f := .ok (if f.window.start = 15 then [⟨[1], .empty, 16⟩, ⟨[], .empty, 22⟩] else [])

theorem Peers.unnamed_steady (id : NamespaceId) : unnamed.SteadyMetadata id := by
  refine ⟨fun _ _ _ => rfl, fun _ _ => by simp [unnamed], fun f l _ h m hm => ?_⟩
  cases h
  split at hm
  · rcases List.mem_cons.mp hm with rfl | hm
    · decide
    · cases List.mem_singleton.mp hm
      decide
  · cases hm

end Backfill
