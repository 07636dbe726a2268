import Backfill.Source

/-!
Sources one after another. Each is asked only for what the ones before it left missing, and what is
missing in the end is what none of them could provide.
-/

namespace Backfill.Chain

/-- One source's turn: what was left before it, what it was asked, and how it read. -/
structure Round where
  offered : List Request
  asked : List Request
  read : Run Recoveries

structure Account where
  rounds : List Round
  outcome : Except Failure Recoveries

/-- The part of a request that the source says it can provide. -/
def narrow (s : Source) (r : Request) : Except Error Request := do
  let data ← s.availableData r.id r.policy r.data.ranges r.data.options
  let index ← s.availableIndex r.id r.policy r.index.ranges r.index.options
  return { r with data := { r.data with ranges := data }, index := { r.index with ranges := index } }

/-- What stays missing after a source was asked for `asked` of `left`. Only a namespace in its
result counts as read. -/
def settle (found : Recoveries) (left asked : Request) : Request :=
  match found.get? left.id with
  | none => left
  | some f =>
    let data := left.data.ranges.diff (asked.data.ranges.fulfilled f.data.missing)
    let index :=
      if left.policy.indexed then
        left.index.ranges.diff (asked.index.ranges.fulfilled f.index.missing)
      else left.index.ranges
    { left with
      data := { left.data with ranges := data }
      index := { left.index with ranges := index } }

/-- Every request gets an entry that says what is missing. -/
def conclude (merged : Recoveries) (left : Request) : Recoveries :=
  let merged :=
    if (merged.get? left.id).isSome then merged else merged.insert left.id left.recovery
  merged.modify left.id fun f =>
    { f with
      data := { f.data with missing := left.data.ranges }
      index := { f.index with missing := left.indexRanges } }

def runFrom : List Source → List Request → Recoveries → Account
  | [], left, merged => ⟨[], .ok (left.foldl conclude merged)⟩
  | s :: rest, left, merged =>
    match left.mapM (narrow s) with
    | .error e => ⟨[], .error (.error e)⟩
    | .ok asked =>
      let read := s.read asked
      match read.outcome with
      | .error f => ⟨[⟨left, asked, read⟩], .error f⟩
      | .ok found =>
        let next := runFrom rest (List.zipWith (settle found) left asked) (merged.merge found)
        ⟨⟨left, asked, read⟩ :: next.rounds, next.outcome⟩

def run (sources : List Source) (requests : List Request) : Account :=
  runFrom sources requests .empty

end Backfill.Chain
