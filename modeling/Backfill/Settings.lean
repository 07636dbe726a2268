import Backfill.Peers.Session
import Backfill.Settings.Environment
import Backfill.Settings.Files

/-!
What an operator can set. Settings come as one document, or are put together from defaults, files
and environment variables, where later layers win.
-/

namespace Backfill

structure Settings where
  peers : Peers.Tuning
  /-- Whether a damaged commit log leaves everything unfulfilled. -/
  missAllOnCorruption : Bool
  deriving DecidableEq, Repr

namespace Settings

/-- For a machine with that many processors. -/
def standard (cpus : Nat) : Settings where
  peers := ⟨cpus, max (cpus / 2) 1, 1, 4096, default, default⟩
  missAllOnCorruption := false

def peersFields : List String :=
  ["default_shard_concurrency", "shard_persistence_concurrency", "persistence_max_queue_size",
    "read_consistency", "fetch_blocks_metadata_batch_size"]

def commitLogFields : List String := ["return_unfulfilled_for_corrupt_commit_log_files"]

def topFields : List String := ["peers", "commitlog", "series_cache_policy"]

/-- How a kind of document holds records, numbers, flags and one of several names. -/
structure Reading (δ : Type) where
  fields : List String → δ → Option (List (Option δ))
  count : δ → Option Nat
  flag : δ → Option Bool
  choice : List String → δ → Option String

namespace Reading

variable {δ : Type}

def level (r : Reading δ) (d : δ) : Option Consistency := do
  let name ← r.choice (Consistency.levels.map (·.name)) d
  Consistency.levels.find? (·.name = name)

def cachePolicy (r : Reading δ) (d : δ) : Option Peers.CachePolicy := do
  let name ← r.choice (Peers.CachePolicy.policies.map (·.name)) d
  Peers.CachePolicy.policies.find? (·.name = name)

def peers (r : Reading δ) (policy : Peers.CachePolicy) (d : δ) : Option Peers.Tuning := do
  match ← r.fields peersFields d with
  | [some workers, some persistWorkers, some queue, some level, some batch] =>
    some ⟨← r.count workers, ← r.count persistWorkers, ← r.count queue, ← r.count batch,
      ← r.level level, policy⟩
  | _ => none

def commitLog (r : Reading δ) (d : δ) : Option Bool := do
  match ← r.fields commitLogFields d with
  | [some b] => r.flag b
  | _ => none

/-- Each part may be left out, but a part that is there is whole. -/
def settings (r : Reading δ) (defaults : Settings) (d : δ) : Option Settings := do
  match ← r.fields topFields d with
  | [peers, log, policy] =>
    let policy ← policy.elim (some defaults.peers.cachePolicy) r.cachePolicy
    some ⟨← peers.elim (some { defaults.peers with cachePolicy := policy }) (r.peers policy),
      ← log.elim (some defaults.missAllOnCorruption) r.commitLog⟩
  | _ => none

/-- As written, to the letter. -/
def json : Reading Json.Value where
  fields := Json.fields
  count
    | .int n => Tree.bounded n
    | _ => none
  flag
    | .bool b => some b
    | _ => none
  choice
    | names, .text (some s) | names, .object [(some s, .null)] => names.find? (· = s)
    | _, _ => none

/-- Whatever can be taken for what is wanted. -/
def tree : Reading Tree := ⟨Tree.fields, Tree.count, Tree.flag, Tree.choice⟩

end Reading

def ofJson? (cpus : Nat) (text : String) : Option Settings := do
  Reading.json.settings (standard cpus) (← Json.read text)

def toTree (s : Settings) : Tree :=
  let p := s.peers
  let count (n : Nat) : Tree := .int n
  let peers : List Tree :=
    [count p.workers, count p.persistWorkers, count p.queueCapacity, .text p.level.name,
      count p.batchSize]
  .table (topFields.zip
    [.table (peersFields.zip peers), .table (commitLogFields.zip [.bool s.missAllOnCorruption]),
      .text p.cachePolicy.name])

/-- What must not be zero. -/
def counts (s : Settings) : List (String × Nat) :=
  [("default_shard_concurrency", s.peers.workers),
    ("shard_persistence_concurrency", s.peers.persistWorkers),
    ("persistence_max_queue_size", s.peers.queueCapacity),
    ("fetch_blocks_metadata_batch_size", s.peers.batchSize)]

def validate (s : Settings) : Except String Unit :=
  match s.counts.find? (·.2 = 0) with
  | some (name, _) => .error s!"peers.{name} must be > 0"
  | none => .ok ()

inductive LoadError where
  | invalid (why : String)
  /-- A file does not hold a JSON object. -/
  | unreadableFile
  /-- A value cannot be taken for what is wanted in its place. -/
  | mistyped
  /-- A key counts back to before the first item of an array, or beyond what an array can hold. -/
  | noSuchItem
  deriving DecidableEq, Repr

def fileLayer (text : String) : Except LoadError (List (String × Tree)) :=
  match (Json.read text).bind (Tree.ofJson? Tree.deepest) with
  | some (.table es) => .ok es
  | _ => .error .unreadableFile

def layer (t : Tree) (l : List (String × Tree)) : Except LoadError Tree :=
  (t.layer l).elim (.error .noSuchItem) .ok

/-- What files and variables say together. A file is read when its turn comes, and missing files do
not count. -/
def given (files : Files) (env : List (String × String)) (paths : List String) :
    Except LoadError Tree := do
  let t ← (paths.filterMap files.find).foldlM (fun t text => do layer t (← fileLayer text))
    (Tree.table [])
  layer t (Environment.layer env)

/-- Defaults only come in when everything else has been put together, so an entry that was replaced
on the way does not hide them. -/
def loadFrom (cpus : Nat) (files : Files) (env : List (String × String))
    (search : List String) (explicit : Option String) : Except LoadError Settings := do
  let t ← given files env (search ++ explicit.toList)
  match Reading.tree.settings (standard cpus) (← layer (standard cpus).toTree t.entries) with
  | none => .error .mistyped
  | some s => do
    s.validate.mapError .invalid
    return s

def searched : List String := ["/etc/tsnode/tsnode", "./config/tsnode"]

/-- From the usual places. -/
def load (cpus : Nat) (files : Files) (env : List (String × String)) :
    Except LoadError Settings :=
  loadFrom cpus files env searched (env.lookup "TSNODE_CONFIG")

end Settings

end Backfill
