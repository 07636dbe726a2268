import Backfill.Json
import Backfill.TimeSet.Clock

/-!
Intervals and sets of times as JSON documents.
-/

namespace Backfill

namespace Interval

def jsonWith (point : Int → String) (r : Interval) : String :=
  "\x7b\"start\":\"" ++ point r.start ++ "\",\"end\":\"" ++ point r.stop ++ "\"\x7d"

def toJson : Interval → String := jsonWith Timestamp.brief

/-- An interval of clock times. -/
def ofJson? (v : Json.Value) : Option Interval :=
  match Json.fields ["start", "end"] v with
  | some [some (.text (some a)), some (.text (some b))] => do
    some ⟨← Timestamp.read a, ← Timestamp.read b⟩
  | _ => none

end Interval

namespace TimeSet

def jsonWith (point : Int → String) (s : TimeSet) : String :=
  "\x7b\"ranges\":[" ++ ",".intercalate (s.intervals.map (Interval.jsonWith point)) ++ "]\x7d"

def toJson : TimeSet → String := jsonWith Timestamp.brief

/-- A set of clock times as a document. -/
def clockToJson : TimeSet → String := jsonWith Timestamp.briefClock

/-- A set of clock times. The intervals are taken as the document has them, so the set need not be
canonical. -/
def ofJson? (text : String) : Option TimeSet := do
  match Json.fields ["ranges"] (← Json.read text) with
  | some [some (.array vs)] => some ⟨← vs.mapM Interval.ofJson?⟩
  | _ => none

end TimeSet

end Backfill
