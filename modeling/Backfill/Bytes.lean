/-!
Byte strings, compared byte by byte, and the names made of them.
-/

namespace Backfill

abbrev Bytes := List UInt8

/-- Names a time series within its shard. -/
abbrev SeriesId := Bytes

/-- Names a scope of retention and indexing rules. -/
abbrev NamespaceId := Bytes

/-- Names a host of the cluster. -/
abbrev HostId := Bytes

end Backfill
