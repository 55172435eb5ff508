/-!
# Network configuration

The settings that writers and readers of one network share.
-/

namespace NamedContent

/-- Settings of a network. Times are in milliseconds. -/
structure NetworkConfig where
  segmentSize : Nat := 4096
  /-- Freshness of published fragments, in seconds. -/
  freshness : Option UInt32 := none
  /-- Whether fetched fragments are verified before use. -/
  verify : Bool := true
  /-- How long a reader waits for each segment after the first. -/
  segmentTimeout : Nat := 4000
  deriving DecidableEq, Repr

namespace NetworkConfig

/-- The configuration with another segment size; a segment holds at least one byte. -/
def withSegmentSize (c : NetworkConfig) (size : Nat) : NetworkConfig :=
  { c with segmentSize := max size 1 }

end NetworkConfig

end NamedContent
