import NamedContent.Name.Version

/-!
# The naming profile

Content that changes lives under `base/<version>/<segment>`: a version component, then a segment
component, a marked number behind `0x00`. This module reads those parts off a name and puts them
back. Its centre is `splitVersion?`, which ignores one trailing segment component and takes the
component before it, if it is a version, as the version of the name.
-/

namespace NamedContent

/-! ### Segments -/

namespace Segment

def marker : UInt8 := 0x00

/-- The number of the first segment of every version. -/
def first : UInt64 := 0

def toComponent (segment : UInt64) : Component := Component.ofMarked marker segment

def ofComponent? (c : Component) : Option UInt64 := c.marked? marker

/-- The segment number that a component carries, or the fault of a component without one. -/
def ofComponent (c : Component) : Except CoreError UInt64 :=
  match ofComponent? c with
  | some s => .ok s
  | none => .error (.notASegment c.toText)

end Segment

namespace Name

/-! ### Taking names apart -/

def segment? (n : Name) : Option UInt64 := n.last?.bind Segment.ofComponent?

/-- The base name and terminal version of a name. One trailing segment component is ignored. -/
def splitVersion? (n : Name) : Option (Name × Version) :=
  let stop := if n.segment?.isSome then n.length - 1 else n.length
  match stop with
  | 0 => none
  | index + 1 => do
    let version ← Version.ofComponent? (← n.component? index)
    return (n.cut index, version)

def hasVersion (n : Name) : Bool := n.splitVersion?.isSome

def version? (n : Name) : Option Version := n.splitVersion?.map Prod.snd

/-- The name without its terminal version and segment. -/
def base (n : Name) : Name :=
  match n.splitVersion? with
  | some (b, _) => b
  | none => n

/-- The versioned name that a fragment's name belongs to: the name without its segment. -/
def versioned? (n : Name) : Option Name :=
  n.splitVersion?.map fun (b, v) => b.append v.toComponent

def isVersionedFirstSegment (n : Name) : Bool :=
  n.segment? == some Segment.first && n.hasVersion

/-! ### Putting names together -/

/-- The name of version `v` of the content that `n` names; a terminal version is replaced. -/
def addVersion (n : Name) (v : Version) : Name := n.base.append v.toComponent

def segmentName (versioned : Name) (segment : UInt64) : Name :=
  versioned.append (Segment.toComponent segment)

def firstSegmentName (versioned : Name) : Name := versioned.segmentName Segment.first

/-! ### Later versions -/

/-- Whether `a` names a later version than `b`; any versioned name is later than an unversioned
one. -/
def isLaterVersion (a b : Name) : Bool :=
  match a.version?, b.version? with
  | some va, some vb => decide (vb < va)
  | some _, none => true
  | none, _ => false

/-- Whether the component of `candidate` after the base of `known` is a version later than that of
`known`, or any version if `known` has none. -/
def startsWithLaterVersionOf (candidate known : Name) : Bool :=
  let (base, since) : Name × Option Version :=
    match known.splitVersion? with
    | some (b, v) => (b, some v)
    | none => (known, none)
  base.isPrefixOf candidate &&
    match (candidate.component? base.length).bind Version.ofComponent?, since with
    | none, _ => false
    | some _, none => true
    | some v, some k => decide (k < v)

end Name

end NamedContent
