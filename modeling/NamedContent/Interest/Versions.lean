import NamedContent.Interest.Basic
import NamedContent.Name.Profile

/-!
# Queries for versions

Interests in the next and in the latest version of some content, and in the first segment of a
known one. Answers to the first two carry the version right after the interest's name, followed by
one more component.
-/

namespace NamedContent

namespace Interest

/-- Components of a fragment's name after the base: version and segment. -/
def versionSuffix : Nat := 2

def firstSegment (versioned : Name) (publisher : Option Publisher := none) : Interest :=
  exact versioned.firstSegmentName publisher

/-- The interest in the earliest version after the one that `known` names, or in the earliest one
of all if it names none. -/
def nextVersion (known : Name) (publisher : Option Publisher := none) : Interest :=
  let (base, exclude) : Name × Exclude :=
    match known.splitVersion? with
    | some (b, v) => (b, .through v.toComponent)
    | none => (known, .none)
  { name := base, exclude, publisher, selector := .leftmost
    minSuffix := some versionSuffix, maxSuffix := some versionSuffix }

/-- The interest in the latest version of the content that `name` names. -/
def latestVersion (name : Name) (publisher : Option Publisher := none) : Interest :=
  { name := name.base, publisher, selector := .rightmost
    minSuffix := some versionSuffix, maxSuffix := some versionSuffix }

/-- The position just past the version in a name that answers the interest. -/
def cutPoint (i : Interest) : Nat := i.name.length + 1

/-- The versioned name of a candidate, if the component after the interest's name is a version. -/
def versionedNameOf? (i : Interest) (candidate : Name) : Option Name :=
  match candidate.component? i.name.length with
  | some c => if Version.isComponent c then some (candidate.cut i.cutPoint) else none
  | none => none

end Interest

end NamedContent
