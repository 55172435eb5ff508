import NamedContent.Interest.Versions
import NamedContent.Network.Basic

/-!
# Watching for later versions

A watch is an object's standing query for versions after a known one. It is idle or armed; every
arming has a generation of its own, and a call for another generation does nothing. A batch of
answers is classified: the latest of the later versions in it is confirmed; if there is none, the
next components of the answers are excluded from the query, which is issued again.

After a confirmed version a continuous watch goes on from the new name, and any other becomes idle.
A version that turns out to be unreadable is rejected: its component is excluded too.
-/

namespace NamedContent

structure ActiveQuery where
  generation : Nat
  /-- The name of which later versions are wanted. -/
  known : Name
  interest : Interest
  /-- The number under which the interest was expressed. -/
  id : Option InterestId := none
  deriving DecidableEq

structure Watch where
  active : Option ActiveQuery := none
  /-- Components rejected since the last confirmed version, in canonical order. -/
  exclusions : List Component := []
  /-- Whether to go on after a confirmed version. -/
  continuous : Bool := false
  /-- The last generation given out. -/
  generation : Nat := 0
  deriving DecidableEq

/-- A later version, as far as an answer tells. -/
inductive Confirmed where
  /-- Its first segment is the answer. -/
  | firstSegment (fragment : Fragment)
  /-- Another fragment of it is the answer; the first segment is still to be fetched. -/
  | version (versioned : Name) (publisher : Publisher)
  deriving DecidableEq

def Confirmed.version? : Confirmed → Option Version
  | .firstSegment f => f.name.version?
  | .version versioned _ => versioned.version?

/-- What a batch of answers came to. -/
inductive BatchOutcome where
  /-- The watch is not armed for this generation. -/
  | stale
  /-- Nothing new: issue this interest. -/
  | reissue (interest : Interest)
  | confirmed (target : Confirmed)
  deriving DecidableEq

namespace Watch

/-! ### Arming -/

def idle : Watch := {}

def isArmed (w : Watch) : Bool := w.active.isSome

/-- The armed query, if it is of this generation. -/
def query? (w : Watch) (generation : Nat) : Option ActiveQuery :=
  w.active.filter fun q => q.generation == generation

/-- Disarm, and tell the number of the interest to cancel. -/
def cancel (w : Watch) : Option InterestId × Watch :=
  (w.active.bind ActiveQuery.id, { w with active := none, exclusions := [], continuous := false })

/-- Arm a query for the versions after a name, in place of any armed one. The result has the new
query and the number of the interest to cancel. -/
def arm (w : Watch) (known : Name) (continuous : Bool) : ActiveQuery × Option InterestId × Watch :=
  let (withdrawn, w) := w.cancel
  let generation := w.generation + 1
  let query : ActiveQuery := { generation, known, interest := .nextVersion known }
  (query, withdrawn, { w with active := some query, continuous, generation })

/-- Note the number of the query's interest, and say whether the query is still armed. -/
def registered (w : Watch) (generation : Nat) (id : InterestId) : Bool × Watch :=
  match w.query? generation with
  | some q => (true, { w with active := some { q with id := some id } })
  | none => (false, w)

/-! ### After a confirmed version -/

/-- Go on from a new known name if continuous, or else become idle. The result is the interest to
issue. -/
def confirmed (w : Watch) (generation : Nat) (known : Name) : Option Interest × Watch :=
  match w.query? generation with
  | none => (none, w)
  | some q =>
    if w.continuous then
      let interest := Interest.nextVersion known
      (some interest, { w with active := some { q with known, interest }, exclusions := [] })
    else (none, { w with active := none, exclusions := [] })

/-- The interest to go on with after a confirmed version could not be read yet. -/
def retry (w : Watch) (generation : Nat) : Option Interest :=
  (w.query? generation).map ActiveQuery.interest

variable [Suite]

/-- Add a component to a list in canonical order, unless it is there. -/
def insertNew (c : Component) (cs : List Component) : List Component :=
  if cs.contains c then cs else Exclude.insertSorted c cs

/-- Exclude a component from a query, and note it if it was not excluded already. -/
def exclude (q : ActiveQuery) (exclusions : List Component) (c : Component) :
    ActiveQuery × List Component :=
  ({ q with interest := q.interest.excluding c },
    if q.interest.exclude.excludes c then exclusions else insertNew c exclusions)

/-- Exclude a confirmed version that is unreadable. The result is the interest to issue. -/
def reject (w : Watch) (generation : Nat) (token : Component) : Option Interest × Watch :=
  match w.query? generation with
  | none => (none, w)
  | some q =>
    let (q, exclusions) := exclude q w.exclusions token
    (some q.interest, { w with active := some q, exclusions })

/-! ### Batches -/

/-- The later version that an answer belongs to, if its name tells. -/
def candidate? (i : Interest) (f : Fragment) : Option Confirmed :=
  if f.name.isVersionedFirstSegment then some (.firstSegment f)
  else
    ((i.versionedNameOf? f.name).orElse fun _ => f.name.versioned?).map fun versioned =>
      .version versioned f.publisher

def isBetter (c : Confirmed) : Option Confirmed → Bool
  | none => true
  | some best =>
    match best.version?, c.version? with
    | some vb, some vc => decide (vb < vc)
    | none, some _ => true
    | _, none => false

def better (best : Option Confirmed) (c : Confirmed) : Option Confirmed :=
  if isBetter c best then some c else best

/-- Look at one answer: a later version is a candidate, anything else is excluded. -/
def examine (q : ActiveQuery) (exclusions : List Component) (best : Option Confirmed)
    (f : Fragment) : ActiveQuery × List Component × Option Confirmed :=
  if f.name.startsWithLaterVersionOf q.known then
    match candidate? q.interest f with
    | some c => (q, exclusions, better best c)
    | none => (q, exclusions, best)
  else
    match f.name.component? q.interest.name.length with
    | some c =>
      let (q, exclusions) := exclude q exclusions c
      (q, exclusions, best)
    | none => (q, exclusions, best)

def examineAll (q : ActiveQuery) (exclusions : List Component) (best : Option Confirmed) :
    List Fragment → ActiveQuery × List Component × Option Confirmed
  | [] => (q, exclusions, best)
  | f :: fs =>
    let (q, exclusions, best) := examine q exclusions best f
    examineAll q exclusions best fs

/-- Classify a batch that was delivered for a generation. -/
def handleBatch (w : Watch) (generation : Nat) (batch : List Fragment) : BatchOutcome × Watch :=
  match w.query? generation with
  | none => (.stale, w)
  | some q =>
    match examineAll q w.exclusions none batch with
    | (q, _, some target) => (.confirmed target, { w with active := some q, exclusions := [] })
    | (q, exclusions, none) =>
      (.reissue q.interest, { w with active := some q, exclusions })

end Watch

end NamedContent
