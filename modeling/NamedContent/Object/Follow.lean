import NamedContent.Object.Session

/-!
# Following versions in the background

An answer to a watch's interest is classified by the watch. A later version is read: if it is
complete the object adopts it, if it is unreadable the watch rejects it, and if something is lacking
the watch waits. What is lacking is looked for again after every change of the supply. A deadline
that passes arms the watch anew, so that it finds the best later version again, the same one or
another.

`settle` serves watches until nothing can be done without a change of the supply or of the time;
`elapse` lets time pass.
-/

namespace NamedContent

namespace Session

variable {α : Type}

/-! ### Concluding -/

/-- The interest that a watch goes on with after a confirmed version was read, or was not: from the
name that the object knows, without the version if it is unreadable, or as before. -/
def nextInterest (o : VersionedObject α) (generation : Nat) (token : Option Component)
    (outcome : Except ObjectError Unit) [Suite] : Option Interest × Watch :=
  match outcome with
  | .ok _ =>
    match o.state.knownName with
    | .ok known => o.watch.confirmed generation known
    | .error _ => (none, o.watch)
  | .error e =>
    match e.isUnreadable, token with
    | true, some token => o.watch.reject generation token
    | _, _ => (o.watch.retry generation, o.watch)

def replyOf : Option Interest → Reply
  | some interest => .reissue interest
  | none => .retire

/-- Enter a reply to an answer that was found when the supply had changed `seen` times. -/
def reply (s : Session α) (id : InterestId) (seen : Nat) (r : Reply) : Session α :=
  { s with network := s.network.resolve id seen r }

variable [Suite]

def conclude (s : Session α) (watcher : Watcher) (id : InterestId) (seen : Nat)
    (token : Option Component) (outcome : Except ObjectError Unit) : Session α :=
  match s.object? watcher.object with
  | none => s.reply id seen .retire
  | some o =>
    let (next, watch) := nextInterest o watcher.generation token outcome
    (s.setWatch watcher.object watch).reply id seen (replyOf next)

/-! ### Waiting for what is lacking -/

/-- How long to wait for what is lacking of a version. -/
def patience (s : Session α) (o : VersionedObject α) : Lack → Nat
  | .firstSegment _ _ => o.timeout
  | .segment _ => s.supply.config.segmentTimeout

/-- Act on how far a confirmed version was read: adopt it, reject it, or wait. -/
def proceed (s : Session α) (watcher : Watcher) (id : InterestId) (seen : Nat)
    (token : Option Component) (reading : Except ObjectError (Reading α)) : Session α :=
  match reading with
  | .error e => s.conclude watcher id seen token (.error e)
  | .ok (.complete version) =>
    let (_, s) := s.adopt watcher.object version
    s.conclude watcher id seen token (.ok ())
  | .ok (.lacking lack) =>
    match s.object? watcher.object with
    | none => s.reply id seen .retire
    | some o =>
      let deadline := s.now + max (s.patience o lack) 1
      let w := { watcher, id, seen, token, lack, checked := s.supply.changes, deadline }
      { s with waiting := s.waiting ++ [w] }.reply id seen .later

variable [Payload α]

/-- Look again for what a watch waits for, which is not in the list of those that wait. A deadline
stays as long as the same thing is lacking. -/
def resume (s : Session α) (w : Waiting) : Session α :=
  match s.object? w.watcher.object with
  | none => s.reply w.id w.seen .retire
  | some o =>
    let reading : Except ObjectError (Reading α) := Reading.pursue s.supply o.keys w.lack
    let same :=
      match reading with
      | .ok (.lacking lack) => decide (lack = w.lack)
      | _ => false
    if same then { s with waiting := s.waiting ++ [{ w with checked := s.supply.changes }] }
    else s.proceed w.watcher w.id w.seen w.token reading

/-! ### Delivering -/

def hand (s : Session α) (p : Pending Watcher) (f : Fragment) : Session α :=
  let seen := s.supply.changes
  match s.object? p.listener.object with
  | none => s.reply p.id seen .retire
  | some o =>
    let (outcome, watch) := o.watch.handleBatch p.listener.generation [f]
    let s := s.setWatch p.listener.object watch
    match outcome with
    | .stale => s.reply p.id seen .retire
    | .reissue interest => s.reply p.id seen (.reissue interest)
    | .confirmed target =>
      s.proceed p.listener p.id seen (target.version?.map Version.toComponent)
        (Reading.ofConfirmed s.supply o.keys target)

def deliver (s : Session α) (p : Pending Watcher) : Session α :=
  match s.network.answer? p with
  | none => { s with network := s.network.stall p.id s.supply.changes }
  | some f => s.hand p f

/-! ### Settling -/

/-- The first of those that wait for which the supply has changed, and the others. -/
def takeChanged (changes : Nat) : List Waiting → Option (Waiting × List Waiting)
  | [] => none
  | w :: ws =>
    if w.checked ≠ changes then some (w, ws)
    else (takeChanged changes ws).map fun (found, rest) => (found, w :: rest)

/-- One step of serving watches, if anything is left to do. -/
def step? (s : Session α) : Option (Session α) :=
  match takeChanged s.supply.changes s.waiting with
  | some (w, waiting) => some ({ s with waiting }.resume w)
  | none => s.network.next?.map s.deliver

def settleIn : (fuel : Nat) → Session α → Session α
  | 0, s => s
  | fuel + 1, s =>
    match s.step? with
    | some s => settleIn fuel s
    | none => s

/-- A number of steps after which nothing is left to do. Between two adoptions a watch excludes
another component of the served names with every step, and every adoption moves it forward among
the served versions. -/
def settleFuel (s : Session α) : Nat :=
  let bound := s.supply.size + 2
  2 * (s.network.pending.length + s.waiting.length) * bound * bound

def settle (s : Session α) : Session α := s.settleIn s.settleFuel

/-! ### Time -/

/-- Give up what a watch waits for, which is not in the list of those that wait. -/
def giveUp (s : Session α) (w : Waiting) : Session α :=
  (s.watchAgain w.watcher.object w.lack.fallback).conclude w.watcher w.id w.seen w.token (.ok ())

/-- Give up all waits of which the deadline has come, and settle. -/
def expire (s : Session α) : Session α :=
  let (due, waiting) := s.waiting.partition fun w => w.deadline ≤ s.now
  (due.foldl giveUp { s with waiting }).settle

/-- How many milliseconds pass before the first deadline can come, at most `limit`. -/
def calm (s : Session α) (limit : Nat) : Nat :=
  (s.waiting.map fun w => w.deadline - s.now - 1).foldl min limit

/-- Let time pass, until `stop` holds or the time is over, and say whether `stop` held. -/
def elapseUntil (stop : Session α → Bool) (s : Session α) (ms : Nat) : Bool × Session α :=
  if stop s then (true, s)
  else
    match ms with
    | 0 => (false, s)
    | ms + 1 =>
      let calm := s.calm ms
      elapseUntil stop { s with now := s.now + calm + 1 }.expire (ms - calm)
termination_by ms

def elapse (s : Session α) (ms : Nat) : Session α :=
  (s.settle.elapseUntil (fun _ => false) ms).2

end Session

end NamedContent
