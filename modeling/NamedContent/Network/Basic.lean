import NamedContent.Network.Supply

/-!
# Pending interests

An expressed interest stays pending until it is cancelled or its listener retires it. Whenever the
network has an answer it is handed to the listener, who replies with the interest to go on with. An
interest without an answer, or one that comes back unchanged, is stalled: it is looked at again
when the supply has changed. A listener that has not replied yet keeps its interest busy.

The network is a table of pending interests over a supply. `next?` names the interest to look at
next, and `resolve` enters a listener's reply.
-/

namespace NamedContent

/-- The number of an expressed interest; numbers are never given out twice. -/
structure InterestId where
  number : Nat
  deriving DecidableEq, Repr

namespace InterestId

def toText (id : InterestId) : String := "#" ++ toString id.number

instance : ToString InterestId := ⟨toText⟩

def describe (id : InterestId) : String := "InterestId(" ++ toString id.number ++ ")"

end InterestId

/-- What a pending interest waits for. -/
inductive Standing where
  | ready
  /-- It can be looked at when the supply has changed more than `seen` times. -/
  | stalled (seen : Nat)
  /-- Its listener is at work. -/
  | busy
  deriving DecidableEq, Repr

/-- An interest that waits for content, with the listener to tell. -/
structure Pending (ℓ : Type) where
  id : InterestId
  interest : Interest
  listener : ℓ
  standing : Standing := .ready

inductive Reply where
  | reissue (interest : Interest)
  | retire
  | later
  deriving DecidableEq

/-- A supply and the interests that wait for content; `ℓ` describes their listeners. -/
structure Network (ℓ : Type) where
  supply : Supply := {}
  pending : List (Pending ℓ) := []
  /-- How many interests have been expressed. -/
  expressed : Nat := 0

namespace Network

variable {ℓ : Type}

/-! ### Expressing and cancelling -/

def pending? (n : Network ℓ) (id : InterestId) : Option (Pending ℓ) :=
  n.pending.find? fun p => p.id == id

def express (n : Network ℓ) (interest : Interest) (listener : ℓ) : InterestId × Network ℓ :=
  let id : InterestId := ⟨n.expressed + 1⟩
  (id, { n with pending := n.pending ++ [{ id, interest, listener }], expressed := id.number })

/-- Enter an interest, if something is running that could deliver its answers. -/
def expressWhen (running : Bool) (n : Network ℓ) (interest : Interest) (listener : ℓ) :
    Except NetworkError (InterestId × Network ℓ) :=
  if running then .ok (n.express interest listener) else .error .notRunning

def remove (n : Network ℓ) (id : InterestId) : Network ℓ :=
  { n with pending := n.pending.filter fun p => p.id != id }

/-- Cancel an interest, and say whether it was pending. Cancelling a pending interest counts as a
change of the supply. -/
def cancel (n : Network ℓ) (id : InterestId) : Bool × Network ℓ :=
  if (n.pending? id).isSome then (true, { n.remove id with supply := n.supply.announce })
  else (false, n)

/-! ### Delivering -/

def isReady (n : Network ℓ) (p : Pending ℓ) : Bool :=
  match p.standing with
  | .ready => true
  | .stalled seen => seen != n.supply.changes
  | .busy => false

def next? (n : Network ℓ) : Option (Pending ℓ) := n.pending.find? n.isReady

def modify (n : Network ℓ) (id : InterestId) (change : Pending ℓ → Pending ℓ) : Network ℓ :=
  { n with pending := n.pending.map fun p => if p.id = id then change p else p }

def stall (n : Network ℓ) (id : InterestId) (seen : Nat) : Network ℓ :=
  n.modify id fun p => { p with standing := .stalled seen }

/-- Enter the reply to an answer that was found when the supply had changed `seen` times. A reply
for an interest that is no longer pending is ignored. -/
def resolve (n : Network ℓ) (id : InterestId) (seen : Nat) : Reply → Network ℓ
  | .reissue interest => n.modify id fun p =>
      { p with interest, standing := if interest = p.interest then .stalled seen else .ready }
  | .retire => n.remove id
  | .later => n.modify id fun p => { p with standing := .busy }

variable [Suite]

/-- The answer to a pending interest. A store that fails answers nothing. -/
def answer? (n : Network ℓ) (p : Pending ℓ) : Option Fragment :=
  match n.supply.find p.interest with
  | .ok found => found
  | .error _ => none

end Network

end NamedContent
