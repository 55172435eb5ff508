import NamedContent.Network.Basic

/-!
# Serving listeners that reply at once

`serve` hands answers to listeners until every pending interest is stalled. A listener reacts to an
answer with the interest to go on with, or none to retire, and with what becomes of itself. The
result lists what was delivered to whom, in order.
-/

namespace NamedContent

/-- How a listener reacts to an answer to its interest. -/
abbrev Reaction (ℓ : Type) := ℓ → Fragment → Interest → Option Interest × ℓ

structure Delivery where
  id : InterestId
  fragment : Fragment

namespace Network

variable {ℓ : Type} [Suite]

def serveOne (react : Reaction ℓ) (n : Network ℓ) (p : Pending ℓ) : Option Delivery × Network ℓ :=
  let seen := n.supply.changes
  match n.answer? p with
  | none => (none, n.stall p.id seen)
  | some f =>
    let (next, listener) := react p.listener f p.interest
    let reply :=
      match next with
      | some interest => .reissue interest
      | none => .retire
    (some ⟨p.id, f⟩, (n.modify p.id fun p => { p with listener }).resolve p.id seen reply)

def serveIn (react : Reaction ℓ) : (fuel : Nat) → Network ℓ → List Delivery × Network ℓ
  | 0, n => ([], n)
  | fuel + 1, n =>
    match n.next? with
    | none => ([], n)
    | some p =>
      let (delivered, n) := n.serveOne react p
      let (later, n) := serveIn react fuel n
      (delivered.toList ++ later, n)

/-- Serve pending interests until all are stalled. Listeners that only ever exclude more are served
at most once for each fragment of the supply, and once more without an answer. -/
def serve (react : Reaction ℓ) (n : Network ℓ) : List Delivery × Network ℓ :=
  n.serveIn react (n.pending.length * (n.supply.size + 2))

end Network

end NamedContent
