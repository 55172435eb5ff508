import NamedContent.Network.Delivery

/-!
# Recorders

A recorder is a listener that only takes note of what it is handed. One that excludes sees every
component after the interest's name once; any other goes on with the interest as it is and is
served again after every change. After a number of answers a recorder retires.
-/

namespace NamedContent

/-- A listener that takes note of answers. -/
structure Recorder where
  excluding : Bool
  /-- After how many more answers it retires; it takes one at least. -/
  left : Nat

namespace Recorder

variable [Suite]

def next (r : Recorder) (f : Fragment) (i : Interest) : Interest :=
  match r.excluding, f.name.component? i.name.length with
  | true, some c => i.excluding c
  | _, _ => i

def react : Reaction Recorder := fun r f i =>
  (if r.left ≤ 1 then none else some (r.next f i), { r with left := r.left - 1 })

end Recorder

end NamedContent
