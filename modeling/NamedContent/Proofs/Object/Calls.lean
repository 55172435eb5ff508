import NamedContent.Proofs.Interest.Versions
import NamedContent.Proofs.Object.Watch

/-!
# Calls to a watch

A watch starts idle and then gets calls, in any order and with any arguments (`Call`). Whatever the
calls were, an armed query is the query for the versions after its known name, perhaps with more
components excluded (`Reachable.seeks`): the two are set together, and only exclusions are added.
-/

namespace NamedContent
namespace Watch

inductive Call where
  | arm (known : Name) (continuous : Bool)
  | registered (generation : Nat) (id : InterestId)
  | cancel
  | confirmed (generation : Nat) (known : Name)
  | reject (generation : Nat) (token : Component)
  | retry (generation : Nat)
  | batch (generation : Nat) (fs : List Fragment)

variable [Suite] {w : Watch} {q : ActiveQuery}

/-- The watch after a call. -/
def after (w : Watch) : Call → Watch
  | .arm known continuous => (w.arm known continuous).2.2
  | .registered g id => (w.registered g id).2
  | .cancel => w.cancel.2
  | .confirmed g known => (w.confirmed g known).2
  | .reject g token => (w.reject g token).2
  | .retry _ => w
  | .batch g fs => (w.handleBatch g fs).2

def Reachable (w : Watch) : Prop := ∃ calls : List Call, w = calls.foldl after idle

/-! ### What an armed query asks for -/

omit [Suite] in
/-- An armed query asks for the versions after its known name. -/
def Seeking (w : Watch) : Prop := ∀ q, w.active = some q → q.interest.Seeks q.known

omit [Suite] in
theorem seeking_of_active (h : w.active = some q) (hq : q.interest.Seeks q.known) :
    w.Seeking := by
  intro q' hq'
  rw [h] at hq'
  rw [← Option.some.inj hq']
  exact hq

omit [Suite] in
theorem seeking_of_idle (h : w.active = none) : w.Seeking := by
  intro q hq
  rw [h] at hq
  cases hq

theorem Seeking.handleBatch (h : w.Seeking) (g : Nat) (fs : List Fragment) :
    (w.handleBatch g fs).2.Seeking := by
  cases hq : w.query? g with
  | none =>
    rw [handleBatch_of_stale hq]
    exact h
  | some q =>
    obtain ⟨hactive, rfl⟩ := query?_eq_some_iff.mp hq
    have hsifted : (q.sifted fs).interest.Seeks q.known := (h q hactive).excludingAll _
    obtain ⟨exclusions, hbatch⟩ := snd_handleBatch hactive fs
    rw [hbatch]
    exact seeking_of_active rfl hsifted

theorem Seeking.after (h : w.Seeking) (c : Call) : (w.after c).Seeking := by
  cases c with
  | arm known continuous => exact seeking_of_active rfl (Interest.seeks_nextVersion known)
  | registered g id =>
    show (w.registered g id).2.Seeking
    unfold registered
    split
    · next q hq => exact seeking_of_active rfl (h q (query?_eq_some_iff.mp hq).1)
    · exact h
  | cancel => exact seeking_of_idle rfl
  | confirmed g known =>
    show (w.confirmed g known).2.Seeking
    unfold Watch.confirmed
    split
    · exact h
    · split
      · exact seeking_of_active rfl (Interest.seeks_nextVersion known)
      · exact seeking_of_idle rfl
  | reject g token =>
    show (w.reject g token).2.Seeking
    unfold reject
    split
    · exact h
    · next q hq =>
      exact seeking_of_active rfl ((h q (query?_eq_some_iff.mp hq).1).excluding token)
  | retry g => exact h
  | batch g fs => exact h.handleBatch g fs

theorem Reachable.seeking (h : w.Reachable) : w.Seeking := by
  obtain ⟨calls, rfl⟩ := h
  have hrun : ∀ v : Watch, v.Seeking → (calls.foldl Watch.after v).Seeking := by
    induction calls with
    | nil => exact fun v hv => hv
    | cons c calls ih => exact fun v hv => ih _ (hv.after c)
  exact hrun idle (seeking_of_idle rfl)

theorem Reachable.seeks (h : w.Reachable) (hq : w.active = some q) : q.interest.Seeks q.known :=
  h.seeking q hq

end Watch
end NamedContent
