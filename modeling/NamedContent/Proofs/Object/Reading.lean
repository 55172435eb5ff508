import NamedContent.Object.Reading
import NamedContent.Proofs.Name.Profile
import NamedContent.Proofs.Network.Lookup

/-!
# What a complete reading is made of

A version that was read completely belongs to the fragment that the reading started from: its base,
version, publisher and locator are those of that fragment, and its value is decoded from the
collected segments. Reading on stays with the publisher (`publisher_of_pursue`) and below the base
name (`below_of_pursue`) of the version that it started with, and with that version
(`isOf_of_pursue`). What is lacking stays so while nothing more is served (`pursue_again`).
-/

namespace NamedContent

namespace Collection

variable [Suite]

theorem first_of_readNext {s : Supply} {keys : KeyRing} {count : Nat} {c d : Collection}
    (h : readNext s keys count c = .ok d) : d.first = c.first := by
  induction count generalizing c with
  | zero => cases h; rfl
  | succ count ih =>
    rcases readNext_cases h with ⟨rfl, _⟩ | ⟨f, _, _, hrest⟩
    · rfl
    · have hfirst := ih hrest
      exact hfirst

/-- Reading stops with all that was asked for, or before a segment that is not there. -/
theorem get_of_readNext {s : Supply} {keys : KeyRing} {count : Nat} {c d : Collection}
    (h : readNext s keys count c = .ok d) :
    d.final = c.final ∧ (d.rest.length = c.rest.length + count ∨ s.get d.interest = .ok none) := by
  induction count generalizing c with
  | zero =>
    cases h
    exact ⟨rfl, .inl rfl⟩
  | succ count ih =>
    rcases readNext_cases h with ⟨rfl, hnone⟩ | ⟨f, _, _, hrest⟩
    · exact ⟨rfl, .inr hnone⟩
    · obtain ⟨hfinal, hstop⟩ := ih hrest
      refine ⟨hfinal, hstop.imp_left fun hlen => ?_⟩
      rw [hlen, add, List.length_append, List.length_singleton, Nat.add_assoc, Nat.add_comm 1]

/-- Collecting again from where it got stuck gets no further. -/
theorem collect_again {s : Supply} {keys : KeyRing} {c d : Collection}
    (h : c.collect s keys = .ok d) (hd : d.missing ≠ 0) : d.collect s keys = .ok d := by
  obtain ⟨hfinal, hstop⟩ := get_of_readNext h
  have hnone : s.get d.interest = .ok none := by
    refine hstop.resolve_left fun hlen => ?_
    unfold missing at hlen hd
    omega
  obtain ⟨count, hcount⟩ := Nat.exists_eq_succ_of_ne_zero hd
  rw [collect, hcount, readNext, hnone]
  rfl

theorem first_of_start {s : Supply} {keys : KeyRing} {f : Fragment} {c : Collection}
    (h : start s keys f = .ok c) : c.first = f := by
  obtain ⟨_, _, ⟨_, rfl⟩ | ⟨_, _, _, rfl⟩⟩ := start_cases h
  · rfl
  · rfl

end Collection

namespace Reading

variable {α : Type} [Payload α]

/-- What a complete collection decodes to. -/
theorem decode_eq_ok {c : Collection} {a : Adoption α} (h : decode c = .ok a) :
    c.first.name.splitVersion? = some (a.base, a.version) ∧ a.publisher = c.first.publisher ∧
      a.locator = c.first.info.locator ∧
      a.payload = (if c.first.isGone then none else Payload.decode c.payload) ∧
      a.payload.isNone = c.first.isGone := by
  unfold decode at h
  simp only [bind, Except.bind, pure, Except.pure, throw, throwThe, MonadExceptOf.throw] at h
  cases hs : c.first.name.splitVersion? with
  | none => simp [hs] at h
  | some split =>
    cases hg : c.first.isGone with
    | true =>
      simp only [hs, hg, ↓reduceIte] at h
      cases h
      exact ⟨rfl, rfl, rfl, rfl, rfl⟩
    | false =>
      cases hp : (Payload.decode c.payload : Option α) with
      | none => simp [hs, hg, hp] at h
      | some x =>
        simp only [hs, hg, hp, Bool.false_eq_true, ↓reduceIte] at h
        cases h
        exact ⟨rfl, rfl, rfl, rfl, rfl⟩

variable [Suite]

theorem goOn_eq_complete {s : Supply} {keys : KeyRing} {c : Collection} {a : Adoption α}
    (h : goOn s keys c = .ok (.complete a)) :
    ∃ d, c.collect s keys = .ok d ∧ d.first = c.first ∧ d.missing = 0 ∧ decode d = .ok a := by
  obtain ⟨d, hcollect, h⟩ := ok_of_bind h
  have hcollected := ok_of_mapError hcollect
  split at h
  · next hm =>
    obtain ⟨b, hdecode, h⟩ := ok_of_bind h
    cases h
    exact ⟨d, hcollected, Collection.first_of_readNext hcollected, hm, hdecode⟩
  · cases h

theorem goOn_eq_lacking {s : Supply} {keys : KeyRing} {c : Collection} {l : Lack}
    (h : (goOn s keys c : Except ObjectError (Reading α)) = .ok (.lacking l)) :
    ∃ d, c.collect s keys = .ok d ∧ d.first = c.first ∧ d.missing ≠ 0 ∧ l = .segment d := by
  obtain ⟨d, hcollect, h⟩ := ok_of_bind h
  have hcollected := ok_of_mapError hcollect
  split at h
  · obtain ⟨b, _, h⟩ := ok_of_bind h
    cases h
  · next hm =>
    cases h
    exact ⟨d, hcollected, Collection.first_of_readNext hcollected, hm, rfl⟩

theorem ofFirst_eq_ok {s : Supply} {keys : KeyRing} {f : Fragment} {r : Reading α}
    (h : ofFirst s keys f = .ok r) :
    ∃ c, Collection.start s keys f = .ok c ∧ goOn s keys c = .ok r := by
  unfold ofFirst at h
  split at h
  · obtain ⟨c, hstart, h⟩ := ok_of_bind h
    exact ⟨c, ok_of_mapError hstart, h⟩
  · cases h

/-- A first segment that is pursued is still lacking, or it is found and read from. -/
theorem pursue_firstSegment_eq_ok {s : Supply} {keys : KeyRing} {versioned : Name}
    {p : Publisher} {r : Reading α} (h : pursue s keys (.firstSegment versioned p) = .ok r) :
    r = .lacking (.firstSegment versioned p) ∨
      ∃ f, s.get (Lack.firstSegment versioned p).interest = .ok (some f) ∧
        ofFirst s keys f = .ok r := by
  obtain ⟨found, hget, h⟩ := ok_of_bind h
  cases found with
  | none =>
    cases h
    exact .inl rfl
  | some f => exact .inr ⟨f, ok_of_mapError hget, h⟩

/-! ### Reading again -/

variable {s : Supply} {keys : KeyRing} {l : Lack}

/-- What is still lacking when reading on gets stuck is lacking if it is pursued again. -/
theorem goOn_again {c : Collection}
    (h : (goOn s keys c : Except ObjectError (Reading α)) = .ok (.lacking l)) :
    (pursue s keys l : Except ObjectError (Reading α)) = .ok (.lacking l) := by
  obtain ⟨d, hcollect, -, hmissing, rfl⟩ := goOn_eq_lacking h
  show goOn s keys d = _
  rw [goOn, Collection.collect_again hcollect hmissing]
  simp [bind, Except.bind, Except.mapError, hmissing, pure, Except.pure]

theorem ofFirst_again {f : Fragment}
    (h : (ofFirst s keys f : Except ObjectError (Reading α)) = .ok (.lacking l)) :
    (pursue s keys l : Except ObjectError (Reading α)) = .ok (.lacking l) := by
  obtain ⟨c, _, hgoOn⟩ := ofFirst_eq_ok h
  exact goOn_again hgoOn

theorem pursue_again {l₀ : Lack}
    (h : (pursue s keys l₀ : Except ObjectError (Reading α)) = .ok (.lacking l)) :
    (pursue s keys l : Except ObjectError (Reading α)) = .ok (.lacking l) := by
  cases l₀ with
  | segment c => exact goOn_again h
  | firstSegment versioned p =>
    rcases pursue_firstSegment_eq_ok h with heq | ⟨f, _, hread⟩
    · cases heq
      exact h
    · exact ofFirst_again hread

theorem ofConfirmed_again {t : Confirmed}
    (h : (ofConfirmed s keys t : Except ObjectError (Reading α)) = .ok (.lacking l)) :
    (pursue s keys l : Except ObjectError (Reading α)) = .ok (.lacking l) := by
  cases t with
  | firstSegment f => exact ofFirst_again h
  | version versioned p =>
    have hpursue : pursue s keys (.firstSegment versioned p) =
        (.ok (.lacking l) : Except ObjectError (Reading α)) := h
    exact pursue_again hpursue

end Reading

/-! ### Whose version is read -/

/-- The publisher of the version of which something is lacking. -/
def Lack.publisher : Lack → Publisher
  | .firstSegment _ publisher => publisher
  | .segment c => c.first.publisher

/-- The publisher of the version that is read. -/
def Reading.publisher {α : Type} : Reading α → Publisher
  | .complete version => version.publisher
  | .lacking lack => lack.publisher

/-- The publisher of the version that was confirmed. -/
def Confirmed.publisher : Confirmed → Publisher
  | .firstSegment f => f.publisher
  | .version _ publisher => publisher

namespace Reading

variable {α : Type} [Payload α] [Suite]

theorem publisher_of_goOn {s : Supply} {keys : KeyRing} {c : Collection} {r : Reading α}
    (h : goOn s keys c = .ok r) : r.publisher = c.first.publisher := by
  cases r with
  | complete a =>
    obtain ⟨d, _, hf, _, hd⟩ := goOn_eq_complete h
    rw [publisher, (decode_eq_ok hd).2.1, hf]
  | lacking l =>
    obtain ⟨d, _, hf, _, rfl⟩ := goOn_eq_lacking h
    rw [publisher, Lack.publisher, hf]

/-- A reading is of a version of the fragment's publisher that it started from. -/
theorem publisher_of_ofFirst {s : Supply} {keys : KeyRing} {f : Fragment} {r : Reading α}
    (h : ofFirst s keys f = .ok r) : r.publisher = f.publisher := by
  obtain ⟨c, hstart, hgoOn⟩ := ofFirst_eq_ok h
  rw [publisher_of_goOn hgoOn, Collection.first_of_start hstart]

/-- What was lacking of a publisher's version is pursued from the same publisher. -/
theorem publisher_of_pursue {s : Supply} {keys : KeyRing} {l : Lack} {r : Reading α}
    (h : pursue s keys l = .ok r) : r.publisher = l.publisher := by
  cases l with
  | segment c => exact publisher_of_goOn h
  | firstSegment versioned p =>
    rcases pursue_firstSegment_eq_ok h with rfl | ⟨f, hfound, hread⟩
    · rfl
    · have hp : f.publisher = p := Interest.publisher_of_accepts (Supply.accepts_of_get hfound) rfl
      rw [publisher_of_ofFirst hread, hp]
      rfl

theorem publisher_of_ofConfirmed {s : Supply} {keys : KeyRing} {c : Confirmed} {r : Reading α}
    (h : ofConfirmed s keys c = .ok r) : r.publisher = c.publisher := by
  cases c with
  | firstSegment f => exact publisher_of_ofFirst h
  | version versioned p => exact publisher_of_pursue (l := .firstSegment versioned p) h

end Reading

/-! ### Below which name a version is -/

/-- What is lacking is of a version right below a name. -/
def Lack.Below (b : Name) : Lack → Prop
  | .firstSegment versioned _ => ∃ v : Version, versioned = b.append v.toComponent
  | .segment c => c.first.name.base = b

/-- The version that is read is right below a name. -/
def Reading.Below {α : Type} (b : Name) : Reading α → Prop
  | .complete version => version.base = b
  | .lacking lack => lack.Below b

/-- The version that was confirmed is right below a name. -/
def Confirmed.Below (b : Name) : Confirmed → Prop
  | .firstSegment f => f.name.base = b
  | .version versioned _ => ∃ v : Version, versioned = b.append v.toComponent

namespace Reading

variable {α : Type} [Payload α] [Suite] {s : Supply} {keys : KeyRing} {b : Name} {r : Reading α}

theorem below_of_goOn {c : Collection} (h : goOn s keys c = .ok r) :
    r.Below c.first.name.base := by
  cases r with
  | complete a =>
    obtain ⟨d, _, hf, _, hd⟩ := goOn_eq_complete h
    have hsplit := (decode_eq_ok hd).1
    rw [hf] at hsplit
    exact (Name.base_of_splitVersion? hsplit).symm
  | lacking l =>
    obtain ⟨d, _, hf, _, rfl⟩ := goOn_eq_lacking h
    exact congrArg (·.name.base) hf

theorem below_of_ofFirst {f : Fragment} (h : ofFirst s keys f = .ok r) : r.Below f.name.base := by
  obtain ⟨c, hstart, hgoOn⟩ := ofFirst_eq_ok h
  rw [← Collection.first_of_start hstart]
  exact below_of_goOn hgoOn

/-- What was lacking of a version is pursued below the same name. -/
theorem below_of_pursue {l : Lack} (hl : l.Below b) (h : pursue s keys l = .ok r) : r.Below b := by
  cases l with
  | segment c =>
    rw [← show c.first.name.base = b from hl]
    exact below_of_goOn h
  | firstSegment versioned p =>
    obtain ⟨v, rfl⟩ := hl
    rcases pursue_firstSegment_eq_ok h with rfl | ⟨f, hfound, hread⟩
    · exact ⟨v, rfl⟩
    · have hname : f.name = (b.append v.toComponent).firstSegmentName :=
        (Interest.accepts_exact_iff.mp (Supply.accepts_of_get hfound)).1
      have hbase : f.name.base = b := by
        rw [hname]
        exact Name.base_segmentName b v Segment.first
      rw [← hbase]
      exact below_of_ofFirst hread

theorem below_of_ofConfirmed {c : Confirmed} (hc : c.Below b) (h : ofConfirmed s keys c = .ok r) :
    r.Below b := by
  cases c with
  | firstSegment f =>
    rw [← show f.name.base = b from hc]
    exact below_of_ofFirst h
  | version versioned p => exact below_of_pursue (l := .firstSegment versioned p) hc h

end Reading

/-! ### Of which version -/

/-- What is lacking is of a version of a base name. -/
def Lack.IsOf (b : Name) (v : Version) : Lack → Prop
  | .firstSegment versioned _ => versioned = b.append v.toComponent
  | .segment c => c.first.name.splitVersion? = some (b, v)

/-- What was read is of a version of a base name. -/
def Reading.IsOf {α : Type} (b : Name) (v : Version) : Reading α → Prop
  | .complete a => a.base = b ∧ a.version = v
  | .lacking lack => lack.IsOf b v

/-- What was confirmed is of a version of a base name. -/
def Confirmed.IsOf (b : Name) (v : Version) : Confirmed → Prop
  | .firstSegment f => f.name.splitVersion? = some (b, v)
  | .version versioned _ => versioned = b.append v.toComponent

namespace Reading

variable {α : Type} [Payload α] [Suite] {s : Supply} {keys : KeyRing} {b : Name} {v : Version}
  {r : Reading α}

theorem isOf_of_goOn {c : Collection} (h : goOn s keys c = .ok r) (hr : r.IsOf b v) :
    c.first.name.splitVersion? = some (b, v) := by
  cases r with
  | complete a =>
    obtain ⟨d, -, hf, -, hd⟩ := goOn_eq_complete h
    obtain ⟨rfl, rfl⟩ := hr
    rw [← hf]
    exact (decode_eq_ok hd).1
  | lacking l =>
    obtain ⟨d, -, hf, -, rfl⟩ := goOn_eq_lacking h
    rw [← hf]
    exact hr

theorem isOf_of_ofFirst {f : Fragment} (h : ofFirst s keys f = .ok r) (hr : r.IsOf b v) :
    f.name.splitVersion? = some (b, v) := by
  obtain ⟨c, hstart, hgoOn⟩ := ofFirst_eq_ok h
  rw [← Collection.first_of_start hstart]
  exact isOf_of_goOn hgoOn hr

/-- Whatever was lacking of a version, only that version is read on. -/
theorem isOf_of_pursue {l : Lack} (h : pursue s keys l = .ok r) (hr : r.IsOf b v) : l.IsOf b v := by
  cases l with
  | segment c => exact isOf_of_goOn h hr
  | firstSegment versioned p =>
    rcases pursue_firstSegment_eq_ok h with rfl | ⟨f, hfound, hread⟩
    · exact hr
    · have hname : f.name = versioned.firstSegmentName :=
        (Interest.accepts_exact_iff.mp (Supply.accepts_of_get hfound)).1
      have hsplit := isOf_of_ofFirst hread hr
      rw [hname] at hsplit
      exact Name.eq_append_of_splitVersion?_segmentName hsplit

theorem isOf_of_ofConfirmed {c : Confirmed} (h : ofConfirmed s keys c = .ok r) (hr : r.IsOf b v) :
    c.IsOf b v := by
  cases c with
  | firstSegment f => exact isOf_of_ofFirst h hr
  | version versioned p => exact isOf_of_pursue (l := .firstSegment versioned p) h hr

theorem hasVersion_of_ofFirst {f : Fragment} (h : ofFirst s keys f = .ok r) :
    f.name.hasVersion = true := by
  cases hversion : f.name.hasVersion with
  | true => rfl
  | false =>
    unfold ofFirst at h
    rw [hversion] at h
    cases h

/-- Reading on, the name to go on from without what is lacking stays the same but for a version at
its end. -/
theorem fallback_of_pursue {l l' : Lack}
    (h : (pursue s keys l : Except ObjectError (Reading α)) = .ok (.lacking l')) :
    l'.fallback.base = l.fallback.base ∨ l'.fallback.base = l.fallback.base.base := by
  cases l with
  | segment c =>
    obtain ⟨d, -, hf, -, rfl⟩ := goOn_eq_lacking h
    left
    show d.first.name.base.base = c.first.name.base.base
    rw [hf]
  | firstSegment versioned p =>
    rcases pursue_firstSegment_eq_ok h with heq | ⟨f, hfound, hread⟩
    · cases heq
      exact .inl rfl
    · obtain ⟨c, hstart, hgoOn⟩ := ofFirst_eq_ok hread
      obtain ⟨d, -, hf, -, rfl⟩ := goOn_eq_lacking hgoOn
      obtain ⟨⟨b, v⟩, hsplit⟩ := Option.isSome_iff_exists.mp (hasVersion_of_ofFirst hread)
      have hname : f.name = versioned.firstSegmentName :=
        (Interest.accepts_exact_iff.mp (Supply.accepts_of_get hfound)).1
      have hversioned : versioned = b.append v.toComponent :=
        Name.eq_append_of_splitVersion?_segmentName (hname ▸ hsplit)
      right
      show d.first.name.base.base = versioned.base.base
      rw [hf, Collection.first_of_start hstart, Name.base_of_splitVersion? hsplit, hversioned,
        Name.base_append]

end Reading

/-- What is lacking of a version right below a name leaves the name, perhaps without a version. -/
theorem Lack.Below.fallback {b : Name} {l : Lack} (h : l.Below b) :
    l.fallback.base = b ∨ l.fallback.base = b.base := by
  cases l with
  | firstSegment versioned p =>
    obtain ⟨v, rfl⟩ := h
    exact .inl (Name.base_append b v)
  | segment c =>
    right
    show c.first.name.base.base = b.base
    rw [show c.first.name.base = b from h]

/-! ### Changes of the supply -/

section

variable {α : Type} [Payload α] [Suite]

theorem Collection.readNext_of_changes (s : Supply) (changes : Nat) (keys : KeyRing) (count : Nat)
    (c : Collection) : readNext { s with changes } keys count c = readNext s keys count c := by
  induction count generalizing c with
  | zero => rfl
  | succ count ih =>
    unfold readNext
    simp only [ih]
    rfl

namespace Reading

theorem goOn_of_changes (s : Supply) (changes : Nat) (keys : KeyRing) (c : Collection) :
    (goOn { s with changes } keys c : Except ObjectError (Reading α)) = goOn s keys c := by
  unfold goOn Collection.collect
  rw [Collection.readNext_of_changes]

theorem ofFirst_of_changes (s : Supply) (changes : Nat) (keys : KeyRing) (f : Fragment) :
    (ofFirst { s with changes } keys f : Except ObjectError (Reading α)) = ofFirst s keys f := by
  unfold ofFirst
  simp only [goOn_of_changes]
  rfl

theorem pursue_of_changes (s : Supply) (changes : Nat) (keys : KeyRing) (l : Lack) :
    (pursue { s with changes } keys l : Except ObjectError (Reading α)) = pursue s keys l := by
  unfold pursue
  simp only [goOn_of_changes, ofFirst_of_changes]
  rfl

end Reading
end
end NamedContent
