import NamedContent.Proofs.Interest.Versions
import NamedContent.Proofs.Object.ReadBack
import NamedContent.Proofs.Object.Watch

/-!
# Reading from a network of whole versions

On a network that hosts some bases every version of them is whole. Whatever is found there of such a
version is read completely or not at all, and what is read is what the network stores under the
version's name (`Hosts.told_of_target`).
-/

namespace NamedContent

/-! ### Whole versions -/

variable [Suite]

namespace Supply

/-- All versions of some bases, which carry no version themselves, are whole. -/
structure Hosts (bases : Name → Prop) (s : Supply) : Prop where
  sound : s.Sound
  plain : ∀ b, bases b → b.splitVersion? = none
  whole : ∀ b, bases b → ∀ v : Version, s.Whole (b.append v.toComponent)

/-- A version that was read is what the supply stores under its name. -/
structure Told {α : Type} [Payload α] (bases : Name → Prop) (s : Supply) (a : Adoption α) :
    Prop where
  base : bases a.base
  stored : ∃ key fs, s.Stores (a.base.append a.version.toComponent) key fs ∧ Tells fs a.payload

variable {bases : Name → Prop} {s : Supply} {keys : KeyRing} {b : Name} {v : Version}
  {c : Component} {i : Interest} {f : Fragment}

theorem Hosts.of_alike {s' : Supply} (h : s.Hosts bases) (ha : s.Alike s') (hs : s'.Sound) :
    s'.Hosts bases where
  sound := hs
  plain := h.plain
  whole b hb v := ha.whole (h.whole b hb v)

/-- How often a supply has changed plays no part. -/
theorem Hosts.of_changes (h : s.Hosts bases) (changes : Nat) : { s with changes }.Hosts bases :=
  h.of_alike (alike_of_content rfl rfl rfl rfl rfl) (h.sound.of_content rfl rfl rfl)

theorem Hosts.stores_of_find (h : s.Hosts bases) (hb : bases b)
    (hfind : s.find i = .ok (some f)) (hname : f.name = (b.append v.toComponent).append c) :
    ∃ key fs, s.Stores (b.append v.toComponent) key fs ∧ f ∈ fs := by
  obtain ⟨src, hsrc, hheld⟩ := holds?_of_find h.sound hfind
  rw [hname] at hheld
  exact (h.whole b hb v).stores_of_holds hsrc hheld

variable {α : Type} [Payload α] {r : Reading α}

theorem Stores.told {key : PublicKey} {fs : List Fragment} (hs : s.Sound) (hb : bases b)
    (h : s.Stores (b.append v.toComponent) key fs) (hf : f ∈ fs)
    (hr : Reading.ofFirst s keys f = .ok r) : ∃ a, r = .complete a ∧ s.Told bases a := by
  obtain ⟨a, rfl, hbase, hversion, htells⟩ := Reading.complete_of_ofFirst hs h hf hr
  refine ⟨a, rfl, ?_, key, fs, ?_, htells⟩
  · rw [hbase]
    exact hb
  · rw [hbase, hversion]
    exact h

/-- A found fragment of a hosted version is read as what is stored, if it is read. -/
theorem Hosts.told_of_ofFirst (h : s.Hosts bases) (hb : bases b)
    (hfind : s.find i = .ok (some f)) (hname : f.name = (b.append v.toComponent).append c)
    (hr : Reading.ofFirst s keys f = .ok r) : ∃ a, r = .complete a ∧ s.Told bases a := by
  obtain ⟨key, fs, hst, hf⟩ := h.stores_of_find hb hfind hname
  exact hst.told h.sound hb hf hr

/-- So is the version that a stored fragment tells of. -/
theorem Stores.told_of_target {key : PublicKey} {fs : List Fragment} (hs : s.Sound) (hb : bases b)
    (hst : s.Stores (b.append v.toComponent) key fs) (hf : f ∈ fs) {t : Confirmed}
    (ht : t = .firstSegment f ∨ t = .version (b.append v.toComponent) f.publisher)
    (hr : Reading.ofConfirmed s keys t = .ok r) : ∃ a, r = .complete a ∧ s.Told bases a := by
  rcases ht with rfl | rfl
  · exact hst.told hs hb hf hr
  · -- The first segment is there, since the version is whole.
    have hpos := hst.edition.length_pos
    have hget := hst.get_segment (p := some f.publisher) hs hpos (by
      rintro q hq
      rw [← Option.some.inj hq]
      exact hst.edition.publisher_eq f hf)
    have hget' : s.get (Lack.firstSegment (b.append v.toComponent) f.publisher).interest =
        .ok (some fs[0]) := by
      rw [← List.getElem?_eq_getElem hpos]
      exact hget
    rw [Reading.ofConfirmed, Reading.pursue, hget'] at hr
    exact hst.told hs hb (List.getElem_mem hpos) hr

theorem Hosts.told_of_target (h : s.Hosts bases) (hb : bases b)
    (hfind : s.find i = .ok (some f)) (hname : f.name = (b.append v.toComponent).append c)
    {t : Confirmed}
    (ht : t = .firstSegment f ∨ t = .version (b.append v.toComponent) f.publisher)
    (hr : Reading.ofConfirmed s keys t = .ok r) : ∃ a, r = .complete a ∧ s.Told bases a := by
  obtain ⟨key, fs, hst, hf⟩ := h.stores_of_find hb hfind hname
  exact hst.told_of_target h.sound hb hf ht hr

end Supply

end NamedContent
