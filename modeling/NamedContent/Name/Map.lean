import NamedContent.Name.Basic

/-!
# Maps keyed by names

A finite map from names to values, kept as a list of entries in strictly ascending order of their
names. The first value given to a name stays. Because every extension of a name sorts after it and
next to its other extensions, the entries under a name are found by one scan: skip the smaller
names, then take entries as long as the name is a prefix of theirs.
-/

namespace NamedContent

/-- Entries in strictly ascending order of their names. -/
def Ascending {α : Type} (entries : List (Name × α)) : Prop :=
  entries.Pairwise fun a b => compare a.1 b.1 = .lt

structure NameMap (α : Type) where
  entries : List (Name × α)
  ascending : Ascending entries

namespace NameMap

variable {α : Type}

def empty : NameMap α := ⟨[], .nil⟩

instance : Inhabited (NameMap α) := ⟨empty⟩

def size (m : NameMap α) : Nat := m.entries.length

def names (m : NameMap α) : List Name := m.entries.map Prod.fst

def values (m : NameMap α) : List α := m.entries.map Prod.snd

def get? (m : NameMap α) (n : Name) : Option α :=
  (m.entries.find? fun e => e.1 == n).map Prod.snd

def contains (m : NameMap α) (n : Name) : Bool := (m.get? n).isSome

/-! ### Insertion -/

/-- Insert an entry into an ascending list, unless its name is there already. -/
def insertEntry (n : Name) (v : α) : List (Name × α) → List (Name × α)
  | [] => [(n, v)]
  | e :: es =>
    match compare n e.1 with
    | .lt => (n, v) :: e :: es
    | .eq => e :: es
    | .gt => e :: insertEntry n v es

theorem mem_insertEntry {n : Name} {v : α} {es : List (Name × α)} {x : Name × α}
    (h : x ∈ insertEntry n v es) : x = (n, v) ∨ x ∈ es := by
  induction es with
  | nil => exact .inl (List.mem_singleton.mp h)
  | cons e es ih =>
    rw [insertEntry] at h
    split at h
    · rcases List.mem_cons.mp h with h | h
      · exact .inl h
      · exact .inr h
    · exact .inr h
    · rcases List.mem_cons.mp h with h | h
      · exact .inr (h ▸ List.mem_cons_self)
      · exact (ih h).imp_right (List.mem_cons_of_mem _)

theorem ascending_insertEntry {n : Name} {v : α} {es : List (Name × α)} (h : Ascending es) :
    Ascending (insertEntry n v es) := by
  induction es with
  | nil => exact List.pairwise_singleton _ _
  | cons e es ih =>
    have he := List.pairwise_cons.mp h
    rw [insertEntry]
    split
    · next hlt =>
      refine List.pairwise_cons.mpr ⟨fun x hx => ?_, h⟩
      rcases List.mem_cons.mp hx with rfl | hx
      · exact hlt
      · exact Std.TransCmp.lt_trans hlt (he.1 x hx)
    · exact h
    · next hgt =>
      refine List.pairwise_cons.mpr ⟨fun x hx => ?_, ih he.2⟩
      rcases mem_insertEntry hx with rfl | hx
      · exact Std.OrientedCmp.lt_of_gt hgt
      · exact he.1 x hx

/-- Give a name a value, unless it has one. -/
def insertNew (m : NameMap α) (n : Name) (v : α) : NameMap α :=
  ⟨insertEntry n v m.entries, ascending_insertEntry m.ascending⟩

/-! ### Prefix scans -/

/-- The entries whose names extend `p`, in ascending order. -/
def scan (m : NameMap α) (p : Name) : List (Name × α) :=
  (m.entries.dropWhile fun e => compare e.1 p == .lt).takeWhile fun e => p.isPrefixOf e.1

def under (m : NameMap α) (p : Name) : List α := (m.scan p).map Prod.snd

end NameMap

/-! ### Sets of names -/

abbrev NameSet := NameMap Unit

def NameSet.add (s : NameSet) (n : Name) : NameSet := s.insertNew n ()

/-- Whether some name of the set is a prefix of `n`. -/
def NameSet.covers (s : NameSet) (n : Name) : Bool := s.names.any (·.isPrefixOf n)

end NamedContent
