import NamedContent.Proofs.Network.Latest
import NamedContent.Proofs.Object.Agreement

/-!
# What was saved is read

A participant with a key of its own opens an object with a value and saves it, while everything that
is served below the base is of earlier versions. The save signs an edition of the value, whatever
its length and the size of segments, and writes it to the network or to the participant's store; it
succeeds, and the edition leads (`Saver.saveWith`). Whoever opens the base then reads that edition,
since it carries the key that verifies it (`yields_of_leads`). The same holds for a tombstone, saved
in place of the value or after it. `yields_of_save` is all of this together.
-/

namespace NamedContent

section

variable [Suite]

/-! ### Who signs -/

/-- By default the participant signs with this keypair, as its publisher. -/
structure KeyRing.SignsWith (r : KeyRing) (k : Keypair) : Prop where
  keypair_eq : r.keypair? r.default = some k
  default_eq : r.default = k.publisher

theorem KeyRing.signsWith_ofKeypair (k : Keypair) : (KeyRing.ofKeypair k).SignsWith k where
  keypair_eq := KeyRing.keypair?_ofKeypair k
  default_eq := rfl

/-- The lengths in versioned names of a base fit into the encodings. -/
structure Name.Versionable (b : Name) : Prop where
  short : b.Short
  count_lt : b.components.length + 2 < 2 ^ 64

omit [Suite] in
theorem Name.Versionable.short_append {b : Name} (h : b.Versionable) (v : Version) :
    (b.append v.toComponent).Short := h.short.append (Component.short_ofMarked _ _)

/-! ### What is signed -/

/-- The fragments carry the key that verifies them. -/
def Embeds (key : PublicKey) (fs : List Fragment) : Prop := ∀ f ∈ fs, f.info.locator = .key key

/-- An edition that a participant signs, which says what is to be saved. -/
structure Signs (n : Name) (k : Keypair) (value : Option Octets) (fs : List Fragment) : Prop where
  edition : Edition n k.publicKey fs
  payload_eq : payloadOf fs = value
  embeds : Embeds k.publicKey fs
  storable : ∀ f ∈ fs, f.Storable

variable {k : Keypair} {b : Name}

/-- A stream that is signed by default is an edition of its payload. -/
theorem signs_drafts (hverify : Suite.VerifiesSigned) (hb : b.Versionable) (v : Version)
    {w : StreamWrite} (hname : w.name = b.append v.toComponent) (htype : w.contentType = .data)
    (hlocator : w.locator = none) (hlen : w.payload.length < 2 ^ 64) (config : NetworkConfig)
    (clock : UInt64) :
    Signs w.name k (some w.payload)
      ((w.drafts config (.key k.publicKey)).map (·.sign clock k)) := by
  have hsigned := w.signedBy_drafts config clock (.key k.publicKey) k
  have hgone : w.contentType ≠ .gone := by
    rw [htype]
    exact nofun
  refine ⟨hsigned.edition hverify hlen hgone, hsigned.payloadOf_eq hgone, fun f hf => ?_, ?_⟩
  · obtain ⟨i, content, _, rfl⟩ := hsigned.exists_of_mem hf
    rfl
  · have hsized : w.Sized := by
      refine ⟨?_, ?_, hlen, fun n p hl => ?_⟩
      · have hcount := hb.count_lt
        rw [hname]
        show (b.components ++ [_]).length + 1 < 2 ^ 64
        rw [List.length_append]
        exact hcount
      · rw [hname]
        exact hb.short_append v
      · rw [hlocator] at hl
        cases hl
    exact hsigned.storable hsized nofun

/-- So is a tombstone. -/
theorem signs_tombstone (hverify : Suite.VerifiesSigned) (hb : b.Versionable) (v : Version)
    {d : Draft} (hname : d.name = (b.append v.toComponent).firstSegmentName)
    (htype : d.contentType = .gone) (hfinal : d.final = some Segment.first)
    (hcontent : d.content = []) (hlocator : d.locator = some (.key k.publicKey))
    (clock : UInt64) : Signs (b.append v.toComponent) k none [d.sign clock k] := by
  obtain ⟨hedition, hpayload⟩ := edition_of_tombstone hverify _ hname htype hfinal hcontent clock k
  have hinfo : (d.sign clock k).info.locator = .key k.publicKey := by
    show d.locator.getD _ = _
    rw [hlocator]
    rfl
  have hshort : (d.sign clock k).name.Short := by
    show d.name.Short
    rw [hname]
    exact (hb.short_append v).append (Component.short_ofMarked _ _)
  refine ⟨hedition, hpayload, fun f hf => ?_, fun f hf => ?_⟩
  · rw [List.mem_singleton.mp hf]
    exact hinfo
  · rw [List.mem_singleton.mp hf]
    refine ⟨⟨⟨?_, fun c hc => Nat.lt_trans (hshort c hc) (by decide)⟩,
      fun n p hl => ?_, ?_⟩, hshort⟩
    · show d.name.components.length < 2 ^ 64
      have hcount := hb.count_lt
      rw [hname]
      show ((b.components ++ [_]) ++ [_]).length < 2 ^ 64
      rw [List.length_append, List.length_append]
      exact hcount
    · rw [hinfo] at hl
      cases hl
    · show d.content.length < 2 ^ 64
      rw [hcontent]
      exact Nat.two_pow_pos 64

variable {α : Type} [Payload α]

/-- A write of a version sends what the participant has signed, and is acknowledged in its name. -/
structure Write.Sends (w : Write) (o : VersionedObject α) (x : Writer) (k : Keypair) (s : Supply)
    (n : Name) (payload : Option Octets) (fs : List Fragment) (ack : WriteAck) : Prop where
  signs : Signs n k payload fs
  publisher_eq : ack.publisher = o.keys.default
  locator_eq : ack.locator = .key k.publicKey
  perform_eq : ∀ s' : Supply, s'.config = s.config → s'.clock = s.clock →
    w.perform x.path s' =
      ((WritePath.place x.source fs s').1.map fun _ => ack, (WritePath.place x.source fs s').2)

omit [Payload α] in
/-- A value is sent as a stream, which is signed when it is written. -/
theorem sends_stream (hverify : Suite.VerifiesSigned) {o : VersionedObject α}
    (hk : o.keys.SignsWith k) {x : Writer} (hx : x.keys = o.keys) (hb : b.Versionable) (v : Version)
    {bytes : Octets} (hlen : bytes.length < 2 ^ 64) (s : Supply) (outstanding : Option Interest) :
    ∃ fs ack, (Write.stream
      { name := b.append v.toComponent, payload := bytes, outstanding }).Sends o x k s
        (b.append v.toComponent) (some bytes) fs ack := by
  let w : StreamWrite := { name := b.append v.toComponent, payload := bytes, outstanding }
  let stream : SignedStream :=
    ⟨(w.drafts s.config (.key k.publicKey)).map (·.sign s.clock k), o.keys.default,
      .key k.publicKey⟩
  have hsign : w.sign x.keys s.config s.clock = .ok stream := by
    rw [hx, StreamWrite.sign_eq hk.keypair_eq]
    rfl
  refine ⟨stream.fragments, WritePath.ackStream stream outstanding,
    signs_drafts (w := w) hverify hb v rfl rfl rfl hlen s.config s.clock, rfl, rfl,
    fun s' hconfig hclock => ?_⟩
  show x.path.putStream w s' = _
  rw [x.putStream_eq, hconfig, hclock, hsign]

omit [Payload α] in
/-- A tombstone is signed when it is made ready, and sent as it is. -/
theorem sends_tombstone (hverify : Suite.VerifiesSigned) {o : VersionedObject α}
    (hidentity : o.identity = {}) (hk : o.keys.SignsWith k) (x : Writer) (hb : b.Versionable)
    (v : Version) (s : Supply) (outstanding : Option Interest) :
    ∃ f fs ack, o.tombstone s (b.append v.toComponent) = .ok f ∧
      (Write.tombstone f outstanding).Sends o x k s (b.append v.toComponent) none fs ack := by
  let d : Draft :=
    { name := (b.append v.toComponent).firstSegmentName, contentType := .gone
      final := some Segment.first, locator := some (.key k.publicKey)
      freshness := s.config.freshness }
  have htomb : o.tombstone s (b.append v.toComponent) = .ok (d.sign s.clock k) := by
    unfold VersionedObject.tombstone
    simp only [hidentity, Option.getD_none, hk.keypair_eq]
    rfl
  exact ⟨d.sign s.clock k, [d.sign s.clock k], WritePath.ackFragment (d.sign s.clock k) outstanding,
    htomb, signs_tombstone hverify hb v rfl rfl rfl rfl rfl s.clock, hk.default_eq.symm, rfl,
    fun s' _ _ => x.putFragment_eq _ outstanding s'⟩

omit [Payload α] in
/-- What an object with the default identity saves can be signed, and what its writer sends is the
signed edition, in the name of the participant. -/
theorem sends_toWrite (hverify : Suite.VerifiesSigned) {o : VersionedObject α}
    (hidentity : o.identity = {}) (hk : o.keys.SignsWith k) {x : Writer} (hx : x.keys = o.keys)
    (hb : b.Versionable) (v : Version) {payload : Option Octets}
    (hlen : ∀ p, payload = some p → p.length < 2 ^ 64) (s : Supply)
    (outstanding : Option Interest) :
    ∃ w fs ack, o.toWrite s payload (b.append v.toComponent) outstanding = .ok w ∧
      w.Sends o x k s (b.append v.toComponent) payload fs ack := by
  unfold VersionedObject.toWrite
  cases payload with
  | some payload =>
    obtain ⟨fs, ack, hsends⟩ := sends_stream hverify hk hx hb v (hlen payload rfl) s outstanding
    refine ⟨_, fs, ack, ?_, hsends⟩
    rw [hidentity]
  | none =>
    obtain ⟨f, fs, ack, htomb, hsends⟩ := sends_tombstone hverify hidentity hk x hb v s outstanding
    refine ⟨.tombstone f outstanding, fs, ack, ?_, hsends⟩
    rw [htomb]
    rfl

/-! ### Saving -/

namespace Session

variable {s s' : Session α} {id : ObjectId} {o : VersionedObject α} {x : Writer}

/-- An object under an unversioned base name, whose participant signs with a key of its own and has
a way to write. -/
structure Saver (s : Session α) (id : ObjectId) (o : VersionedObject α) (x : Writer) (k : Keypair)
    (b : Name) : Prop where
  object_eq : s.object? id = some o
  numbered : s.Numbered
  sound : s.supply.Sound
  served : x.source ∈ s.supply.sources
  base_eq : o.state.base = some b
  not_root : b.isRoot = false
  plain : b.splitVersion? = none
  versionable : b.Versionable
  identity_eq : o.identity = {}
  keys_eq : x.keys = o.keys
  signs : o.keys.SignsWith k
  /-- The way to write is open, or the object knows how to open it. -/
  opens : o.writer = some x.path ∨ o.writer = none ∧ ∃ mode, o.saveMode = some mode ∧
    ∀ s, WritePath.ofMode mode o.repository o.keys s = x.openPath s

omit [Payload α] in
theorem Saver.with_supply (h : s.Saver id o x k b) {supply : Supply} (hsound : supply.Sound)
    (hsources : supply.sources = s.supply.sources) : (s.withSupply supply).Saver id o x k b :=
  { h with
    sound := hsound
    served := by
      show x.source ∈ supply.sources
      rw [hsources]
      exact h.served }

omit [Payload α] in
/-- The state of the object may change, and the path that was opened may be noted. -/
theorem Saver.change (h : s.Saver id o x k b) {o' : VersionedObject α}
    {change : VersionedObject α → VersionedObject α} (hchange : change o = o')
    (hbase : o'.state.base = some b) (hidentity : o'.identity = o.identity)
    (hkeys : o'.keys = o.keys) (hwriter : o'.writer = some x.path) :
    (s.modifyObject id change).Saver id o' x k b where
  object_eq := by
    rw [← hchange]
    exact object?_modifyObject h.object_eq change
  numbered := numbered_modifyObject h.numbered id change
  sound := h.sound
  served := h.served
  base_eq := hbase
  not_root := h.not_root
  plain := h.plain
  versionable := h.versionable
  identity_eq := hidentity.trans h.identity_eq
  keys_eq := h.keys_eq.trans hkeys.symm
  signs := by
    rw [hkeys]
    exact h.signs
  opens := .inl hwriter

omit [Payload α] in
/-- The path is open or can be opened, which leaves what is served as it is. -/
theorem Saver.writePath_eq (h : s.Saver id o x k b) :
    ∃ s₁, s.writePath id o = .ok (x.path, s₁) ∧
      s₁.Saver id { o with writer := some x.path } x k b ∧ s.supply.Alike s₁.supply := by
  rcases h.opens with hwriter | ⟨hwriter, mode, hmode, hopen⟩
  · refine ⟨s, ?_, ?_, .refl _⟩
    · exact writePath_of_writer hwriter
    · rw [← hwriter]
      exact h
  · obtain ⟨supply, hsupply, hsound, halike⟩ := Writer.alike_openPath h.sound h.served
    refine ⟨(s.withSupply supply).modifyObject id fun o => { o with writer := some x.path }, ?_, ?_,
      halike⟩
    · exact writePath_of_mode hwriter hmode ((hopen s.supply).trans hsupply)
    · exact (h.with_supply hsound halike.sources).change rfl h.base_eq rfl rfl rfl

omit [Payload α] in
theorem Saver.registerBase_eq (h : s.Saver id o x k b) :
    ∃ s₁, s.registerBase x.path b = .ok s₁ ∧ s₁.Saver id o x k b ∧ s.supply.Alike s₁.supply := by
  obtain ⟨supply, hreg, hsound, halike⟩ :=
    Writer.alike_register h.sound (h.sound.has_of_mem h.served) b.base
  exact ⟨s.withSupply supply, registerBase_eq_ok_iff.mpr ⟨supply, hreg, rfl⟩,
    h.with_supply hsound halike.sources, halike⟩

/-- The version that an object mints, if it saves at the time of the clock. -/
def minted (s : Session α) (o : VersionedObject α) : Version :=
  .nextAfter s.supply.clock o.state.version

/-- The state of an object that has recorded a save of its participant. -/
def recorded (o : VersionedObject α) (v : Version) (k : Keypair) (gone : Bool) : ObjectState α :=
  (o.state.commitSave ⟨v, o.keys.default, .key k.publicKey, gone, o.state.edits⟩).2

/-- A save of a version after all that is served succeeds. What it wrote leads then. -/
theorem Saver.saveWith (hverify : Suite.VerifiesSigned) (h : s.Saver id o x k b) {gone : Bool}
    {save : PendingSave α} (hbegin : o.state.beginSave gone = .ok (some save))
    (hlen : ∀ y, save.value = some y → (Payload.encode y).length < 2 ^ 64)
    (hbefore : s.supply.OnlyBefore b (s.minted o)) (outstanding : Option Interest) :
    ∃ s' fs, s.saveWith (fun s => s) id gone none outstanding = (.ok true, s') ∧
      s'.Saver id { o with
        state := recorded o (s.minted o) k gone, writer := some x.path } x k b ∧
      s'.supply.Leads b (s.minted o) k.publicKey fs ∧ Embeds k.publicKey fs ∧
      payloadOf fs = save.value.map Payload.encode := by
  obtain ⟨_, _, hedits, hbase, _, hversion⟩ := ObjectState.begun_of_beginSave hbegin
  obtain rfl : save.base = b := Option.some.inj (hbase.symm.trans h.base_eq)
  have hplain := Name.base_of_splitVersion?_eq_none h.plain
  -- Opening the write path and registering the base leave the content as it is.
  obtain ⟨s₁, hpath, h₁, ha₁⟩ := h.writePath_eq
  obtain ⟨s₂, hreg, h₂, ha₂⟩ := h₁.registerBase_eq
  have halike := ha₁.trans ha₂
  have hname : save.base.base.addVersion (s.minted o) =
      save.base.append (s.minted o).toComponent := by
    rw [hplain, Name.addVersion_of_splitVersion?_eq_none h.plain]
  have hminted : Version.nextAfter s₂.supply.clock save.version = s.minted o := by
    rw [halike.clock, hversion]
    rfl
  have hlen' : ∀ p, save.value.map Payload.encode = some p → p.length < 2 ^ 64 := by
    intro p hp
    obtain ⟨y, hy, rfl⟩ := Option.map_eq_some_iff.mp hp
    exact hlen y hy
  -- What is written is an edition, and nothing of its version is there yet, so it leads.
  obtain ⟨w, fs, ack, hwrite, hsigns, hpublisher, hlocator, hperform⟩ :=
    sends_toWrite hverify h.identity_eq h.signs h.keys_eq h.versionable (s.minted o) hlen'
      s₂.supply outstanding
  obtain ⟨hok, hleads⟩ := WritePath.leads_place h₂.sound h₂.served (hbefore.of_alike halike)
    hsigns.edition hsigns.storable
  let saved : SavedVersion :=
    ⟨s.minted o, ack.publisher, ack.locator, save.value.isNone, save.edits⟩
  have hstate : (o.state.commitSave saved).2 = recorded o (s.minted o) k gone := by
    show (o.state.commitSave ⟨_, ack.publisher, ack.locator, save.value.isNone, save.edits⟩).2 = _
    rw [hpublisher, hlocator, ObjectState.isNone_of_beginSave hbegin, hedits]
    rfl
  refine ⟨(s₂.withSupply (WritePath.place x.source fs s₂.supply).2).modifyState id fun state =>
    (state.commitSave saved).2, fs, ?_, ?_, hleads, hsigns.embeds, hsigns.payload_eq⟩
  · rw [saveWith_of_begun ⟨h.object_eq, hbegin, s₁, hpath, hreg⟩]
    have hwritten : w.perform x.path s₂.supply =
        (.ok ack, (WritePath.place x.source fs s₂.supply).2) := by
      rw [hperform s₂.supply rfl rfl, hok]
      rfl
    exact writeSave_of_written hminted (by rw [hname, hwrite]) hwritten
  · refine (h₂.with_supply hleads.sound (WritePath.sources_place ..)).change ?_ ?_ rfl rfl rfl
    · show { o with state := (o.state.commitSave saved).2, writer := some x.path } = _
      rw [hstate]
    · rw [← hstate]
      exact ObjectState.base_commitSave hbase h.plain saved

/-! ### Reading -/

/-- Whoever opens a base to read it, with any keys and perhaps with a repository that is served
already, gets an object with this state. -/
def Yields (s : Session α) (b : Name) (state : ObjectState α) : Prop :=
  ∀ (keys : KeyRing) (repository : Option StoreId),
    (∀ store, repository = some store → .store store ∈ s.supply.sources) →
    ∃ s' o, s.openObject keys repository (.read b) = (.ok ⟨s.opened⟩, s') ∧
      s'.object? ⟨s.opened⟩ = some o ∧ o.state = state

/-- The state of an object that was opened to read and has read a version: it is available and
clean. -/
def holding (a : Adoption α) : ObjectState α where
  base := some a.base
  version := some a.version
  publisher := some a.publisher
  locator := some a.locator
  payload := a.payload
  gone := a.payload.isNone
  dirty := false
  available := true

/-- The version that leads is read by whoever opens the base, if it embeds its key. -/
theorem yields_of_leads (hnumbered : s.Numbered) {v : Version} {key : PublicKey}
    {fs : List Fragment} (hplain : b.splitVersion? = none) (hleads : s.supply.Leads b v key fs)
    (hembeds : Embeds key fs) {value : Option α} (htells : Tells fs value) :
    s.Yields b (holding ⟨b, v, key.publisher, .key key, value⟩) := by
  intro keys repository hserved
  -- Attaching a store that is served already changes nothing that matters.
  obtain ⟨hnumbered₁, hleads₁, hopened₁⟩ : (s.attaching repository).Numbered ∧
      (s.attaching repository).supply.Leads b v key fs ∧
      (s.attaching repository).opened = s.opened := by
    cases repository with
    | none => exact ⟨hnumbered, hleads, rfl⟩
    | some store =>
      obtain ⟨hsound, halike⟩ := Supply.alike_attach hleads.sound (hserved store rfl)
      exact ⟨hnumbered, hleads.of_alike halike hsound, rfl⟩
  rw [openObject_eq, ← hopened₁]
  generalize s.attaching repository = s₁ at hnumbered₁ hleads₁
  let reader : VersionedObject α := prepare keys repository (.read b)
  have hobj : (s₁.adding reader).object? ⟨s₁.opened⟩ = some reader :=
    object?_adding hnumbered₁ reader
  have hkeys : (s₁.adding reader).supply.config.verify = true →
      ∀ f ∈ fs, Supply.verificationKey reader.keys f = .ok key := by
    intro _ f hf
    unfold Supply.verificationKey
    rw [hembeds f hf]
  obtain ⟨first, hfirst, hupdate⟩ := updateName_of_found hobj rfl hleads₁.sound hleads₁.stores
    (hleads₁.openVersioned?_eq hplain) htells hkeys
  rw [hleads₁.stores.edition.publisher_eq first hfirst, hembeds first hfirst] at hupdate
  have hgive : (s₁.adding reader).giveFirstValue ⟨s₁.opened⟩ (.read b) =
      (.ok (), (s₁.adding reader).modifyState ⟨s₁.opened⟩ fun _ =>
        reader.state.take ⟨b, v, key.publisher, .key key, value⟩) := by
    rw [giveFirstValue_eq]
    simp only [ObjectConfig.read, hupdate]
    rfl
  refine ⟨_, _, ?_, object?_modifyObject hobj fun o =>
    { o with state := reader.state.take ⟨b, v, key.publisher, .key key, value⟩ }, rfl⟩
  rw [show (s₁.adding (prepare keys repository (.read b))).giveFirstValue ⟨s₁.opened⟩ (.read b) = _
    from hgive]
  rfl

/-! ### Saving and reading -/

omit [Suite] in
/-- What is signed of a value that can be read back tells the value. -/
theorem tells_of_payloadOf {fs : List Fragment} {value : Option α}
    (hcodec : ∀ y, value = some y → Payload.decode (Payload.encode y) = some y)
    (hfs : payloadOf fs = value.map Payload.encode) : Tells fs value := by
  cases value with
  | none => exact .inl ⟨hfs, rfl⟩
  | some y => exact .inr ⟨_, y, hfs, hcodec y rfl, rfl⟩

omit [Payload α] in
/-- A save that moves the object forward leaves it clean, with what was saved. -/
theorem recorded_of_newer {gone : Bool} {save : PendingSave α}
    (hbegin : o.state.beginSave gone = .ok (some save)) (hbase : o.state.base = some b)
    (hplain : b.splitVersion? = none) {v : Version}
    (hnewer : o.state.version = none ∨ ∃ u, o.state.version = some u ∧ u < v) :
    recorded o v k gone = { holding ⟨b, v, o.keys.default, .key k.publicKey, save.value⟩ with
      edits := o.state.edits } := by
  obtain ⟨_, hvalue, _⟩ := ObjectState.begun_of_beginSave hbegin
  have hnone := ObjectState.isNone_of_beginSave hbegin
  have hnew : o.state.isNewer b.base v = true := by
    rw [← Bool.not_eq_false, ObjectState.isNewer_eq_false_iff]
    rintro ⟨_, held, _, hheld, _, hle⟩
    rcases hnewer with hno | ⟨u, hu, hlt⟩
    · cases hno.symm.trans hheld
    · obtain rfl : u = held := Option.some.inj (hu.symm.trans hheld)
      exact absurd hlt (UInt64.not_lt.mpr hle)
  rw [hvalue] at hnone
  rw [recorded, ObjectState.commitSave_of_newer hbase hnew,
    Name.base_of_splitVersion?_eq_none hplain]
  simp [ObjectState.record, holding, hvalue, hnone]

/-- What is saved as a version after all others is what the object holds then, and what a fresh
reader of the base gets. -/
theorem Saver.yields_of_saveWith (hverify : Suite.VerifiesSigned) (h : s.Saver id o x k b)
    {gone : Bool} {save : PendingSave α} (hbegin : o.state.beginSave gone = .ok (some save))
    (hlen : ∀ y, save.value = some y → (Payload.encode y).length < 2 ^ 64)
    (hcodec : ∀ y, save.value = some y → Payload.decode (Payload.encode y) = some y)
    (hnewer : o.state.version = none ∨ ∃ u, o.state.version = some u ∧ u < s.minted o)
    (hbefore : s.supply.OnlyBefore b (s.minted o)) (outstanding : Option Interest) :
    ∃ s' o' fs, s.saveWith (fun s => s) id gone none outstanding = (.ok true, s') ∧
      s'.Saver id o' x k b ∧ o'.keys = o.keys ∧
      o'.state = { holding ⟨b, s.minted o, o.keys.default, .key k.publicKey, save.value⟩ with
        edits := o.state.edits } ∧
      s'.supply.Leads b (s.minted o) k.publicKey fs ∧
      s'.Yields b (holding ⟨b, s.minted o, o.keys.default, .key k.publicKey, save.value⟩) := by
  obtain ⟨s', fs, hsave, hsaver, hleads, hembeds, hpayload⟩ :=
    h.saveWith hverify hbegin hlen hbefore outstanding
  refine ⟨s', _, fs, hsave, hsaver, rfl,
    recorded_of_newer hbegin h.base_eq h.plain hnewer, hleads, ?_⟩
  rw [h.signs.default_eq]
  exact yields_of_leads hsaver.numbered h.plain hleads hembeds (tells_of_payloadOf hcodec hpayload)

/-- So it is with a tombstone. -/
theorem Saver.yields_of_saveGone (hverify : Suite.VerifiesSigned) (h : s.Saver id o x k b)
    (hnewer : o.state.version = none ∨ ∃ u, o.state.version = some u ∧ u < s.minted o)
    (hbefore : s.supply.OnlyBefore b (s.minted o)) (outstanding : Option Interest) :
    ∃ s' o', s.saveGone id outstanding = (.ok true, s') ∧ s'.object? id = some o' ∧
      o'.state = { holding ⟨b, s.minted o, o.keys.default, .key k.publicKey, none⟩ with
        edits := o.state.edits } ∧
      s'.Yields b (holding ⟨b, s.minted o, o.keys.default, .key k.publicKey, none⟩) := by
  have hrequire := ObjectState.requireBase_eq_ok_iff.mpr ⟨h.base_eq, h.not_root⟩
  have hbegin := ObjectState.beginSave_gone h.base_eq h.not_root
  obtain ⟨s', o', fs, hsave, hsaver, _, hstate, _, hyields⟩ := h.yields_of_saveWith hverify hbegin
    nofun nofun hnewer hbefore outstanding
  refine ⟨s', o', ?_, hsaver.object_eq, hstate, hyields⟩
  unfold saveGone saveGoneWith saveGoneRun onObject
  rw [h.object_eq]
  dsimp only
  rw [hrequire]
  dsimp only
  rw [if_neg (by rw [Name.hasVersion, h.plain]; exact Bool.false_ne_true)]
  exact hsave

/-- So it is with a tombstone that is saved after the version that the object holds, at a reading of
the clock after which there is a later version. -/
theorem Saver.yields_of_saveGone_later (hverify : Suite.VerifiesSigned) (h : s.Saver id o x k b)
    {v : Version} {fs : List Fragment} (hversion : o.state.version = some v)
    (hleads : s.supply.Leads b v k.publicKey fs) {clock : UInt64}
    (hlt : v < Version.nextAfter clock (some v)) (outstanding : Option Interest) :
    ∃ s' o', (s.withSupply { s.supply with clock }).saveGone id outstanding = (.ok true, s') ∧
      s'.object? id = some o' ∧
      o'.state = { holding ⟨b, Version.nextAfter clock (some v), o.keys.default, .key k.publicKey,
        none⟩ with edits := o.state.edits } ∧
      s'.Yields b (holding ⟨b, Version.nextAfter clock (some v), o.keys.default, .key k.publicKey,
        none⟩) := by
  have hsaver : (s.withSupply { s.supply with clock }).Saver id o x k b :=
    h.with_supply (h.sound.of_content rfl rfl rfl) rfl
  have hminted : (s.withSupply { s.supply with clock }).minted o =
      Version.nextAfter clock (some v) := by
    unfold minted
    rw [hversion]
    rfl
  have hbefore : (s.withSupply { s.supply with clock }).supply.OnlyBefore b
      (Version.nextAfter clock (some v)) := hleads.onlyBefore hlt
  have hyields := hsaver.yields_of_saveGone hverify
    (.inr ⟨v, hversion, by rw [hminted]; exact hlt⟩) (by rw [hminted]; exact hbefore) outstanding
  rw [hminted] at hyields
  exact hyields

/-! ### Opening to write -/

omit [Suite] [Payload α] in
/-- The configuration of an object that saves in a mode. -/
def savingIn (c : ObjectConfig α) : SaveMode → ObjectConfig α
  | .raw => { c with writeMode := .raw }
  | .repository => { c with writeMode := .repository }

omit [Payload α] in
theorem sound_attaching (hsound : s.supply.Sound) {repository : Option StoreId}
    (hrepository : ∀ store, repository = some store → s.supply.Has (.store store)) :
    (s.attaching repository).supply.Sound := by
  cases repository with
  | none => exact hsound
  | some store => exact (Supply.attach_grows hsound (hrepository store rfl)).1

omit [Payload α] in
/-- In either mode there is a source that saves go to, and a way to it. -/
theorem exists_source (hsound : s.supply.Sound) (keys : KeyRing) {mode : SaveMode}
    {repository : Option StoreId} (hmode : mode = .repository → repository.isSome = true)
    (hrepository : ∀ store, repository = some store → s.supply.Has (.store store)) :
    ∃ source, source ∈ (s.attaching repository).supply.sources ∧
      ∀ supply, WritePath.ofMode mode repository keys supply =
        (⟨source, keys⟩ : Writer).openPath supply := by
  cases mode with
  | raw => exact ⟨.direct, List.mem_cons_self, fun supply => rfl⟩
  | repository =>
    obtain ⟨store, rfl⟩ := Option.isSome_iff_exists.mp (hmode rfl)
    exact ⟨.store store, (Supply.attach_grows hsound (hrepository store rfl)).2.2,
      fun supply => rfl⟩

/-- An object that is opened with a value to write has a way to write, in either mode. -/
theorem saver_openObject (hnumbered : s.Numbered) (hsound : s.supply.Sound) {keys : KeyRing}
    (hk : keys.SignsWith k) (hroot : b.isRoot = false) (hplain : b.splitVersion? = none)
    (hb : b.Versionable) (y : α) {mode : SaveMode} {repository : Option StoreId}
    (hmode : mode = .repository → repository.isSome = true)
    (hrepository : ∀ store, repository = some store → s.supply.Has (.store store)) :
    ∃ s₁ o x, s.openObject keys repository (savingIn (.forWrite b (some y)) mode) =
        (.ok ⟨s.opened⟩, s₁) ∧
      s₁.Saver ⟨s.opened⟩ o x k b ∧ o.keys = keys ∧
      o.state = (ObjectState.new (some b)).setPayload y := by
  let c : ObjectConfig α := savingIn (.forWrite b (some y)) mode
  let o : VersionedObject α :=
    { prepare keys repository c with state := (ObjectState.new (some b)).setPayload y }
  have hname : c.name = some b := by cases mode <;> rfl
  have hinitial : c.initial = .value y := by cases mode <;> rfl
  have hnumbered₁ : (s.attaching repository).Numbered := by cases repository <;> exact hnumbered
  have hopened₁ : (s.attaching repository).opened = s.opened := by cases repository <;> rfl
  obtain ⟨source, hsource, hpath⟩ := exists_source hsound keys hmode hrepository
  have hobj : ((s.attaching repository).adding (prepare keys repository c)).object?
      ⟨(s.attaching repository).opened⟩ = some (prepare keys repository c) :=
    object?_adding hnumbered₁ _
  have hstate : { prepare keys repository c with
      state := (prepare keys repository c).state.setPayload y } = o := by
    show { prepare keys repository c with state := (ObjectState.new c.name).setPayload y } = o
    rw [hname]
  rw [openObject_eq, ← hopened₁]
  refine ⟨((s.attaching repository).adding (prepare keys repository c)).setPayload
    ⟨(s.attaching repository).opened⟩ y, o, ⟨source, keys⟩, ?_, ?_, rfl, rfl⟩
  · rw [giveFirstValue_eq,
      show (savingIn (.forWrite b (some y)) mode : ObjectConfig α).initial = .value y from hinitial]
  · refine ⟨?_, ?_, sound_attaching hsound hrepository, hsource, rfl, hroot, hplain, hb,
      by cases mode <;> rfl, rfl, hk, ?_⟩
    · rw [← hstate]
      exact object?_modifyObject hobj _
    · apply numbered_modifyObject
      intro e he
      rcases List.mem_append.mp he with he | he
      · exact Nat.lt_succ_of_lt (hnumbered₁ e he)
      · rw [List.mem_singleton.mp he]
        exact Nat.lt_succ_self _
    · exact .inr ⟨by cases mode <;> rfl, mode, by cases mode <;> rfl, hpath⟩

omit [Suite] [Payload α] in
/-- The state of an open object. -/
def stateOf (s : Session α) (id : ObjectId) : Option (ObjectState α) :=
  (s.object? id).map VersionedObject.state

omit [Suite] [Payload α] in
@[simp] theorem stateOf_of_object? (ho : s.object? id = some o) : s.stateOf id = some o.state := by
  simp [stateOf, ho]

omit [Suite] [Payload α] in
theorem stateOf_eq_of_state_eq {o' : VersionedObject α} (ho : s.object? id = some o)
    (ho' : s'.object? id = some o') (h : o'.state = o.state) : s'.stateOf id = s.stateOf id := by
  rw [stateOf_of_object? ho', stateOf_of_object? ho, h]

/-- What is saved is read. A participant that signs with a key of its own opens an object under an
unversioned base name with a value to write, in either mode. If everything that is served below the
base is of versions before the one that is minted, then the save succeeds, and so does that of a
tombstone, before or after it and at any reading of the clock. The object holds what was saved
then, and whoever opens the base gets it, as a clean and available object with the same version,
publisher and locator. -/
theorem yields_of_save (hverify : Suite.VerifiesSigned) {s : Session α} (hnumbered : s.Numbered)
    (hsound : s.supply.Sound) {keys : KeyRing} {k : Keypair} (hk : keys.SignsWith k) {b : Name}
    (hroot : b.isRoot = false) (hplain : b.splitVersion? = none) (hb : b.Versionable) {y : α}
    (hcodec : Payload.decode (Payload.encode y) = some y)
    (hlen : (Payload.encode y).length < 2 ^ 64) {mode : SaveMode} {repository : Option StoreId}
    (hmode : mode = .repository → repository.isSome = true)
    (hrepository : ∀ store, repository = some store → s.supply.Has (.store store)) :
    ∃ s₁, s.openObject keys repository (savingIn (.forWrite b (some y)) mode) =
        (.ok ⟨s.opened⟩, s₁) ∧
      ∀ v, v = Version.nextAfter s₁.supply.clock none → s₁.supply.OnlyBefore b v →
        (∀ outstanding, ∃ s₂, s₁.save ⟨s.opened⟩ none outstanding = (.ok true, s₂) ∧
          s₂.stateOf ⟨s.opened⟩ =
            some { holding ⟨b, v, keys.default, .key k.publicKey, some y⟩ with edits := 1 } ∧
          s₂.Yields b (holding ⟨b, v, keys.default, .key k.publicKey, some y⟩) ∧
          ∀ clock outstanding, ∃ w s₃, v < w ∧ w = Version.nextAfter clock (some v) ∧
            (s₂.withSupply { s₂.supply with clock }).saveGone ⟨s.opened⟩ outstanding =
              (.ok true, s₃) ∧
            s₃.stateOf ⟨s.opened⟩ =
              some { holding ⟨b, w, keys.default, .key k.publicKey, none⟩ with edits := 1 } ∧
            s₃.Yields b (holding ⟨b, w, keys.default, .key k.publicKey, none⟩)) ∧
        ∀ outstanding, ∃ s₂, s₁.saveGone ⟨s.opened⟩ outstanding = (.ok true, s₂) ∧
          s₂.stateOf ⟨s.opened⟩ =
            some { holding ⟨b, v, keys.default, .key k.publicKey, none⟩ with edits := 1 } ∧
          s₂.Yields b (holding ⟨b, v, keys.default, .key k.publicKey, none⟩) := by
  obtain ⟨s₁, o, x, hopen, hsaver, rfl, hstate⟩ :=
    saver_openObject hnumbered hsound hk hroot hplain hb y hmode hrepository
  refine ⟨s₁, hopen, fun v hv hbefore => ?_⟩
  -- The object is new, so its save mints the first version of the clock.
  have hversion : o.state.version = none := by rw [hstate]; rfl
  have hedits : o.state.edits = 1 := by rw [hstate]; rfl
  have hminted : s₁.minted o = v := by
    unfold minted
    rw [hversion, hv]
  have hbefore' : s₁.supply.OnlyBefore b (s₁.minted o) := by
    rw [hminted]
    exact hbefore
  have hbegin : o.state.beginSave false = .ok (some ⟨b, some y, 1, none⟩) := by
    rw [hstate]
    exact ObjectState.beginSave_of_dirty rfl hroot rfl rfl rfl
  refine ⟨fun outstanding => ?_, fun outstanding => ?_⟩
  · obtain ⟨s₂, o₂, fs, hsave, hsaver₂, hkeys₂, hstate₂, hleads, hyields⟩ :=
      hsaver.yields_of_saveWith hverify hbegin
        (fun z hz => by rw [← Option.some.inj hz]; exact hlen)
        (fun z hz => by rw [← Option.some.inj hz]; exact hcodec) (.inl hversion) hbefore'
        outstanding
    rw [hminted] at hstate₂ hleads hyields
    rw [hedits] at hstate₂
    refine ⟨s₂, hsave, ?_, hyields, fun clock outstanding => ?_⟩
    · rw [stateOf_of_object? hsaver₂.object_eq, hstate₂]
    · -- The tombstone gets a later version, since the first save did not use up the last one.
      have hlt : v < Version.nextAfter clock (some v) := by
        rw [hv]
        exact Version.lt_nextAfter_nextAfter _ _
      have hversion₂ : o₂.state.version = some v := by rw [hstate₂]; rfl
      obtain ⟨s₃, o₃, hgone, hobj₃, hstate₃, hyields₃⟩ :=
        hsaver₂.yields_of_saveGone_later hverify hversion₂ hleads hlt outstanding
      rw [hkeys₂] at hstate₃ hyields₃
      refine ⟨_, s₃, hlt, rfl, hgone, ?_, hyields₃⟩
      rw [stateOf_of_object? hobj₃, hstate₃, hstate₂]
  · obtain ⟨s₂, o₂, hgone, hobj₂, hstate₂, hyields⟩ :=
      hsaver.yields_of_saveGone hverify (.inl hversion) hbefore' outstanding
    rw [hminted] at hstate₂ hyields
    rw [hedits] at hstate₂
    refine ⟨s₂, hgone, ?_, hyields⟩
    rw [stateOf_of_object? hobj₂, hstate₂]

end Session

end

namespace Session

/-- The keys of a participant with an identity of its own. -/
def author [Suite] : KeyRing := .ofKeypair ⟨.replicate 32 7⟩

theorem sound_quiet [Suite] : quiet.Sound := by
  refine ⟨nofun, fun store hstore => ?_, nofun⟩
  rw [List.mem_singleton.mp hstore]
  exact Supply.sound_empty

theorem versionable_content : content.Versionable := ⟨by decide, by decide⟩

/-- Before the first save nothing is served. -/
theorem onlyBefore_quiet [Suite] (b : Name) (v : Version) : (quiet.attach ⟨0⟩).OnlyBefore b v := by
  rintro g ⟨src, hsrc, hheld⟩
  have hsources : (quiet.attach ⟨0⟩).sources = [.direct, .store ⟨0⟩] := rfl
  rw [hsources, List.mem_cons, List.mem_singleton] at hsrc
  rcases hsrc with rfl | rfl <;> cases hheld

theorem encodes_one [Suite] :
    Payload.decode (Payload.encode ([1] : List UInt32)) = some ([1] : List UInt32) ∧
      (Payload.encode ([1] : List UInt32)).length < 2 ^ 64 := by
  refine ⟨by decide +kernel, ?_⟩
  have hlen : (Payload.encode ([1] : List UInt32)).length = 2 := by decide +kernel
  omega

theorem attaches_quiet [Suite] {store : StoreId} (h : some ⟨0⟩ = some store) :
    (start (α := List UInt32) quiet).supply.Has (.store store) := by
  cases h
  exact Nat.one_pos

theorem yields_of_save_inStore :
    letI := trusting
    ∃ (s₁ s₂ s₃ : Session (List UInt32)) (p : Publisher) (l : KeyLocator),
      (start quiet).openObject author (some ⟨0⟩)
        (savingIn (.forWrite content (some [1])) .repository) = (.ok ⟨0⟩, s₁) ∧
      s₁.save ⟨0⟩ none none = (.ok true, s₂) ∧
      s₂.Yields content (holding ⟨content, .ofMillis 0, p, l, some [1]⟩) ∧
      s₁.saveGone ⟨0⟩ none = (.ok true, s₃) ∧
      s₃.Yields content (holding ⟨content, .ofMillis 0, p, l, none⟩) := by
  let _ := trusting
  have hkeys : author.SignsWith ⟨.replicate 32 7⟩ := KeyRing.signsWith_ofKeypair _
  have hnumbered : (start (α := List UInt32) quiet).Numbered :=
    fun _ he => absurd he List.not_mem_nil
  have hmode : SaveMode.repository = .repository → (some (⟨0⟩ : StoreId)).isSome = true :=
    fun _ => rfl
  obtain ⟨s₁, hopen, hall⟩ := yields_of_save (fun _ _ => rfl) hnumbered sound_quiet hkeys
    (show content.isRoot = false from rfl) (show content.splitVersion? = none by decide)
    versionable_content encodes_one.1 encodes_one.2 hmode (fun _ => attaches_quiet)
  have hsupply : s₁.supply = quiet.attach ⟨0⟩ := by
    have hs := congrArg (fun r => r.2.supply) hopen
    exact hs.symm
  obtain ⟨hsave, hgone⟩ := hall (.ofMillis 0) (by rw [hsupply]; rfl)
    (by rw [hsupply]; exact onlyBefore_quiet _ _)
  obtain ⟨s₂, hsaved, _, hyields, _⟩ := hsave none
  obtain ⟨s₃, hgone, _, hyields'⟩ := hgone none
  exact ⟨s₁, s₂, s₃, _, _, hopen, hsaved, hyields, hgone, hyields'⟩

end Session

end NamedContent
