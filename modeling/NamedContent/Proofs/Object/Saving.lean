import NamedContent.Proofs.Network.Acknowledged
import NamedContent.Proofs.Object.Following
import NamedContent.Proofs.Object.Stages

/-!
# Saving to a network of whole versions

A save signs an edition of the object's value, or of a tombstone, and sends it to the source of the
object's writer. If nothing contests the write, all versions stay whole, and an acknowledged save
has left its edition stored. Recording the save then leaves a state that mirrors the version that it
holds, with two exceptions (`SavedAs`, `Following.saves`): a value can be saved as a given version
while the object holds a later one, and the saved version can be put on a state that has come to
hold something else, if the object adopted a version while the save was in flight.
-/

namespace NamedContent

section

variable [Suite] {α : Type} [Payload α]

/-! ### What is written -/

/-- What a participant sends for a write. -/
def Write.request : Write → WriteRequest
  | .stream w => .stream w
  | .tombstone f outstanding => .fragment f outstanding

omit [Payload α] in
theorem Write.perform_eq (w : Write) (x : Writer) (s : Supply) :
    w.perform x.path s = x.send w.request s := by
  cases w <;> rfl

/-- What is to be written has lengths that fit, and the sources do not contest it. -/
structure Write.Admitted (w : Write) (x : Writer) (s : Supply) : Prop where
  sized : w.request.Sized
  uncontested : ∀ fs, x.fragments w.request s = .ok fs → WritePath.Uncontested s x.source fs

omit [Payload α] in
/-- What a save writes is an edition of its value, or of a tombstone, whatever has become of the
network since it was made ready. -/
theorem edition_of_toWrite (hverify : Suite.VerifiesSigned) {o : VersionedObject α} {x : Writer}
    {s s' : Supply} {payload : Option Octets} {n : Name} {outstanding : Option Interest} {w : Write}
    (hw : o.toWrite s payload n outstanding = .ok w) (hsized : w.request.Sized)
    {fs : List Fragment} (hfs : x.fragments w.request s' = .ok fs) :
    ∃ key, Edition n key fs ∧ payloadOf fs = payload := by
  unfold VersionedObject.toWrite at hw
  cases payload with
  | some payload =>
    cases hw
    obtain ⟨stream, hsign, rfl⟩ := Writer.sign_of_fragments hfs
    exact edition_of_sign hverify hsign hsized.payload_lt nofun
  | none =>
    unfold VersionedObject.tombstone at hw
    dsimp only at hw
    split at hw
    · cases hw
    · next keypair _ =>
      cases hw
      cases hfs
      exact ⟨_, edition_of_tombstone hverify n rfl rfl rfl rfl s.clock keypair⟩

/-! ### What becomes of the network -/

namespace Supply

variable {bases : Name → Prop} {s s' : Supply} {b : Name} {v : Version} {x : Writer}

omit [Payload α] in
/-- An uncontested write of an edition keeps all versions whole, and leaves the edition stored if it
is acknowledged. -/
theorem Hosts.send (h : s.Hosts bases) (hsrc : x.source ∈ s.sources) (hb : bases b)
    {w : WriteRequest} (hw : w.Sized)
    (hed : ∀ fs, x.fragments w s = .ok fs → ∃ key, Edition (b.append v.toComponent) key fs)
    (hun : ∀ fs, x.fragments w s = .ok fs → WritePath.Uncontested s x.source fs) :
    (x.send w s).2.Hosts bases ∧ s.Grows (x.send w s).2 ∧
      ∀ ack, (x.send w s).1 = .ok ack → ∃ key fs, x.fragments w s = .ok fs ∧
        (x.send w s).2.Stores (b.append v.toComponent) key fs := by
  have hx := h.sound.has_of_mem hsrc
  cases hfs : x.fragments w s with
  | error e =>
    rw [Writer.send_of_error hfs]
    exact ⟨h, .refl s, fun ack hack => by cases hack⟩
  | ok fs =>
    obtain ⟨ack, hsend⟩ := Writer.send_of_fragments hfs
    obtain ⟨hstorable, hdistinct⟩ := Writer.storable_of_fragments hw hfs
    obtain ⟨key, hedition⟩ := hed fs hfs
    have huncontested := hun fs hfs
    have hwhole := h.whole b hb v
    obtain ⟨hsound, hgrows⟩ := WritePath.place_grows h.sound hx hstorable
    rw [hsend]
    refine ⟨⟨hsound, h.plain, fun b' hb' v' => ?_⟩, hgrows, fun ack' hack => ?_⟩
    · exact WritePath.whole_place h.sound hx hsrc hedition hstorable hdistinct huncontested hwhole
        (h.whole b' hb' v')
    · refine ⟨key, fs, rfl, WritePath.stores_place h.sound hx hsrc hedition hstorable hdistinct
        huncontested hwhole ?_⟩
      cases hplace : (WritePath.place x.source fs s).1 with
      | ok u => rfl
      | error e =>
        rw [hplace] at hack
        cases hack

end Supply

/-! ### What is recorded -/

/-- What becomes of a state in a save of a version, perhaps a given one. It is as it was, or it
mirrors the version that it holds. Or the save was acknowledged, and either a value was saved as a
given version that is earlier than the one held, or the version was put on a state that has come to
hold another value, or to have another base, than the save took along. -/
inductive SavedAs (bases : Name → Prop) (s : Supply) (st : ObjectState α) (gone : Bool)
    (given : Option Version) (v : Version) (outcome : Except ObjectError Bool) :
    ObjectState α → Prop where
  | same : SavedAs bases s st gone given v outcome st
  | current {st' : ObjectState α} (current : st'.Current bases s) :
      SavedAs bases s st gone given v outcome st'
  | backdated {st' : ObjectState α} (acknowledged : outcome = .ok true) (value : gone = false)
      (given_eq : given = some v) {k : Version} (held : st'.version = some k) (lt : v < k)
      (mirrors : st'.Mirrors bases s v) : SavedAs bases s st gone given v outcome st'
  | crossed {st' : ObjectState α} (acknowledged : outcome = .ok true) (clean : st'.dirty = false)
      (held : st'.version = some v)
      (differs : st'.base ≠ st.base ∨ gone = false ∧ st'.payload ≠ st.payload) :
      SavedAs bases s st gone given v outcome st'

namespace ObjectState

variable {bases : Name → Prop} {s : Supply} {st st' : ObjectState α} {save : PendingSave α}
  {b : Name} {gone : Bool} {given : Option Version} {v : Version}

omit [Suite] [Payload α] in
/-- What is to be saved as a value is not gone. -/
theorem not_gone_of_beginSave (h : st.beginSave false = .ok (some save)) : st.gone = false := by
  obtain ⟨_, _, _, ⟨hgone, _⟩ | ⟨_, _, _, hvalue, _⟩⟩ := taken_of_beginSave h
  · cases hgone
  · exact (value_eq_ok_iff.mp hvalue).1

omit [Suite] [Payload α] in
/-- A save takes a value along exactly if it is not of a tombstone. -/
theorem isNone_of_beginSave (h : st.beginSave gone = .ok (some save)) :
    save.value.isNone = gone := by
  obtain ⟨_, _, _, ⟨rfl, rfl⟩ | ⟨rfl, _, _, _, rfl⟩⟩ := taken_of_beginSave h
  · rfl
  · rfl

/-- A saved version that is newer is held from then on, with what was saved, if the state still has
that. -/
theorem mirrors_record (hbegin : st.beginSave gone = .ok (some save)) (hbases : bases b)
    {key : PublicKey} {fs : List Fragment} (hst : s.Stores (b.append v.toComponent) key fs)
    (htells : Tells fs save.value) (hedits : st'.edits = st.edits)
    (hpayload : gone = true ∨ st'.payload = st.payload) (publisher : Publisher)
    (locator : KeyLocator) :
    (st'.record b ⟨v, publisher, locator, gone, st.edits⟩).Mirrors bases s v := by
  obtain ⟨_, hvalue, _⟩ := begun_of_beginSave hbegin
  have hnone := isNone_of_beginSave hbegin
  have hrecorded : (if gone then none else st'.payload) = save.value := by
    rw [hvalue]
    rcases hpayload with rfl | hpayload
    · rfl
    · rw [hpayload]
  refine ⟨by simp [record, hedits], ?_, b, key, fs, rfl, hbases, hst, ?_⟩
  · show gone = (if gone then none else st'.payload).isNone
    rw [hrecorded, hnone]
  · show Tells fs (if gone then none else st'.payload)
    rw [hrecorded]
    exact htells

/-- If the saved value is not newer, the state is cleaned, and keeps the later version beside it. -/
theorem mirrors_clean (hbegin : st.beginSave false = .ok (some save)) (hb : st.base = some b)
    (hbases : bases b) {key : PublicKey} {fs : List Fragment}
    (hst : s.Stores (b.append v.toComponent) key fs) (htells : Tells fs save.value) :
    ({ st with dirty := false } : ObjectState α).Mirrors bases s v := by
  obtain ⟨_, hvalue, _⟩ := begun_of_beginSave hbegin
  have hnone := isNone_of_beginSave hbegin
  rw [hvalue] at htells hnone
  exact ⟨rfl, (not_gone_of_beginSave hbegin).trans hnone.symm, b, key, fs, hb, hbases, hst, htells⟩

/-- Recording a save whose edition is stored, on a state that is as it was when the save began, or
has become current since. -/
theorem savedAs_commitSave (hbegin : st.beginSave gone = .ok (some save)) (hb : st.base = some b)
    (hbases : bases b) (hplain : ∀ b, bases b → b.splitVersion? = none) {key : PublicKey}
    {fs : List Fragment} (hst : s.Stores (b.append v.toComponent) key fs)
    (htells : Tells fs save.value) (hgiven : ∀ k, st.version = some k → v < k → given = some v)
    (hstate : st' = st ∨ st'.Current bases s) (hedits : st'.edits = st.edits)
    (publisher : Publisher) (locator : KeyLocator) :
    SavedAs bases s st gone given v (.ok true)
      (st'.commitSave ⟨v, publisher, locator, save.value.isNone, save.edits⟩).2 := by
  obtain ⟨_, _, htaken, _⟩ := begun_of_beginSave hbegin
  rw [isNone_of_beginSave hbegin, htaken]
  rcases commitSave_cases st' ⟨v, publisher, locator, gone, st.edits⟩ with
    ⟨_, hcommit⟩ | ⟨b', hb', _, hcommit⟩ | ⟨b', hb', hold, hg, _, hcommit⟩ | ⟨_, _, _, _, hcommit⟩
  · rw [hcommit]
    exact hstate.elim (fun h => h ▸ .same) .current
  -- The version is recorded: on what the save took along it is mirrored, on anything else crossed.
  · have hbases' : bases b' := by
      rcases hstate with rfl | ⟨_, _, hm⟩
      · rwa [← Option.some.inj (hb.symm.trans hb')]
      · obtain ⟨_, _, _, hb₀, hbases₀, _⟩ := hm.stored
        rwa [← Option.some.inj (hb₀.symm.trans hb')]
    rw [hcommit, Name.base_of_splitVersion?_eq_none (hplain b' hbases')]
    by_cases hsame : b' = b ∧ (gone = true ∨ st'.payload = st.payload)
    · obtain ⟨rfl, hpayload⟩ := hsame
      exact .current ⟨v, rfl, mirrors_record hbegin hbases hst htells hedits hpayload publisher
        locator⟩
    · refine .crossed rfl (by simp [record, hedits]) rfl ?_
      show some b' ≠ st.base ∨ gone = false ∧ (if gone then none else st'.payload) ≠ st.payload
      rw [hb]
      by_cases hne : b' = b
      · cases gone with
        | true => exact absurd ⟨hne, .inl rfl⟩ hsame
        | false => exact .inr ⟨rfl, fun h => hsame ⟨hne, .inr h⟩⟩
      · exact .inl fun h => hne (Option.some.inj h)
  -- The version is not newer: the state is only made clean. It holds what was saved, if nothing was
  -- adopted meanwhile, or else mirrors what was adopted.
  · obtain rfl : gone = false := hg
    rw [hcommit]
    rcases hstate with rfl | ⟨k, hk, hm⟩
    · obtain ⟨_, k, _, hk, _, hle⟩ := isNewer_eq_false_iff.mp hold
      have hmirrors := mirrors_clean hbegin hb hbases hst htells
      rcases Version.eq_or_lt_of_le hle with rfl | hlt
      · exact .current ⟨_, hk, hmirrors⟩
      · exact .backdated rfl rfl (hgiven k hk hlt) hk hlt hmirrors
    · have hclean : ({ st' with dirty := false } : ObjectState α) = st' := by rw [← hm.clean]
      rw [hclean]
      exact .current ⟨k, hk, hm⟩
  · rw [hcommit]
    exact hstate.elim (fun h => h ▸ .same) .current

end ObjectState

/-! ### Saving -/

namespace VersionedObject

/-- The saves of an object take the path of a participant, if they take one. -/
structure SavesThrough (o : VersionedObject α) (x : Writer) : Prop where
  opened : ∀ path, o.writer = some path → path = x.path
  chosen : ∀ mode s, o.writer = none → o.saveMode = some mode →
    (∃ e, WritePath.ofMode mode o.repository o.keys s = .error e) ∨
      WritePath.ofMode mode o.repository o.keys s = x.openPath s

/-- A value that is to be saved can be read back. -/
def Readable (o : VersionedObject α) : Prop :=
  o.state.dirty = true → ∀ y, o.state.payload = some y → Payload.decode (Payload.encode y) = some y

end VersionedObject

namespace Session

variable {bases : Name → Prop} {s s' : Session α} {id : ObjectId} {o : VersionedObject α}
  {x : Writer} {gone : Bool} {version : Option Version} {outstanding : Option Interest}

/-- What comes of a save: the object has gone on, and its state is what becomes of it in the
save. -/
inductive SavedTo (bases : Name → Prop) (id : ObjectId) (o : VersionedObject α) (x : Writer)
    (gone : Bool) (version : Option Version) (s s' : Session α)
    (outcome : Except ObjectError Bool) : Prop where
  | intro (state : ObjectState α) (watch : Watch) (writer : Option WritePath)
      (following : s'.Following bases id { o with state, watch, writer })
      (through : ({ o with state, watch, writer } : VersionedObject α).SavesThrough x)
      (grows : s.supply.Grows s'.supply)
      (result : SavedAs bases s'.supply o.state gone version
        (version.getD (.nextAfter s.supply.clock o.state.version)) outcome state)

/-- What happens beside the writing of a save leads the object on, and the write is admitted. -/
structure Permits (bases : Name → Prop) (x : Writer) (run : SaveRun α) (id : ObjectId)
    (o : VersionedObject α) (payload : Option Octets) (n : Name) (outstanding : Option Interest)
    (t : Session α) : Prop where
  before : ∀ o₁, t.Following bases id o₁ → LedOn bases id o₁ t (run.before t)
  admitted : ∀ w, o.toWrite t.supply payload n outstanding = .ok w →
    w.Admitted x (run.before t).supply
  after : ∀ w ack supply, o.toWrite t.supply payload n outstanding = .ok w →
    w.perform x.path (run.before t).supply = (.ok ack, supply) → ∀ o₁,
      ((run.before t).withSupply supply).Following bases id o₁ →
        LedOn bases id o₁ ((run.before t).withSupply supply)
          (run.after ((run.before t).withSupply supply))

omit [Payload α] in
theorem Following.with_writer (h : s.Following bases id o) {supply : Supply}
    (hosts : supply.Hosts bases) (writer : Option WritePath) :
    ((s.withSupply supply).modifyObject id fun o => { o with writer }).Following bases id
      { o with writer } :=
  h.change (objects_modifyObject (h.with_supply hosts).objects_eq _) rfl rfl hosts h.base h.tuned

omit [Payload α] in
/-- The write path of an object is its participant's, if it can be had. -/
theorem Following.writePath (h : s.Following bases id o) (hx : o.SavesThrough x)
    (hsrc : x.source ∈ s.supply.sources) {path : WritePath} {s₁ : Session α}
    (hpath : s.writePath id o = .ok (path, s₁)) :
    path = x.path ∧ s₁.Following bases id { o with writer := some x.path } ∧
      s.supply.Alike s₁.supply := by
  rcases writePath_cases hpath with ⟨hwriter, rfl⟩ | ⟨mode, supply, hwriter, hmode, hopen, rfl⟩
  · obtain rfl := hx.opened path hwriter
    have hsame : { o with writer := some x.path } = o := by rw [← hwriter]
    exact ⟨rfl, hsame ▸ h, .refl _⟩
  · obtain ⟨supply', hsupply, hsound, halike⟩ := Writer.alike_openPath h.hosts.sound hsrc
    rcases hx.chosen mode s.supply hwriter hmode with ⟨e, he⟩ | hchosen
    · cases hopen.symm.trans he
    · cases hopen.symm.trans (hchosen.trans hsupply)
      exact ⟨rfl, h.with_writer (h.hosts.of_alike halike hsound) _, halike⟩

omit [Payload α] in
/-- The base of a name is registered with the path of a participant. -/
theorem Following.registerBase (h : s.Following bases id o) (hsrc : x.source ∈ s.supply.sources)
    (name : Name) :
    ∃ s₁, s.registerBase x.path name = .ok s₁ ∧ s₁.Following bases id o ∧
      s.supply.Alike s₁.supply := by
  obtain ⟨supply, hreg, hsound, halike⟩ :=
    Writer.alike_register h.hosts.sound (h.hosts.sound.has_of_mem hsrc) name.base
  exact ⟨s.withSupply supply, registerBase_eq_ok_iff.mpr ⟨supply, hreg, rfl⟩,
    h.with_supply (h.hosts.of_alike halike hsound), halike⟩

omit [Payload α] in
/-- Opening the path and registering the name leave what is served as it is. -/
theorem Following.ready (h : s.Following bases id o) (hx : o.SavesThrough x)
    (hsrc : x.source ∈ s.supply.sources) {path : WritePath} {s₁ : Session α}
    (hpath : s.writePath id o = .ok (path, s₁)) (name : Name) :
    path = x.path ∧ ∃ t, s₁.registerBase x.path name = .ok t ∧
      t.Following bases id { o with writer := some x.path } ∧ s.supply.Alike t.supply := by
  obtain ⟨hpath', h₁, ha₁⟩ := h.writePath hx hsrc hpath
  have hsrc₁ : x.source ∈ s₁.supply.sources := by
    rw [ha₁.sources]
    exact hsrc
  obtain ⟨t, hreg, ht, ha⟩ := h₁.registerBase hsrc₁ name
  exact ⟨hpath', t, hreg, ht, ha₁.trans ha⟩

omit [Suite] in
/-- What was said of an edition's payload is what the edition tells. -/
theorem tells_of_payload (hr : o.Readable) {save : PendingSave α}
    (hbegin : o.state.beginSave gone = .ok (some save)) {fs : List Fragment}
    (hfs : payloadOf fs = save.value.map Payload.encode) : Tells fs save.value := by
  obtain ⟨hcan, hvalue, _⟩ := ObjectState.begun_of_beginSave hbegin
  cases hv : save.value with
  | none =>
    left
    rw [hfs, hv]
    exact ⟨rfl, rfl⟩
  | some y =>
    right
    rw [hv] at hvalue
    cases gone with
    | true => cases hvalue
    | false =>
      rcases hcan with hg | ⟨hdirty, _⟩
      · cases hg
      · refine ⟨Payload.encode y, y, ?_, hr hdirty y hvalue.symm, rfl⟩
        rw [hfs, hv]
        rfl

omit [Payload α] in
/-- What comes of the writing: all versions stay whole, and a write that is acknowledged has left an
edition of what was to be saved stored. -/
theorem Following.perform (hverify : Suite.VerifiesSigned) (h : s.Following bases id o)
    (hsrc : x.source ∈ s.supply.sources) {o' : VersionedObject α} {ready : Supply}
    {payload : Option Octets} {b : Name} (hbases : bases b) {v : Version} {w : Write}
    (hwrite : o'.toWrite ready payload (b.append v.toComponent) outstanding = .ok w)
    (hadmitted : w.Admitted x s.supply) {r : Except NetworkError WriteAck} {supply : Supply}
    (hperform : w.perform x.path s.supply = (r, supply)) :
    supply.Hosts bases ∧ s.supply.Grows supply ∧
      ∀ ack, r = .ok ack → ∃ key fs, supply.Stores (b.append v.toComponent) key fs ∧
        payloadOf fs = payload := by
  have hed := fun fs (hfs : x.fragments w.request s.supply = .ok fs) =>
    edition_of_toWrite hverify hwrite hadmitted.sized hfs
  obtain ⟨hhosts, hgrows, hstored⟩ := h.hosts.send hsrc hbases hadmitted.sized
    (fun fs hfs => (hed fs hfs).imp fun _ he => he.1) hadmitted.uncontested
  rw [← w.perform_eq, hperform] at hhosts hgrows hstored
  refine ⟨hhosts, hgrows, fun ack hack => ?_⟩
  obtain ⟨key, fs, hfs, hst⟩ := hstored ack hack
  obtain ⟨_, _, hpayload⟩ := hed fs hfs
  exact ⟨key, fs, hst, hpayload⟩

omit [Payload α] in
/-- Once the path is open it is taken. -/
theorem savesThrough_open (o : VersionedObject α) (state : ObjectState α) (watch : Watch)
    (x : Writer) :
    ({ o with state, watch, writer := some x.path } : VersionedObject α).SavesThrough x where
  opened _ hpath := (Option.some.inj hpath).symm
  chosen _ _ hwriter := nomatch hwriter

omit [Suite] in
/-- A version that is chosen is not earlier than the one held, so only one that is given can be. -/
theorem given_of_lt {clock : UInt64} {held : Option Version} {v k : Version}
    (hv : version.getD (.nextAfter clock held) = v) (hk : held = some k) (hlt : v < k) :
    version = some v := by
  cases version with
  | some u => exact congrArg some hv
  | none =>
    have hv' : Version.nextAfter clock held = v := hv
    rw [hk] at hv'
    rw [← hv'] at hlt
    exact absurd hlt (Version.not_nextAfter_lt clock k)

variable {run : SaveRun α}

/-- What comes of choosing the version, writing and recording. -/
theorem Following.writes (hverify : Suite.VerifiesSigned)
    (h : s.Following bases id { o with writer := some x.path }) (hsrc : x.source ∈ s.supply.sources)
    (hr : o.Readable) {save : PendingSave α} (hbegin : o.state.beginSave gone = .ok (some save))
    {v : Version} (hv : version.getD (.nextAfter s.supply.clock o.state.version) = v)
    (hpermits : s.Permits bases x run id o (save.value.map Payload.encode)
      (save.base.base.addVersion v) outstanding) {outcome : Except ObjectError Bool}
    (hwrites : s.Writes run id o x.path save (save.value.map Payload.encode) v outstanding outcome
      s') :
    ∃ state watch, s'.Following bases id { o with state, watch, writer := some x.path } ∧
      s.supply.Grows s'.supply ∧
      SavedAs bases s'.supply o.state gone version v outcome state := by
  obtain ⟨_, _, _, hb, _⟩ := ObjectState.begun_of_beginSave hbegin
  obtain ⟨b, hb', hbases⟩ := h.base
  obtain rfl : save.base = b := Option.some.inj (hb.symm.trans hb')
  have hplain := h.hosts.plain _ hbases
  have hname : save.base.base.addVersion v = save.base.append v.toComponent := by
    rw [Name.base_of_splitVersion?_eq_none hplain, Name.addVersion_of_splitVersion?_eq_none hplain]
  -- What is written later is what is ready now, on a network that has grown meanwhile.
  obtain ⟨⟨_, h₁, ⟨state₁, watch₁, rfl⟩, hstate₁, hedits₁⟩, hgrows₁⟩ := hpermits.before _ h
  have hsrc₁ := hgrows₁.sources _ hsrc
  cases hwrites with
  | unready => exact ⟨o.state, o.watch, h, .refl _, .same⟩
  | fails w e supply hwrite hperform =>
    obtain ⟨hhosts, hgrows, _⟩ := h₁.perform hverify hsrc₁ hbases (hname ▸ hwrite)
      (hpermits.admitted w hwrite) hperform
    refine ⟨state₁, watch₁, h₁.with_supply hhosts, hgrows₁.trans hgrows, ?_⟩
    rcases hstate₁ with hsame | hcurrent
    · rw [show state₁ = o.state from hsame]
      exact .same
    · exact .current (hcurrent.of_grows hgrows hhosts)
  | records w ack supply hwrite hperform =>
    obtain ⟨hhosts, hgrows, hstored⟩ := h₁.perform hverify hsrc₁ hbases (hname ▸ hwrite)
      (hpermits.admitted w hwrite) hperform
    obtain ⟨key, fs, hst, hpayload⟩ := hstored ack rfl
    obtain ⟨⟨_, h₂, ⟨state₂, watch₂, rfl⟩, hstate₂, hedits₂⟩, hgrows₂⟩ :=
      hpermits.after w ack supply hwrite hperform _ (h₁.with_supply hhosts)
    have hstate : state₂ = o.state ∨
        state₂.Current bases (run.after ((run.before s).withSupply supply)).supply := by
      rcases hstate₂ with hsame₂ | hcurrent₂
      · rw [show state₂ = state₁ from hsame₂]
        exact hstate₁.imp_right fun hcurrent =>
          (hcurrent.of_grows hgrows hhosts).of_grows hgrows₂ h₂.hosts
      · exact .inr hcurrent₂
    have hsaved := ObjectState.savedAs_commitSave hbegin hb hbases h₂.hosts.plain
      (hst.of_grows hgrows₂ (h₂.hosts.whole _ hbases v)) (tells_of_payload hr hbegin hpayload)
      (fun k hk hlt => given_of_lt hv hk hlt) hstate (hedits₂.trans hedits₁) ack.publisher
      ack.locator
    obtain ⟨b₂, hb₂, hbases₂⟩ := h₂.base
    refine ⟨_, watch₂, h₂.change (objects_modifyObject h₂.objects_eq _) rfl rfl h₂.hosts
      ⟨b₂, ObjectState.base_commitSave hb₂ (h₂.hosts.plain _ hbases₂) _, hbases₂⟩ h₂.tuned,
      (hgrows₁.trans hgrows).trans hgrows₂, hsaved⟩

/-- A save keeps following, of a value or of a tombstone. -/
theorem Following.saves (hverify : Suite.VerifiesSigned) (h : s.Following bases id o)
    (hx : o.SavesThrough x) (hsrc : x.source ∈ s.supply.sources) (hr : o.Readable)
    (hencode : ∀ y, run.encode y = .ok (Payload.encode y))
    (hpermits : ∀ save path t, s.Begun id gone o save path t →
      t.Permits bases x run id o (save.value.map Payload.encode) (save.base.base.addVersion
        (version.getD (.nextAfter s.supply.clock o.state.version))) outstanding)
    {outcome : Except ObjectError Bool}
    (hsaves : s.Saves run id gone version outstanding outcome s') :
    SavedTo bases id o x gone version s s' outcome := by
  have hvalue : ∀ value : Option α, value.mapM run.encode = .ok (value.map Payload.encode) := by
    rintro (_ | y)
    · rfl
    · show (do return some (← run.encode y)) = _
      rw [hencode]
      rfl
  cases hsaves with
  | vain => exact ⟨o.state, o.watch, o.writer, h, hx, .refl _, .same⟩
  | unregistered o₀ save path s₁ e ho hpath hregister =>
    obtain rfl : o = o₀ := Option.some.inj (h.object?_eq.symm.trans ho)
    obtain ⟨rfl, t, hreg, _⟩ := h.ready hx hsrc hpath save.base
    cases hregister.symm.trans hreg
  | unencoded o₀ save path t e hbegun hfails => cases hfails.symm.trans (hvalue save.value)
  | writes o₀ save path t payload hbegun hpayload hwrites =>
    obtain rfl : o = o₀ := Option.some.inj (h.object?_eq.symm.trans hbegun.object?_eq)
    obtain rfl := Except.ok.inj (hpayload.symm.trans (hvalue save.value))
    -- The path that was opened is the one that the object saves through.
    obtain ⟨s₁, hpath, hregister⟩ := hbegun.ready
    obtain ⟨rfl, t', hreg, ht, halike⟩ := h.ready hx hsrc hpath save.base
    obtain rfl : t = t' := Except.ok.inj (hregister.symm.trans hreg)
    have hsrc' : x.source ∈ t.supply.sources := by
      rw [halike.sources]
      exact hsrc
    obtain ⟨_, _, _, _, _, hversion⟩ := ObjectState.begun_of_beginSave hbegun.beginSave_eq
    rw [hversion, halike.clock] at hwrites
    obtain ⟨state, watch, hfollowing, hgrows, hresult⟩ :=
      ht.writes hverify hsrc' hr hbegun.beginSave_eq (by rw [halike.clock])
        (hpermits save _ t hbegun) hwrites
    exact ⟨state, watch, some x.path, hfollowing, savesThrough_open o state watch x,
      halike.grows.trans hgrows, hresult⟩

end Session

end

end NamedContent
