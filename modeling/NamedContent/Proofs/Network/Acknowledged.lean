import NamedContent.Proofs.Network.Placing
import NamedContent.Proofs.Network.Stream
import NamedContent.Suite.Standard

/-!
# What an acknowledgement promises

Any number of participants write to one network, each through a raw path or through a repository
path to one of the stores, while others publish, put and attach. Nothing that a source holds ever
goes away (`run_grows`). So a source holds an acknowledged write for good, and lookups find it
unless a source that comes before it holds something else under the name. A write fails if its own
source holds something in its way, and only then: `get_of_acknowledged` is all of this together. An
acknowledgement does not promise that lookups return what was written (`not_always_returned`).
-/

namespace NamedContent

/-! ### Participants -/

/-- A participant that writes: to where, and with which keys. -/
structure Writer where
  source : Source
  keys : KeyRing

/-- Something to write. -/
inductive WriteRequest where
  /-- A payload that is cut and signed. -/
  | stream (w : StreamWrite)
  /-- A fragment that is signed already, with the interest that it should answer. -/
  | fragment (f : Fragment) (outstanding : Option Interest)

/-- A network and the participants that write to it. -/
structure World where
  supply : Supply
  writers : List Writer := []

/-- What can happen to a network. A writer is named by its place in the order of opening. -/
inductive Op where
  | publish (fs : List Fragment)
  | put (fs : List Fragment)
  | addStore (store : Store)
  | attach (id : StoreId)
  | openWriter (x : Writer)
  | register (writer : Nat) (n : Name)
  | tick (clock : UInt64)
  | write (writer : Nat) (w : WriteRequest)

instance (s : Supply) (src : Source) : Decidable (s.Has src) :=
  match src with
  | .direct => .isTrue trivial
  | .store id => inferInstanceAs (Decidable (id.index < s.stores.length))

section

variable [Suite]

namespace Writer

/-- Open the write path of a participant. -/
def openPath (x : Writer) (s : Supply) : Except NetworkError (WritePath × Supply) :=
  match x.source with
  | .direct => WritePath.ofMode .raw none x.keys s
  | .store id => WritePath.ofMode .repository (some id) x.keys s

/-- The write path of a participant, once it is open. -/
def path (x : Writer) : WritePath :=
  match x.source with
  | .direct => .raw x.keys
  | .store id => .repository id x.keys

/-- Send a write down the participant's path. -/
def send (x : Writer) (w : WriteRequest) (s : Supply) : Except NetworkError WriteAck × Supply :=
  match w with
  | .stream w => x.path.putStream w s
  | .fragment f outstanding => x.path.putFragment f outstanding s

/-- The fragments of a write, if it can be signed. -/
def fragments (x : Writer) (w : WriteRequest) (s : Supply) : Except NetworkError (List Fragment) :=
  match w with
  | .stream w => (w.sign x.keys s.config s.clock).map SignedStream.fragments
  | .fragment f _ => .ok [f]

end Writer

namespace WriteRequest

/-- All lengths in a write fit. -/
def Sized : WriteRequest → Prop
  | .stream w => w.Sized
  | .fragment f _ => f.Storable

end WriteRequest

namespace World

/-- The state after something happened. Stores and writers that do not exist do nothing. -/
def step (w : World) : Op → World
  | .publish fs => { w with supply := (w.supply.publish fs).2 }
  | .put fs => { w with supply := (WritePath.putDirect fs w.supply).2 }
  | .addStore store => { w with supply := (w.supply.addStore store).2 }
  | .attach id => if w.supply.Has (.store id) then { w with supply := w.supply.attach id } else w
  | .openWriter x =>
    if w.supply.Has x.source then
      match x.openPath w.supply with
      | .ok (_, supply) => ⟨supply, w.writers ++ [x]⟩
      | .error _ => w
    else w
  | .register i n =>
    match w.writers[i]? with
    | some x =>
      match x.path.register n w.supply with
      | .ok supply => { w with supply }
      | .error _ => w
    | none => w
  | .tick clock => { w with supply := { w.supply with clock } }
  | .write i write =>
    match w.writers[i]? with
    | some x => { w with supply := (x.send write w.supply).2 }
    | none => w

/-- The state after a run. -/
def run (w : World) (ops : List Op) : World := ops.foldl step w

/-- A network that nothing has happened to. -/
def empty (config : NetworkConfig) : World := ⟨{ config }, []⟩

end World

/-- An added store keeps what is in it, and a write has lengths that fit. -/
def Op.Admissible : Op → Prop
  | .addStore store => store.Sound
  | .write _ w => w.Sized
  | _ => True

/-! ### Sending a write -/

namespace Writer

/-- The path that is opened is the path of the participant; a store is attached. -/
theorem openPath_eq (x : Writer) (s : Supply) :
    x.openPath s = .ok (x.path, match x.source with
      | .direct => s
      | .store id => s.attach id) := by
  unfold openPath path
  cases x.source <;> rfl

theorem putStream_eq (x : Writer) (w : StreamWrite) (s : Supply) :
    x.path.putStream w s = match w.sign x.keys s.config s.clock with
      | .error e => (.error e, s)
      | .ok stream =>
        ((WritePath.place x.source stream.fragments s).1.map fun _ =>
            WritePath.ackStream stream w.outstanding,
          (WritePath.place x.source stream.fragments s).2) := by
  unfold path
  cases x.source <;> rfl

theorem putFragment_eq (x : Writer) (f : Fragment) (outstanding : Option Interest) (s : Supply) :
    x.path.putFragment f outstanding s =
      ((WritePath.place x.source [f] s).1.map fun _ => WritePath.ackFragment f outstanding,
        (WritePath.place x.source [f] s).2) := by
  unfold path
  cases x.source <;> rfl

/-- The fragments of a stream are what signing it produced. -/
theorem sign_of_fragments {x : Writer} {w : StreamWrite} {s : Supply} {fs : List Fragment}
    (h : x.fragments (.stream w) s = .ok fs) :
    ∃ stream, w.sign x.keys s.config s.clock = .ok stream ∧ fs = stream.fragments := by
  cases hs : w.sign x.keys s.config s.clock with
  | error e =>
    rw [fragments, hs] at h
    cases h
  | ok stream =>
    rw [fragments, hs] at h
    cases h
    exact ⟨stream, rfl, rfl⟩

/-- What cannot be signed is not written. -/
theorem send_of_error {x : Writer} {w : WriteRequest} {s : Supply} {e : NetworkError}
    (h : x.fragments w s = .error e) : x.send w s = (.error e, s) := by
  cases w with
  | fragment f outstanding => cases h
  | stream w =>
    have hsign : w.sign x.keys s.config s.clock = .error e := by
      cases hs : w.sign x.keys s.config s.clock with
      | error e' =>
        rw [fragments, hs] at h
        cases h
        rfl
      | ok stream =>
        rw [fragments, hs] at h
        cases h
    show x.path.putStream w s = _
    rw [putStream_eq, hsign]

/-- The fragments of a write go to the participant's source. -/
theorem send_of_fragments {x : Writer} {w : WriteRequest} {s : Supply} {fs : List Fragment}
    (h : x.fragments w s = .ok fs) :
    ∃ ack, x.send w s =
      ((WritePath.place x.source fs s).1.map fun _ => ack, (WritePath.place x.source fs s).2) := by
  cases w with
  | fragment f outstanding =>
    cases h
    exact ⟨_, x.putFragment_eq f outstanding s⟩
  | stream w =>
    obtain ⟨stream, hs, rfl⟩ := sign_of_fragments h
    refine ⟨WritePath.ackStream stream w.outstanding, ?_⟩
    show x.path.putStream w s = _
    rw [putStream_eq, hs]

theorem storable_of_fragments {x : Writer} {w : WriteRequest} {s : Supply} {fs : List Fragment}
    (hw : w.Sized) (h : x.fragments w s = .ok fs) :
    (∀ f ∈ fs, f.Storable) ∧ DistinctNames fs := by
  cases w with
  | fragment f outstanding =>
    cases h
    refine ⟨fun g hg => ?_, List.nodup_singleton _⟩
    rw [List.mem_singleton.mp hg]
    exact hw
  | stream w =>
    obtain ⟨stream, hs, rfl⟩ := sign_of_fragments h
    exact ⟨StreamWrite.storable_of_sign hs hw, StreamWrite.distinct_of_sign hs hw.payload_lt⟩

/-- Registering a name leaves what is held as it is. -/
theorem alike_register {s : Supply} (h : s.Sound) {x : Writer} (hx : s.Has x.source) (n : Name) :
    ∃ s', x.path.register n s = .ok s' ∧ s'.Sound ∧ s.Alike s' := by
  unfold path
  cases hsrc : x.source with
  | direct =>
    exact ⟨s.register n, rfl, h.of_content rfl rfl rfl, Supply.alike_of_content rfl rfl rfl rfl rfl⟩
  | store id =>
    rw [hsrc] at hx
    obtain ⟨hsound, halike⟩ := Supply.alike_setStore h hx ((h.store id).addNamespace n)
      ((s.store id).holds?_addNamespace n)
    exact ⟨WritePath.registerStored id n s, rfl, hsound.of_content rfl rfl rfl,
      halike.trans (Supply.alike_of_content rfl rfl rfl rfl rfl)⟩

/-- Opening a path to a source that is served already leaves what is held as it is. -/
theorem alike_openPath {s : Supply} (h : s.Sound) {x : Writer} (hsrc : x.source ∈ s.sources) :
    ∃ s', x.openPath s = .ok (x.path, s') ∧ s'.Sound ∧ s.Alike s' := by
  rw [x.openPath_eq]
  refine ⟨_, rfl, ?_⟩
  cases hsource : x.source with
  | direct => exact ⟨h, .refl s⟩
  | store id =>
    rw [hsource] at hsrc
    exact Supply.alike_attach h hsrc

end Writer

/-! ### Runs -/

namespace World

/-- All sources keep what was put in them, and the sources of all writers are served. -/
structure Sound (w : World) : Prop where
  supply : w.supply.Sound
  has : ∀ x ∈ w.writers, w.supply.Has x.source
  served : ∀ x ∈ w.writers, x.source ∈ w.supply.sources

/-- A later state has all that an earlier one had. -/
structure Grows (w w' : World) : Prop where
  supply : w.supply.Grows w'.supply
  writers : w.writers <+: w'.writers

omit [Suite] in
theorem Grows.refl (w : World) : w.Grows w := ⟨.refl _, List.prefix_refl _⟩

omit [Suite] in
theorem Grows.trans {u v w : World} (h : u.Grows v) (h' : v.Grows w) : u.Grows w :=
  ⟨h.supply.trans h'.supply, h.writers.trans h'.writers⟩

theorem sound_empty (config : NetworkConfig) : (empty config).Sound :=
  ⟨Supply.sound_new config, nofun, nofun⟩

/-- Only the supply changes, and it grows. -/
theorem Sound.with_supply {w : World} (h : w.Sound) {s : Supply}
    (hs : s.Sound ∧ w.supply.Grows s) :
    ({ w with supply := s } : World).Sound ∧ w.Grows { w with supply := s } :=
  ⟨⟨hs.1, fun x hx => hs.2.has _ (h.has x hx), fun x hx => hs.2.sources _ (h.served x hx)⟩,
    ⟨hs.2, List.prefix_refl _⟩⟩

theorem sound_send {s : Supply} (h : s.Sound) {x : Writer} (hx : s.Has x.source) {w : WriteRequest}
    (hw : w.Sized) : (x.send w s).2.Sound ∧ s.Grows (x.send w s).2 := by
  cases hf : x.fragments w s with
  | error e =>
    rw [Writer.send_of_error hf]
    exact ⟨h, .refl s⟩
  | ok fs =>
    obtain ⟨ack, hsend⟩ := Writer.send_of_fragments hf
    rw [hsend]
    exact WritePath.place_grows h hx (Writer.storable_of_fragments hw hf).1

theorem sound_openPath {s : Supply} (h : s.Sound) {x : Writer} (hx : s.Has x.source) {p : WritePath}
    {s' : Supply} (hopen : x.openPath s = .ok (p, s')) :
    s'.Sound ∧ s.Grows s' ∧ x.source ∈ s'.sources := by
  rw [Writer.openPath_eq] at hopen
  cases hsrc : x.source with
  | direct =>
    rw [hsrc] at hopen
    cases hopen
    exact ⟨h, .refl s, List.mem_cons_self⟩
  | store id =>
    rw [hsrc] at hopen hx
    cases hopen
    exact Supply.attach_grows h hx

/-- Whatever happens, nothing that a source holds goes away. -/
theorem step_grows {w : World} (h : w.Sound) {op : Op} (hop : op.Admissible) :
    (w.step op).Sound ∧ w.Grows (w.step op) := by
  cases op with
  | publish fs =>
    obtain ⟨hsound, hgrows, _⟩ := Supply.publish_grows h.supply fs
    exact h.with_supply ⟨hsound, hgrows⟩
  | put fs => exact h.with_supply (WritePath.putDirect_grows h.supply fs)
  | addStore store => exact h.with_supply (Supply.addStore_grows h.supply hop)
  | attach id =>
    dsimp only [step]
    split
    · next hid =>
      obtain ⟨hsound, hgrows, _⟩ := Supply.attach_grows h.supply hid
      exact h.with_supply ⟨hsound, hgrows⟩
    · exact ⟨h, .refl w⟩
  | openWriter x =>
    dsimp only [step]
    split
    · next hx =>
      split
      · next p s' hopen =>
        obtain ⟨hsound, hgrows, hserved⟩ := sound_openPath h.supply hx hopen
        obtain ⟨hold, _⟩ := h.with_supply ⟨hsound, hgrows⟩
        -- The writers that were there keep their sources, and opening serves that of the new one.
        refine ⟨⟨hsound, fun y hy => ?_, fun y hy => ?_⟩, hgrows, List.prefix_append _ _⟩
        · rcases List.mem_append.mp hy with hy | hy
          · exact hold.has y hy
          · rw [List.mem_singleton.mp hy]
            exact hgrows.has _ hx
        · rcases List.mem_append.mp hy with hy | hy
          · exact hold.served y hy
          · rw [List.mem_singleton.mp hy]
            exact hserved
      · exact ⟨h, .refl w⟩
    · exact ⟨h, .refl w⟩
  | register i n =>
    dsimp only [step]
    split
    · next x hx =>
      have hhas := h.has x (List.mem_of_getElem? hx)
      obtain ⟨s', hreg, hsound, halike⟩ := Writer.alike_register h.supply hhas n
      rw [hreg]
      exact h.with_supply ⟨hsound, halike.grows⟩
    · exact ⟨h, .refl w⟩
  | tick clock =>
    exact h.with_supply ⟨h.supply.of_content rfl rfl rfl, .of_content rfl rfl rfl⟩
  | write i write =>
    dsimp only [step]
    split
    · next x hx =>
      have hhas := h.has x (List.mem_of_getElem? hx)
      exact h.with_supply (sound_send h.supply hhas hop)
    · exact ⟨h, .refl w⟩

theorem run_grows {w : World} (h : w.Sound) {ops : List Op} (hops : ∀ op ∈ ops, op.Admissible) :
    (w.run ops).Sound ∧ w.Grows (w.run ops) := by
  induction ops generalizing w with
  | nil => exact ⟨h, .refl w⟩
  | cons op ops ih =>
    obtain ⟨hsound, hgrows⟩ := step_grows h (hops op List.mem_cons_self)
    obtain ⟨ihSound, ihGrows⟩ := ih hsound fun o ho => hops o (List.mem_cons_of_mem _ ho)
    exact ⟨ihSound, hgrows.trans ihGrows⟩

theorem run_append (w : World) (past ops : List Op) :
    w.run (past ++ ops) = (w.run past).run ops := List.foldl_append

end World

/-! ### Acknowledged writes -/

/-- A source holds a fragment, or for a store one with the same digest, and a lookup of the name is
answered by it or by what a source before it holds. -/
def Supply.Answers (s : Supply) (src : Source) (f : Fragment) : Prop :=
  ∃ held, (held = f ∨ src ≠ .direct ∧ held.Collides f) ∧ s.holds? src f.name = some held ∧
    s.get (.exact f.name) =
      .ok (((s.ahead src).findSome? fun before => s.holds? before f.name).or (some held))

theorem Supply.Answers.of_holds {s : Supply} (h : s.Sound) {src : Source} (hsrc : src ∈ s.sources)
    {f : Fragment} (hf : WritePath.Holds s src f) : s.Answers src f := by
  obtain ⟨held, hheld, htell⟩ := hf
  exact ⟨held, Source.eq_or_collides htell, hheld, get_exact_of_holds h hsrc hheld⟩

/-- What was put on the network directly is returned. -/
theorem Supply.Answers.get_direct {s : Supply} {f : Fragment} (h : s.Answers .direct f) :
    s.get (.exact f.name) = .ok (some f) := by
  obtain ⟨held, hheld, _, hget⟩ := h
  rcases hheld with rfl | ⟨hne, _⟩
  · exact hget
  · exact absurd rfl hne

/-- What comes of a write: an acknowledgement and the fragments in the source, unless something
there is in the way. -/
theorem send_cases {s : Supply} (h : s.Sound) {x : Writer} (hx : s.Has x.source) {w : WriteRequest}
    (hw : w.Sized) {fs : List Fragment} (hfs : x.fragments w s = .ok fs) :
    (∃ f ∈ fs, (x.send w s).1 = .error (.writeConflict f.name) ∧
      WritePath.Obstructs s x.source f) ∨
    ∃ ack, (x.send w s).1 = .ok ack ∧ (∀ f ∈ fs, WritePath.Holds (x.send w s).2 x.source f) ∧
      ∀ f ∈ fs, ¬ WritePath.Obstructs s x.source f := by
  obtain ⟨ack, hsend⟩ := Writer.send_of_fragments hfs
  obtain ⟨hstorable, hdistinct⟩ := Writer.storable_of_fragments hw hfs
  rw [hsend]
  rcases WritePath.place_cases h hx hstorable hdistinct with
    ⟨f, hf, herr, hobs⟩ | ⟨hok, hall, hfree⟩
  · left
    refine ⟨f, hf, ?_, hobs⟩
    rw [herr]
    rfl
  · right
    refine ⟨ack, ?_, hall, hfree⟩
    rw [hok]
    rfl

/-- What a write left in its source is served from there in all later states. -/
theorem World.answers_of_holds {w : World} (h : w.Sound) {i : Nat} {x : Writer}
    (hx : w.writers[i]? = some x) {request : WriteRequest} (hsized : request.Sized) {f : Fragment}
    (hf : WritePath.Holds (x.send request w.supply).2 x.source f) {later : List Op}
    (hlater : ∀ op ∈ later, op.Admissible) :
    x.source ∈ ((w.step (.write i request)).run later).supply.sources ∧
      ((w.step (.write i request)).run later).supply.Answers x.source f := by
  have hstep : w.step (.write i request) = { w with supply := (x.send request w.supply).2 } := by
    dsimp only [World.step]
    rw [hx]
  have hop : (Op.write i request).Admissible := hsized
  obtain ⟨hafter, _⟩ := World.step_grows h hop
  obtain ⟨hend, hgrows⟩ := World.run_grows hafter hlater
  rw [hstep] at hafter hend hgrows ⊢
  have hserved := hgrows.supply.sources _ (hafter.served x (List.mem_of_getElem? hx))
  exact ⟨hserved, .of_holds hend.supply hserved (hf.of_grows hgrows.supply)⟩

/-- A write fails with a conflict exactly if its own source holds something in the way of one of its
fragments. Once it is acknowledged, the source holds them in all later states, and a lookup of one
of their names returns it unless a source that comes before holds something under the name. For what
was put on the network directly there is no such source. -/
theorem get_of_acknowledged (config : NetworkConfig) {past : List Op}
    (hpast : ∀ op ∈ past, op.Admissible) {i : Nat} {x : Writer}
    (hx : ((World.empty config).run past).writers[i]? = some x) {w : WriteRequest} (hw : w.Sized) :
    let s := ((World.empty config).run past).supply
    (∀ e, x.fragments w s = .error e → x.send w s = (.error e, s)) ∧
    ∀ fs, x.fragments w s = .ok fs →
      ((∃ f ∈ fs, (x.send w s).1 = .error (.writeConflict f.name)) ↔
        ∃ f ∈ fs, WritePath.Obstructs s x.source f) ∧
      ((∃ ack, (x.send w s).1 = .ok ack) ↔ ∀ f ∈ fs, ¬ WritePath.Obstructs s x.source f) ∧
      ∀ ack, (x.send w s).1 = .ok ack → ∀ later, (∀ op ∈ later, op.Admissible) → ∀ f ∈ fs,
        let s' := ((World.empty config).run (past ++ .write i w :: later)).supply
        x.source ∈ s'.sources ∧ s'.Answers x.source f ∧
          (x.source = .direct → s'.get (.exact f.name) = .ok (some f)) := by
  intro s
  obtain ⟨hsound, _⟩ := World.run_grows (World.sound_empty config) hpast
  have hhas : s.Has x.source := hsound.has x (List.mem_of_getElem? hx)
  refine ⟨fun e he => Writer.send_of_error he, fun fs hfs => ?_⟩
  -- Either something is in the way of a fragment and the write fails, or nothing is and all are
  -- held afterwards. The equivalences are read off this.
  have hcases := send_cases hsound.supply hhas hw hfs
  refine ⟨⟨?_, ?_⟩, ⟨?_, ?_⟩, ?_⟩
  · rintro ⟨f, hf, herr⟩
    rcases hcases with ⟨g, hg, _, hobs⟩ | ⟨ack, hok, _⟩
    · exact ⟨g, hg, hobs⟩
    · rw [hok] at herr
      cases herr
  · rintro ⟨f, hf, hobs⟩
    rcases hcases with ⟨g, hg, herr, _⟩ | ⟨_, _, _, hfree⟩
    · exact ⟨g, hg, herr⟩
    · exact absurd hobs (hfree f hf)
  · rintro ⟨ack, hok⟩
    rcases hcases with ⟨g, _, herr, _⟩ | ⟨_, _, _, hfree⟩
    · rw [hok] at herr
      cases herr
    · exact hfree
  · intro hfree
    rcases hcases with ⟨g, hg, _, hobs⟩ | ⟨ack, hok, _⟩
    · exact absurd hobs (hfree g hg)
    · exact ⟨ack, hok⟩
  · intro ack hok later hlater f hf s'
    have hheld : WritePath.Holds (x.send w s).2 x.source f := by
      rcases hcases with ⟨g, _, herr, _⟩ | ⟨_, _, hall, _⟩
      · rw [hok] at herr
        cases herr
      · exact hall f hf
    have hrun : (World.empty config).run (past ++ .write i w :: later) =
        (((World.empty config).run past).step (.write i w)).run later := World.run_append _ _ _
    obtain ⟨hserved, hanswers⟩ := World.answers_of_holds hsound hx hw hheld hlater
    rw [← hrun] at hserved hanswers
    refine ⟨hserved, hanswers, fun hdirect => ?_⟩
    rw [hdirect] at hanswers
    exact hanswers.get_direct

end

/-! ### Two participants under one name -/

/-- A fragment of one byte under the name of some content. -/
def oneByte (b : UInt8) : Fragment where
  name := ⟨[.ofText "n"]⟩
  info := ⟨⟨.replicate 32 1⟩, 0, .data, none, .named .root none, none⟩
  content := [b]
  signature := ⟨.replicate 64 0⟩

theorem storable_oneByte (b : UInt8) : (oneByte b).Storable := by
  have hone : 1 < 2 ^ 64 := by omega
  refine ⟨⟨⟨hone, ?_⟩, ?_, hone⟩, ?_⟩
  · intro c hc
    rw [List.mem_singleton.mp hc]
    decide
  · intro n p hl
    cases hl
    exact ⟨by decide, fun c hc => by cases hc⟩
  · show Name.Short ⟨[.ofText "n"]⟩
    decide

/-- One participant writes through a store, another puts fragments on the network. -/
def twoWriters (keys : KeyRing) : List Op :=
  [.addStore (.memory .empty), .openWriter ⟨.store ⟨0⟩, keys⟩, .openWriter ⟨.direct, keys⟩]

theorem admissible_twoWriters [Suite] (keys : KeyRing) :
    ∀ op ∈ twoWriters keys, op.Admissible := by
  intro op hop
  simp only [twoWriters, List.mem_cons, List.not_mem_nil, or_false] at hop
  rcases hop with rfl | rfl | rfl
  · exact Supply.sound_empty
  · trivial
  · trivial

/-- What is put on the network stays there, whatever a store takes afterwards. -/
theorem get_of_acknowledged_oneByte :
    ((World.empty {}).run (twoWriters ⟨⟨.replicate 32 1⟩, [], []⟩ ++
        [.write 1 (.fragment (oneByte 1) none), .write 0 (.fragment (oneByte 2) none)])).supply.get
      (.exact (oneByte 1).name) = .ok (some (oneByte 1)) := by
  have h := get_of_acknowledged {} (i := 1) (x := ⟨.direct, _⟩) (w := .fragment (oneByte 1) none)
    (admissible_twoWriters ⟨⟨.replicate 32 1⟩, [], []⟩) rfl (storable_oneByte 1)
  refine ((h.2 _ rfl).2.2 _ rfl [.write 0 (.fragment (oneByte 2) none)] ?_ _
    (List.mem_singleton.mpr rfl)).2.2 rfl
  intro op hop
  rw [List.mem_singleton.mp hop]
  exact storable_oneByte 2

/-- A store acknowledges a fragment, and lookups return what somebody had put on the network. -/
theorem not_always_returned :
    ¬ ∀ (config : NetworkConfig) (past later : List Op) (i : Nat) (x : Writer) (w : WriteRequest)
        (fs : List Fragment) (ack : WriteAck),
      (∀ op ∈ past ++ .write i w :: later, op.Admissible) →
      ((World.empty config).run past).writers[i]? = some x →
      x.fragments w ((World.empty config).run past).supply = .ok fs →
      (x.send w ((World.empty config).run past).supply).1 = .ok ack →
      ∀ f ∈ fs, ((World.empty config).run (past ++ .write i w :: later)).supply.get
        (.exact f.name) = .ok (some f) := by
  intro h
  have hop : ∀ op ∈ twoWriters ⟨⟨.replicate 32 1⟩, [], []⟩ ++
      [.write 1 (.fragment (oneByte 1) none)] ++ [.write 0 (.fragment (oneByte 2) none)],
      op.Admissible := by
    intro op hop
    rw [List.mem_append, List.mem_append, List.mem_singleton, List.mem_singleton] at hop
    rcases hop with (hop | rfl) | rfl
    · exact admissible_twoWriters _ op hop
    · exact storable_oneByte 1
    · exact storable_oneByte 2
  have hget := h {} _ [] 0 _ _ _ _ hop rfl rfl rfl _ (List.mem_singleton.mpr rfl)
  exact absurd hget (by decide)

end NamedContent
