import NamedContent.Network.Stream
import NamedContent.Network.Supply

/-!
# Write paths

A write path takes signed or unsigned content to where the network finds it. A raw path puts
fragments on the network, all or none. A repository path saves them one after the other in a store
that the network serves; a conflict stops it where it stands. The mode of a path never changes.

Writing changes the supply even when it fails half-way, so every write returns the supply next to
its outcome.
-/

namespace NamedContent

structure WriteAck where
  publisher : Publisher
  locator : KeyLocator
  fragments : Nat
  /-- Whether the write answered the outstanding interest. -/
  satisfied : Bool

/-- A way to write to a network. -/
structure WritePath where
  mode : SaveMode
  /-- Make sure that interests under a name reach the writer. -/
  register : Name → Supply → Except NetworkError Supply
  putStream : StreamWrite → Supply → Except NetworkError WriteAck × Supply
  putFragment : Fragment → Option Interest → Supply → Except NetworkError WriteAck × Supply

namespace WritePath

variable [Suite]

def answers (outstanding : Option Interest) (fs : List Fragment) : Bool :=
  outstanding.any (·.answeredBy fs)

def ackStream (stream : SignedStream) (outstanding : Option Interest) : WriteAck :=
  ⟨stream.publisher, stream.locator, stream.fragments.length, answers outstanding stream.fragments⟩

def ackFragment (f : Fragment) (outstanding : Option Interest) : WriteAck :=
  ⟨f.publisher, f.info.locator, 1, answers outstanding [f]⟩

/-- The write path of which `place` writes fragments. -/
def ofPlace (mode : SaveMode) (register : Name → Supply → Except NetworkError Supply)
    (place : List Fragment → Supply → Except NetworkError Unit × Supply) (keys : KeyRing) :
    WritePath where
  mode
  register
  putStream w s :=
    match w.sign keys s.config s.clock with
    | .error e => (.error e, s)
    | .ok stream =>
      let (outcome, s) := place stream.fragments s
      (outcome.map fun _ => ackStream stream w.outstanding, s)
  putFragment f outstanding s :=
    let (outcome, s) := place [f] s
    (outcome.map fun _ => ackFragment f outstanding, s)

/-! ### Raw writes -/

def putDirect (fs : List Fragment) (s : Supply) : Except NetworkError Unit × Supply :=
  match s.put fs with
  | .ok (_, s) => (.ok (), s)
  | .error e => (.error e, s)

def raw (keys : KeyRing) : WritePath :=
  ofPlace .raw (fun n s => .ok (s.register n)) putDirect keys

/-! ### Repository writes -/

/-- Save fragments one after the other, up to the first conflict or fault. -/
def saveAll : List Fragment → Store → Except NetworkError Unit × Store
  | [], store => (.ok (), store)
  | f :: fs, store =>
    match store.save f with
    | .error e => (.error (.store e), store)
    | .ok (.conflict _, store) => (.error (.writeConflict f.name), store)
    | .ok (_, store) => saveAll fs store

/-- Save fragments in a store, and announce them if all were saved. -/
def putStored (id : StoreId) (fs : List Fragment) (s : Supply) :
    Except NetworkError Unit × Supply :=
  let (outcome, store) := saveAll fs (s.store id)
  let s := s.setStore id store
  match outcome with
  | .ok _ => (.ok (), s.announce)
  | .error e => (.error e, s)

def registerStored (id : StoreId) (n : Name) (s : Supply) : Supply :=
  (s.setStore id ((s.store id).addNamespace n)).register n

def repository (id : StoreId) (keys : KeyRing) : WritePath :=
  ofPlace .repository (fun n s => .ok (registerStored id n s)) (putStored id) keys

/-! ### Opening -/

/-- Open the write path of a mode. A repository path needs a store, which is attached. -/
def ofMode (mode : SaveMode) (store : Option StoreId) (keys : KeyRing) (s : Supply) :
    Except NetworkError (WritePath × Supply) :=
  match mode, store with
  | .raw, _ => .ok (raw keys, s)
  | .repository, some id => .ok (repository id keys, s.attach id)
  | .repository, none => .error (.writePathUnavailable .repository)

end WritePath

end NamedContent
