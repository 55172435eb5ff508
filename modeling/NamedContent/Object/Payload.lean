import NamedContent.Cbor.Typed
import NamedContent.Cbor.Value
import Std.Data.TreeMap

/-!
# Payloads

The types of values that a versioned object can hold: those that can be written as the payload of a
version and read back. Values are written as CBOR; a reader takes a value from the front of the
payload and leaves the rest alone.
-/

namespace NamedContent

open Cbor

/-- Types that can be the payload of a version. -/
class Payload (α : Type) where
  encode : α → Octets
  decode : Octets → Option α

instance : Payload String where
  encode s := (Value.text s).encode
  decode b := (readTextValue b).map Prod.fst

instance : Payload (List UInt32) where
  encode xs := (Value.array (xs.map fun x => .int x.toNat)).encode
  decode b := (readUInt32s b).map Prod.fst

/-- Maps from texts to numbers of 64 bits, written in order of the texts. Of several entries with
one text the last one counts. -/
instance : Payload (Std.TreeMap String Int64) where
  encode m := (Value.map (m.toList.map fun (k, v) => (.text k, .int v.toInt))).encode
  decode b := (readTextEntries b).map fun (es, _) => es.foldl (fun m (k, v) => m.insert k v) ∅

instance : Payload (Option String) where
  encode s := (s.elim Value.null .text).encode
  decode b := (readOptionalText b).map Prod.fst

end NamedContent
