import NamedContent.Cbor.Head
import NamedContent.Cbor.Typed
import NamedContent.Cbor.Value
import NamedContent.Error
import NamedContent.Fragment.Basic
import NamedContent.Fragment.Codec
import NamedContent.Fragment.Signing
import NamedContent.Fragment.Validation
import NamedContent.Hash.Blake3
import NamedContent.Hash.Sha512
import NamedContent.Interest.Basic
import NamedContent.Interest.Bloom
import NamedContent.Interest.Exclude
import NamedContent.Interest.Versions
import NamedContent.Name.Basic
import NamedContent.Name.Component
import NamedContent.Name.Map
import NamedContent.Name.Marked
import NamedContent.Name.Profile
import NamedContent.Name.Uri
import NamedContent.Name.Version
import NamedContent.Network.Basic
import NamedContent.Network.Config
import NamedContent.Network.Delivery
import NamedContent.Network.Error
import NamedContent.Network.Keys
import NamedContent.Network.Reader
import NamedContent.Network.Recorder
import NamedContent.Network.Stream
import NamedContent.Network.Supply
import NamedContent.Network.WritePath
import NamedContent.Object.Config
import NamedContent.Object.Error
import NamedContent.Object.Follow
import NamedContent.Object.Payload
import NamedContent.Object.Reading
import NamedContent.Object.Save
import NamedContent.Object.Session
import NamedContent.Object.State
import NamedContent.Object.Update
import NamedContent.Object.Watch
import NamedContent.Octets
import NamedContent.Octets.Hex
import NamedContent.Proofs.Cbor.Head
import NamedContent.Proofs.Cbor.Value
import NamedContent.Proofs.Fragment.Canonical
import NamedContent.Proofs.Fragment.Codec
import NamedContent.Proofs.Fragment.Validity
import NamedContent.Proofs.Interest.Accounting
import NamedContent.Proofs.Interest.Exclusion
import NamedContent.Proofs.Interest.Foremost
import NamedContent.Proofs.Interest.Preference
import NamedContent.Proofs.Interest.Recognising
import NamedContent.Proofs.Interest.Selection
import NamedContent.Proofs.Interest.Spilling
import NamedContent.Proofs.Interest.Versions
import NamedContent.Proofs.Name.Canonical
import NamedContent.Proofs.Name.Grammar
import NamedContent.Proofs.Name.Map
import NamedContent.Proofs.Name.Marked
import NamedContent.Proofs.Name.Profile
import NamedContent.Proofs.Name.Uri
import NamedContent.Proofs.Network.Acknowledged
import NamedContent.Proofs.Network.Arriving
import NamedContent.Proofs.Network.Collecting
import NamedContent.Proofs.Network.Depositing
import NamedContent.Proofs.Network.Edition
import NamedContent.Proofs.Network.Holding
import NamedContent.Proofs.Network.Latest
import NamedContent.Proofs.Network.Lookup
import NamedContent.Proofs.Network.Merging
import NamedContent.Proofs.Network.Picking
import NamedContent.Proofs.Network.Placing
import NamedContent.Proofs.Network.Questions
import NamedContent.Proofs.Network.Rejected
import NamedContent.Proofs.Network.Searching
import NamedContent.Proofs.Network.Segmenting
import NamedContent.Proofs.Network.Splicing
import NamedContent.Proofs.Network.Stored
import NamedContent.Proofs.Network.Stream
import NamedContent.Proofs.Object.Advancing
import NamedContent.Proofs.Object.Agreement
import NamedContent.Proofs.Object.Answering
import NamedContent.Proofs.Object.Apart
import NamedContent.Proofs.Object.Asking
import NamedContent.Proofs.Object.Bounding
import NamedContent.Proofs.Object.Calls
import NamedContent.Proofs.Object.CatchUp
import NamedContent.Proofs.Object.Classification
import NamedContent.Proofs.Object.Coherence
import NamedContent.Proofs.Object.Committing
import NamedContent.Proofs.Object.Enumerating
import NamedContent.Proofs.Object.Fencing
import NamedContent.Proofs.Object.FirstAnswer
import NamedContent.Proofs.Object.Following
import NamedContent.Proofs.Object.Forward
import NamedContent.Proofs.Object.Hosted
import NamedContent.Proofs.Object.InVain
import NamedContent.Proofs.Object.Issue
import NamedContent.Proofs.Object.Lockstep
import NamedContent.Proofs.Object.Minting
import NamedContent.Proofs.Object.Naming
import NamedContent.Proofs.Object.OneShot
import NamedContent.Proofs.Object.Opening
import NamedContent.Proofs.Object.Origin
import NamedContent.Proofs.Object.Passing
import NamedContent.Proofs.Object.ReadBack
import NamedContent.Proofs.Object.Reading
import NamedContent.Proofs.Object.Rearming
import NamedContent.Proofs.Object.Registered
import NamedContent.Proofs.Object.Registration
import NamedContent.Proofs.Object.Reissuing
import NamedContent.Proofs.Object.Release
import NamedContent.Proofs.Object.Resolving
import NamedContent.Proofs.Object.RoundTrip
import NamedContent.Proofs.Object.Saving
import NamedContent.Proofs.Object.Serving
import NamedContent.Proofs.Object.Siblings
import NamedContent.Proofs.Object.Skipping
import NamedContent.Proofs.Object.State
import NamedContent.Proofs.Object.Tracking
import NamedContent.Proofs.Object.Turning
import NamedContent.Proofs.Object.Watch
import NamedContent.Proofs.Outcome
import NamedContent.Proofs.Store.FirstWrite
import NamedContent.Proofs.Store.Holding
import NamedContent.Proofs.Store.Keys
import NamedContent.Proofs.Store.Namespaces
import NamedContent.Signature.Ed25519
import NamedContent.Signature.Edwards
import NamedContent.Store.Any
import NamedContent.Store.Basic
import NamedContent.Store.Memory
import NamedContent.Store.Schema
import NamedContent.Store.Table
import NamedContent.Suite
import NamedContent.Suite.Standard
