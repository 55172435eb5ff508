import NamedContent.Store.Basic

/-!
# Faults of the network

What can go wrong when content is fetched from the network or written to it. Finding nothing is a
fault only where content is required, such as a segment in the middle of a version.
-/

namespace NamedContent

/-- How saved content reaches the network. -/
inductive SaveMode where
  /-- Fragments are put on the network. -/
  | raw
  /-- Fragments are saved in a store that the network serves. -/
  | repository
  deriving DecidableEq, Repr

def SaveMode.toText : SaveMode → String
  | .raw => "raw"
  | .repository => "repository"

instance : ToString SaveMode := ⟨SaveMode.toText⟩

inductive NetworkError where
  /-- Nothing answered a query that needed an answer. -/
  | noMatchingContent (name : Name)
  | unknownPublisher (publisher : Publisher)
  /-- There is nothing to write to in this mode. -/
  | writePathUnavailable (mode : SaveMode)
  /-- A different fragment holds this name. -/
  | writeConflict (name : Name)
  /-- Nothing runs that could deliver answers. -/
  | notRunning
  | validation (cause : ValidationError)
  | store (cause : StoreError)
  deriving DecidableEq

def NetworkError.message : NetworkError → String
  | .noMatchingContent name => "no matching content for " ++ name.toUri
  | .unknownPublisher publisher => "unknown publisher: " ++ publisher.toText
  | .writePathUnavailable mode => "no " ++ mode.toText ++ " write path available"
  | .writeConflict name => "write rejected: " ++ name.toUri ++ " already holds different content"
  | .notRunning => "nothing is running to deliver answers"
  | .validation cause => "validation error: " ++ cause.message
  | .store cause => "store error: " ++ cause.message

def NetworkError.labels : NetworkError → List String
  | .noMatchingContent _ => ["NoMatchingContent"]
  | .unknownPublisher _ => ["UnknownPublisher"]
  | .writePathUnavailable _ => ["WritePathUnavailable"]
  | .writeConflict _ => ["WriteConflict"]
  | .notRunning => ["NoRuntime"]
  | .validation cause => ["Validation", cause.label]
  | .store cause => "Store" :: cause.labels

end NamedContent
