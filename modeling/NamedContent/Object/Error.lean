import NamedContent.Network.Error

/-!
# Faults of versioned objects

Finding nothing newer is no fault: the operations that can meet it answer that nothing changed.
-/

namespace NamedContent

inductive ObjectError where
  /-- The object has no name to update from or to save under. -/
  | missingName
  /-- A tombstone is the latest version of a base name, but this name is versioned. -/
  | versionedTombstone (name : Name)
  /-- The object was edited but has no value. -/
  | nothingToSave
  | noWritePath
  /-- The object writes in one mode already and cannot change to another. -/
  | saveModeLocked (current requested : SaveMode)
  | contentGone
  /-- No version has been read and no value set. -/
  | contentNotReady
  | unversioned (name : Name)
  | decode
  /-- The value cannot be written as a payload. -/
  | encode
  | network (cause : NetworkError)
  deriving DecidableEq

namespace ObjectError

def message : ObjectError → String
  | .missingName => "object has no name"
  | .versionedTombstone name =>
    "cannot save " ++ name.toUri ++ " as gone: name is already versioned"
  | .nothingToSave => "no data to save"
  | .noWritePath => "no write path configured"
  | .saveModeLocked current requested =>
    "save mode already " ++ current.toText ++ ", cannot change to " ++ requested.toText
  | .contentGone => "content is gone"
  | .contentNotReady => "content not ready"
  | .unversioned name => "not a versioned name: " ++ name.toUri
  | .decode => "decoding error: not a value of this type"
  | .encode => "encoding error: not a value that can be written"
  | .network cause => "network error: " ++ cause.message

def labels : ObjectError → List String
  | .missingName => ["MissingName"]
  | .versionedTombstone _ => ["VersionedTombstone"]
  | .nothingToSave => ["NothingToSave"]
  | .noWritePath => ["NoWritePath"]
  | .saveModeLocked _ _ => ["SaveModeLocked"]
  | .contentGone => ["ContentGone"]
  | .contentNotReady => ["ContentNotReady"]
  | .unversioned _ => ["Unversioned"]
  | .decode => ["Decode"]
  | .encode => ["Encode"]
  | .network cause => "Net" :: cause.labels

/-- Whether the fault will stay, whatever else arrives: the content itself is unreadable. -/
def isUnreadable : ObjectError → Bool
  | .decode => true
  | .unversioned _ => true
  | .network (.validation _) => true
  | _ => false

end ObjectError

end NamedContent
