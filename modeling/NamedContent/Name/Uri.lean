import NamedContent.Name.Basic

/-!
# Names as URIs

A name is written as its components, each after a slash and in escaped form; the root name is a
lone slash. The reader accepts an optional `ccnx:` scheme, any number of leading and trailing
slashes, and every byte of a component either as itself or escaped; it refuses an empty component
between two others, because such a name could not be told from its neighbours.
-/

namespace NamedContent

namespace Name

/-! ### Writing -/

def uriChars (n : Name) : List Char :=
  if n.isRoot then ['/'] else n.components.flatMap fun c => '/' :: c.escape

def toUri (n : Name) : String := String.ofList n.uriChars

instance : ToString Name := ⟨toUri⟩

def describe (n : Name) : String := "ContentName(" ++ n.toUri ++ ")"

/-! ### Reading -/

/-- Why a text is not the URI of a name. -/
inductive UriError where
  | notAbsolute (uri : String)
  | emptyComponent (uri : String)
  /-- A percent sign is followed by fewer than two bytes. -/
  | truncatedEscape (part : String)
  /-- A percent sign is followed by something other than two hexadecimal digits. -/
  | badEscape (part : String) (cause : Octets.Hex.Error)
  deriving DecidableEq, Repr

def UriError.message : UriError → String
  | .notAbsolute uri => "name must start with '/': " ++ uri
  | .emptyComponent uri => "empty component in " ++ uri
  | .truncatedEscape part => "truncated escape in " ++ part
  | .badEscape part cause => "bad escape in " ++ part ++ ": " ++ cause.message

/-- Undo the escapes in the bytes of one part; `part` is its text, for the error. -/
def unescape (part : String) : Octets → Except UriError Octets
  | [] => .ok []
  | 37 :: hi :: lo :: rest =>
    match Octets.Hex.decodeOctets [hi, lo] with
    | .error cause => .error (.badEscape part cause)
    | .ok bytes => (unescape part rest).map (bytes ++ ·)
  | b :: rest =>
    if b = 37 then .error (.truncatedEscape part) else (unescape part rest).map (b :: ·)

/-- The component that one part of a path stands for. -/
def readPart (uri : String) (part : List Char) : Except UriError Component :=
  if part.isEmpty then .error (.emptyComponent uri)
  else (unescape (String.ofList part) (Octets.ofChars part)).map Component.mk

/-- The optional scheme in front of a path. -/
def scheme : List Char := ['c', 'c', 'n', 'x', ':']

def dropScheme (cs : List Char) : List Char :=
  if scheme.isPrefixOf cs then cs.drop scheme.length else cs

/-- A path without its leading and trailing slashes. -/
def trimSlashes (cs : List Char) : List Char :=
  ((cs.dropWhile (· == '/')).reverse.dropWhile (· == '/')).reverse

/-- The parts of a list between the elements equal to `sep`. -/
def splitAt (sep : Char) : List Char → List (List Char)
  | [] => [[]]
  | c :: cs =>
    if c = sep then [] :: splitAt sep cs
    else
      match splitAt sep cs with
      | [] => [[c]]
      | part :: parts => (c :: part) :: parts

def parse (uri : String) : Except UriError Name :=
  let path := dropScheme uri.toList
  if path.head? ≠ some '/' then .error (.notAbsolute uri)
  else
    let trimmed := trimSlashes path
    if trimmed.isEmpty then .ok root
    else ((splitAt '/' trimmed).mapM (readPart uri)).map Name.mk

end Name

end NamedContent
