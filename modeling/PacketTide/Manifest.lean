import PacketTide.Digest

/-!
# Directory manifests

A manifest lists the directories and files of a tree, sorted by path, with a canonical text form
that carries its own hash.
-/

namespace PacketTide

open FileSystem Text

def maxManifestEntries : Nat := 1000000

def maxRelativePathBytes : Nat := 4096

def maxManifestBytes : Nat := 64 * 1024 * 1024

inductive EntryKind where
  | directory
  | file
  deriving DecidableEq

structure ManifestEntry where
  path : List UInt8
  kind : EntryKind
  mode : Nat
  modifiedSeconds : Int
  modifiedNanoseconds : Int
  size : Nat
  hash : Option Hash
  deriving DecidableEq

structure Manifest where
  entries : List ManifestEntry
  rootMode : Nat
  rootModifiedSeconds : Int
  rootModifiedNanoseconds : Int
  hash : Hash
  deriving DecidableEq

/-- A check that may be refused with a message. -/
abbrev Check (α : Type) : Type := Except String α

/-- Refuse under a condition. -/
def refuseIf (c : Prop) [Decidable c] (message : String) : Check Unit :=
  if c then .error message else .ok ()

/-! ## The text form -/

/-- The line of an entry. Every file entry has a hash; the source stops with a panic at one without. -/
def entryLine (entry : ManifestEntry) : Str :=
  match entry.kind with
  | .directory =>
    ascii "D " ++ hex entry.path ++ space :: decimal entry.mode ++
      space :: decimalInt entry.modifiedSeconds ++
      space :: decimalInt entry.modifiedNanoseconds ++ [newline]
  | .file =>
    ascii "F " ++ hex entry.path ++ space :: decimal entry.size ++
      space :: hex ((entry.hash.map Hash.bytes).getD []) ++ space :: decimal entry.mode ++
      space :: decimalInt entry.modifiedSeconds ++
      space :: decimalInt entry.modifiedNanoseconds ++ [newline]

/-- The text that the hash of a manifest is taken of. -/
def canonicalBody (entries : List ManifestEntry) (rootMode : Nat)
    (rootModifiedSeconds rootModifiedNanoseconds : Int) : Str :=
  ascii "PTM1 " ++ decimal entries.length ++ space :: decimal rootMode ++
    space :: decimalInt rootModifiedSeconds ++
    space :: decimalInt rootModifiedNanoseconds ++ [newline] ++ entries.flatMap entryLine

def encode (manifest : Manifest) : Str :=
  canonicalBody manifest.entries manifest.rootMode manifest.rootModifiedSeconds
    manifest.rootModifiedNanoseconds ++ ascii "HASH " ++ hex manifest.hash.bytes ++ [newline]

/-! ## Fields -/

/-- The reason that the standard library gives for a number beyond its type. -/
def numberTooLarge : String := "number too large to fit in target type"

/-- A number of 64 bits in decimal without leading zeros; any other text is refused with a message. -/
def canonicalUnsigned (message : String) (value : Str) : Check Nat :=
  if value.isEmpty || !value.all isDigit || (decide (1 < value.length) && value.head? == some 48)
  then .error message
  else
    match parseUnsigned 64 10 value with
    | some n => .ok n
    | none => .error numberTooLarge

def parseU64 (value : Str) : Check Nat :=
  canonicalUnsigned "noncanonical unsigned manifest integer" value

/-- The text of a number without its minus sign. -/
def unsignedPart (value : Str) : Str := (stripPrefix [45] value).getD value

def parseI64 (value : Str) : Check Int :=
  if value == ascii "-0" || value.isEmpty || (unsignedPart value).isEmpty
      || !(unsignedPart value).all isDigit
      || (decide (1 < (unsignedPart value).length) && (unsignedPart value).head? == some 48)
  then .error "noncanonical signed manifest integer"
  else
    match parseSigned 64 10 value with
    | some n => .ok n
    | none =>
      .error (if value.head? = some 45 then "number too small to fit in target type"
        else numberTooLarge)

def parseMode (value : Str) : Check Nat := do
  let mode ← parseU64 value
  refuseIf (mode > 0o777) "manifest mode is out of range"
  return mode

def parseNanoseconds (value : Str) : Check Int := do
  let result ← parseI64 value
  refuseIf (¬(0 ≤ result ∧ result < 1000000000))
    "manifest modification nanoseconds are out of range"
  return result

/-- The bytes that pairs of hexadecimal digits stand for. -/
def hexPairs : Str → List UInt8
  | a :: b :: rest => UInt8.ofNat ((digitsValue 16 [a, b]).getD 0) :: hexPairs rest
  | _ => []

def decodeHex (value : Str) : Check (List UInt8) :=
  if value.isEmpty || value.length % 2 != 0 || !value.all isLowerHexDigit
  then .error "noncanonical manifest hex"
  else .ok (hexPairs value)

def decodeHash (value : Str) : Check Hash := do
  let bytes ← decodeHex value
  if h : bytes.toArray.size = 32 then return ⟨bytes.toArray, h⟩
  else throw "manifest hash must contain 32 bytes"

/-! ## Paths -/

def validateRelativePath (path : List UInt8) : Check Unit :=
  if path.isEmpty || decide (path.length > maxRelativePathBytes) || path.head? == some 47
      || path.contains 0
      || (path.splitOn 47).any fun part => part.isEmpty || part == [46] || part == [46, 46]
  then .error "unsafe manifest path"
  else .ok ()

def decodePath (value : Str) : Check (List UInt8) := do
  let path ← decodeHex value
  validateRelativePath path
  return path

/-- The prefixes of a path that end before a slash. -/
def parents (path : List UInt8) : List (List UInt8) :=
  ((List.range path.length).filter fun i => path[i]? == some 47).map path.take

/-! ## Parsing -/

def parseEntry (line : Str) : Check ManifestEntry :=
  match line.splitOn space with
  | [tag, path, mode, seconds, nanoseconds] =>
    if tag = ascii "D" then do
      let path ← decodePath path
      let mode ← parseMode mode
      let modifiedSeconds ← parseI64 seconds
      let modifiedNanoseconds ← parseNanoseconds nanoseconds
      return {
        path, kind := .directory, mode, modifiedSeconds, modifiedNanoseconds, size := 0,
        hash := none }
    else .error "invalid manifest entry"
  | [tag, path, size, hash, mode, seconds, nanoseconds] =>
    if tag = ascii "F" then do
      let path ← decodePath path
      let mode ← parseMode mode
      let modifiedSeconds ← parseI64 seconds
      let modifiedNanoseconds ← parseNanoseconds nanoseconds
      let size ← parseU64 size
      let hash ← decodeHash hash
      return {
        path, kind := .file, mode, modifiedSeconds, modifiedNanoseconds, size, hash := some hash }
    else .error "invalid manifest entry"
  | _ => .error "invalid manifest entry"

/-- The checks of one entry, after the entry `previous` and the entries whose kinds are known. -/
def validateEntry (previous : Option (List UInt8)) (kinds : List (List UInt8 × EntryKind))
    (entry : ManifestEntry) : Check Unit := do
  validateRelativePath entry.path
  refuseIf (previous.any fun value => decide (¬ value < entry.path))
    "manifest paths must be unique and strictly sorted"
  refuseIf (entry.modifiedNanoseconds < 0 ∨ entry.modifiedNanoseconds ≥ 1000000000)
    "manifest modification nanoseconds are out of range"
  refuseIf (entry.mode > 0o777) "manifest mode is out of range"
  refuseIf (entry.kind = .directory ∧ (entry.size ≠ 0 ∨ entry.hash.isSome))
    "directory entry carries file data"
  refuseIf (entry.kind = .file ∧ entry.hash.isNone) "file entry has no hash"
  refuseIf ((parents entry.path).any fun parent => kinds.lookup parent != some .directory)
    "manifest parent is absent or is not a directory"

def validateEntriesFrom (previous : Option (List UInt8)) (kinds : List (List UInt8 × EntryKind)) :
    List ManifestEntry → Check Unit
  | [] => return ()
  | entry :: rest => do
    validateEntry previous kinds entry
    validateEntriesFrom (some entry.path) ((entry.path, entry.kind) :: kinds) rest

def validateEntries (entries : List ManifestEntry) : Check Unit := do
  refuseIf (entries.length > maxManifestEntries) "manifest entry limit exceeded"
  validateEntriesFrom none [] entries

/-- Read a number of entries off the lines: the entries and the lines that are left. -/
def parseEntries : Nat → List Str → Check (List ManifestEntry × List Str)
  | 0, lines => return ([], lines)
  | _ + 1, [] => .error "manifest ended before all entries"
  | n + 1, line :: lines => do
    let entry ← parseEntry line
    let (entries, rest) ← parseEntries n lines
    return (entry :: entries, rest)

/-- The fields of the first line: the number of entries and the metadata of the root. -/
def parseHeader (header : Str) : Check (Nat × Nat × Int × Int) :=
  match header.splitOn space with
  | [tag, count, mode, seconds, nanoseconds] =>
    if tag = ascii "PTM1" then do
      let count ← parseU64 count
      let rootMode ← parseMode mode
      let rootModifiedSeconds ← parseI64 seconds
      let rootModifiedNanoseconds ← parseNanoseconds nanoseconds
      return (count, rootMode, rootModifiedSeconds, rootModifiedNanoseconds)
    else .error "invalid manifest header"
  | _ => .error "invalid manifest header"

/-- The hash in the last line, which nothing may follow. -/
def parseFooter : List Str → Check Hash
  | [] => .error "missing manifest hash"
  | [footer] =>
    match stripPrefix (ascii "HASH ") footer with
    | none => .error "invalid manifest hash footer"
    | some supplied => decodeHash supplied
  | _ => .error "trailing manifest data"

def parse [Sha256] (encoded : Str) : Check Manifest := do
  refuseIf (encoded.length > maxManifestBytes ∨ encoded.getLast? ≠ some newline
    ∨ carriageReturn ∈ encoded) "manifest must use canonical newline termination"
  match lines encoded with
  | [] => .error "missing manifest header"
  | header :: rest =>
    let (count, rootMode, rootModifiedSeconds, rootModifiedNanoseconds) ← parseHeader header
    refuseIf (count > maxManifestEntries) "manifest entry limit exceeded"
    let (entries, last) ← parseEntries count rest
    let hash ← parseFooter last
    let body := (header :: rest.take count).flatMap (· ++ [newline])
    refuseIf (hash ≠ Sha256.digest body) "manifest hash mismatch"
    validateEntries entries
    refuseIf (canonicalBody entries rootMode rootModifiedSeconds rootModifiedNanoseconds ≠ body)
      "manifest entries are not canonically encoded"
    return { entries, rootMode, rootModifiedSeconds, rootModifiedNanoseconds, hash }

/-! ## The names of a relative path -/

/-- The components of a relative path. -/
def pathFromBytes (path : List UInt8) : List Name :=
  (path.splitOn 47).filterMap fun part => if h : ValidName part then some ⟨part, h⟩ else none

end PacketTide
