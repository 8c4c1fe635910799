import PacketTide.FileSystem.Tree
import PacketTide.Effects.Prog

/-!
# File-system calls

The calls of a Unix file system, with paths resolved component by component: a symbolic link in
the middle of a path is followed, one at its end only where the call follows it. The directory part
that a path is spelled with names the working directory `home`, which is a real directory; a path
without one is relative, and the empty path names nothing. Access permissions are recorded but not
enforced.
-/

namespace FileSystem

/-- A path: the names below `home`, and how the directory part before them is spelled, if there is
one. The spelling leaves out the slash that follows it. -/
structure Path where
  base : Option (List UInt8)
  names : List Name
  deriving DecidableEq

namespace Path

/-- The path `.`. -/
def dot : Path := ⟨some [46], []⟩

/-- The empty path. -/
def empty : Path := ⟨none, []⟩

/-- The bytes of names with slashes between them. -/
def joined (names : List Name) : List UInt8 := [47].intercalate (names.map Name.bytes)

/-- The bytes of a path. -/
def bytes (p : Path) : List UInt8 :=
  match p.base with
  | some b => b ++ 47 :: joined p.names
  | none => joined p.names

/-- The path without its last name; for a lone relative name this is the empty path. -/
def parent (p : Path) : Option Path :=
  if p.names = [] then none else some { p with names := p.names.dropLast }

/-- The path of something below a directory. -/
def join (p : Path) (names : List Name) : Path := { p with names := p.names ++ names }

/-- The path with a suffix appended to its last name. -/
def appended (p : Path) (suffix : List UInt8) : Path :=
  match p.names.getLast? with
  | some n => { p with names := p.names.dropLast ++ [n.append suffix] }
  | none => p

end Path

/-- The reasons for which a call may be refused. -/
inductive Errno where
  | notFound
  | notADirectory
  | isADirectory
  | alreadyExists
  | directoryNotEmpty
  | filesystemLoop
  | invalidInput
  | other
  deriving DecidableEq

/-- The kind of an object, as `lstat` reports it. -/
inductive FileType where
  | file
  | dir
  | symlink
  | special
  deriving DecidableEq

/-- The part of a `stat` reply that does not change when an object is written or touched. -/
structure Metadata where
  fileType : FileType
  len : Nat
  attr : Option Attr
  deriving DecidableEq

/-- How a path is to be opened. -/
structure OpenOptions where
  write : Bool := false
  create : Bool := false
  createNew : Bool := false
  truncate : Bool := false
  nofollow : Bool := false
  directory : Bool := false
  mode : Nat := 0o644

/-- The calls. An open file is named by the place it was opened at. -/
inductive FsCall where
  /-- Metadata of a path; a final link is not followed. -/
  | lstat (p : Path)
  /-- Metadata of a path; a final link is followed. -/
  | stat (p : Path)
  | openFile (p : Path) (options : OpenOptions)
  | fstat (h : Loc)
  | readToEnd (h : Loc)
  /-- Read at most so many bytes from an offset on. -/
  | readAt (h : Loc) (offset count : Nat)
  | setLen (h : Loc) (len : Nat)
  /-- Write at the end of an open file. -/
  | write (h : Loc) (bytes : List UInt8)
  | writeAt (h : Loc) (offset : Nat) (bytes : List UInt8)
  | sync (h : Loc)
  | setPermissions (h : Loc) (mode : Nat)
  | setTimes (h : Loc) (modified : Stamp)
  | readDir (p : Path)
  | createDir (p : Path)
  | removeFile (p : Path)
  | rename (source target : Path)

/-- What a call that succeeds returns. -/
abbrev FsCall.Value : FsCall → Type
  | lstat _ | stat _ | fstat _ => Metadata
  | openFile _ _ => Loc
  | readToEnd _ | readAt _ _ _ => List UInt8
  | readDir _ => List Name
  | _ => Unit

/-- The reply of a call. -/
abbrev FsReply (c : FsCall) : Type := Except Errno c.Value

/-- A file system: the tree, the place that working paths start from, and the clock. -/
structure FS where
  root : Node
  home : Loc
  now : Stamp
  /-- For each of the coming reads at an offset how many bytes it may return beyond the first; after
  the end of the list none is short. -/
  reads : List Nat := []

namespace FS

/-- A file system that holds nothing, with its root as the working directory. -/
def empty : FS := ⟨.dir ⟨0o755, ⟨0, 0⟩⟩ [], [], ⟨0, 0⟩, []⟩

/-- What is at a place. -/
def view (fs : FS) (p : Loc) : Option Shape := fs.root.view p

/-- The metadata of what is at a place. -/
def attrAt (fs : FS) (p : Loc) : Option Attr := fs.root.attrAt p

/-- Set the modification time of the object at a place. -/
def touch (fs : FS) (p : Loc) : FS :=
  { fs with root := fs.root.alter (Option.map (Node.mapAttr fun a => { a with modified := fs.now })) p }

/-- Put an object at a place whose parent is a directory. -/
def put (fs : FS) (p : Loc) (v : Node) : FS :=
  { fs with root := fs.root.alter (fun _ => some v) p }

/-- Remove the object at a place. -/
def erase (fs : FS) (p : Loc) : FS :=
  { fs with root := fs.root.alter (fun _ => none) p }

/-- Where the walk along a path arrives. -/
inductive Walked where
  | found (p : Loc)
  | linked (target : Loc) (rest : List Name)
  | failed (e : Errno)

/-- Walk along names from a place up to the first link that has to be followed. -/
def walk (fs : FS) (follow : Bool) : Loc → List Name → Walked
  | p, [] => .found p
  | p, n :: rest =>
    match fs.view p with
    | some .dir =>
      match fs.view (p ++ [n]) with
      | some (.link target) =>
        if rest.isEmpty && !follow then .found (p ++ [n]) else .linked target rest
      | _ => walk fs follow (p ++ [n]) rest
    | some _ => .failed .notADirectory
    | none => .failed .notFound

/-- Resolve names from a place, following at most `budget` links. -/
def resolveFrom (fs : FS) (follow : Bool) : Nat → Loc → List Name → Except Errno Loc
  | budget, p, names =>
    match fs.walk follow p names with
    | .found q => .ok q
    | .failed e => .error e
    | .linked target rest =>
      match budget with
      | 0 => .error .filesystemLoop
      | budget + 1 => fs.resolveFrom follow budget [] (target ++ rest)

/-- The number of links a path may lead through. -/
def maxLinks : Nat := 40

/-- The place a path names. The place itself need not hold anything. -/
def resolve (fs : FS) (follow : Bool) (p : Path) : Except Errno Loc :=
  if p = Path.empty then .error .notFound else fs.resolveFrom follow maxLinks fs.home p.names

/-- The length that a directory reports. -/
def dirLen : Nat := 4096

/-- The metadata of an object. -/
def metadataOf : Node → Metadata
  | .file attr bytes => ⟨.file, bytes.length, some attr⟩
  | .dir attr _ => ⟨.dir, dirLen, some attr⟩
  | .link target => ⟨.symlink, target.length, none⟩
  | .special => ⟨.special, 0, none⟩

/-- The metadata of what is at a place. -/
def metadataAt (fs : FS) (p : Loc) : Except Errno Metadata :=
  match fs.root.get p with
  | some t => .ok (metadataOf t)
  | none => .error .notFound

/-- Replace the bytes of an open file. -/
def store (fs : FS) (p : Loc) (f : List UInt8 → List UInt8) : FS :=
  match fs.root.get p with
  | some (.file attr bytes) => fs.put p (.file { attr with modified := fs.now } (f bytes))
  | _ => fs

/-- Open what is at a place. -/
def openAt (fs : FS) (p : Loc) (o : OpenOptions) : Except Errno Loc × FS :=
  match fs.root.get p with
  | none =>
    if o.create || o.createNew then
      (.ok p, (fs.put p (.file ⟨o.mode, fs.now⟩ [])).touch p.dropLast)
    else (.error .notFound, fs)
  | some t =>
    if o.createNew then (.error .alreadyExists, fs) else
    match t with
    | .link _ => (.error .filesystemLoop, fs)
    | .special => (.error .other, fs)
    | .dir _ _ => if o.write then (.error .isADirectory, fs) else (.ok p, fs)
    | .file _ _ =>
      if o.directory then (.error .notADirectory, fs)
      else if o.truncate then (.ok p, fs.store p fun _ => []) else (.ok p, fs)

/-- Move an object, replacing a file or an empty directory of the same kind. -/
def move (fs : FS) (p q : Loc) : Except Errno Unit × FS :=
  match fs.root.get p with
  | none => (.error .notFound, fs)
  | some t =>
    if p = q then (.ok (), fs)
    else if p <+: q then (.error .invalidInput, fs)
    else
      let moved := (((fs.erase p).put q t).touch p.dropLast).touch q.dropLast
      match t.shape, fs.root.get q with
      | _, none => (.ok (), moved)
      | .dir, some (.dir _ []) => (.ok (), moved)
      | .dir, some (.dir _ _) => (.error .directoryNotEmpty, fs)
      | .dir, some _ => (.error .notADirectory, fs)
      | _, some (.dir _ _) => (.error .isADirectory, fs)
      | _, some _ => (.ok (), moved)

/-- Bytes with others written over them from an offset on; a gap is filled with zeros. Writing
nothing leaves the file alone, also beyond its end. -/
def splice (offset : Nat) (new old : List UInt8) : List UInt8 :=
  if new = [] then old
  else (old.take offset ++ List.replicate (offset - old.length) 0) ++ new
    ++ old.drop (offset + new.length)

/-- Bytes cut or filled with zeros to a length. -/
def resize (len : Nat) (old : List UInt8) : List UInt8 :=
  old.take len ++ List.replicate (len - old.length) 0

/-- The reply of a call and the file system it leaves. -/
def exec : (c : FsCall) → FS → FsReply c × FS
  | .lstat p, fs => (fs.resolve false p >>= fs.metadataAt, fs)
  | .stat p, fs => (fs.resolve true p >>= fs.metadataAt, fs)
  | .openFile p o, fs =>
    match fs.resolve (!(o.nofollow || o.createNew)) p with
    | .ok q => fs.openAt q o
    | .error e => (.error e, fs)
  | .fstat h, fs => (fs.metadataAt h, fs)
  | .readToEnd h, fs =>
    match fs.root.get h with
    | some (.file _ bytes) => (.ok bytes, fs)
    | _ => (.error .isADirectory, fs)
  | .readAt h offset count, fs =>
    match fs.root.get h with
    | some (.file _ bytes) =>
      match fs.reads with
      | [] => (.ok ((bytes.drop offset).take count), fs)
      | short :: reads => (.ok ((bytes.drop offset).take (min count (short + 1))), { fs with reads })
    | _ => (.error .isADirectory, fs)
  | .setLen h len, fs => (.ok (), fs.store h (resize len))
  | .write h bytes, fs => (.ok (), fs.store h (· ++ bytes))
  | .writeAt h offset bytes, fs => (.ok (), fs.store h (splice offset bytes))
  | .sync _, fs => (.ok (), fs)
  | .setPermissions h mode, fs =>
    (.ok (), { fs with root := fs.root.alter (Option.map (Node.mapAttr ({ · with mode }))) h })
  | .setTimes h modified, fs =>
    (.ok (), { fs with root := fs.root.alter (Option.map (Node.mapAttr ({ · with modified }))) h })
  | .readDir p, fs =>
    match fs.resolve true p with
    | .ok q =>
      match fs.root.get q with
      | some (.dir _ cs) => (.ok (cs.map Prod.fst), fs)
      | some _ => (.error .notADirectory, fs)
      | none => (.error .notFound, fs)
    | .error e => (.error e, fs)
  | .createDir p, fs =>
    match fs.resolve false p with
    | .ok q =>
      match fs.root.get q with
      | some _ => (.error .alreadyExists, fs)
      | none => (.ok (), (fs.put q (.dir ⟨0o755, fs.now⟩ [])).touch q.dropLast)
    | .error e => (.error e, fs)
  | .removeFile p, fs =>
    match fs.resolve false p with
    | .ok q =>
      match fs.root.get q with
      | some (.dir _ _) => (.error .isADirectory, fs)
      | some _ => (.ok (), (fs.erase q).touch q.dropLast)
      | none => (.error .notFound, fs)
    | .error e => (.error e, fs)
  | .rename p q, fs =>
    match fs.resolve false p, fs.resolve false q with
    | .ok p, .ok q => fs.move p q
    | .error e, _ => (.error e, fs)
    | _, .error e => (.error e, fs)

/-- A kill in the middle of a write may leave any part of it done. -/
inductive Torn : FsCall → FS → FS → Prop where
  | write (h : Loc) (bytes : List UInt8) (n : Nat) (fs : FS) :
      Torn (.write h bytes) fs (fs.store h (· ++ bytes.take n))
  | writeAt (h : Loc) (offset : Nat) (bytes : List UInt8) (n : Nat) (fs : FS) :
      Torn (.writeAt h offset bytes) fs (fs.store h (splice offset (bytes.take n)))

end FS

/-- The file system as the environment of programs. -/
def machine : Effects.Machine FsReply FS where
  exec := FS.exec
  torn := FS.Torn

end FileSystem
