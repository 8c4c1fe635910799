import PacketTide.FileSystem.View

/-!
# Programs that keep to a scope

A scope says which files a program may make, change, move and remove, and where it may make directories. There are
two: all that lies below a directory, and the files beside a path that are named by suffixes. In a file system that
is in order for it, a program that keeps to a scope changes nothing outside of it, whatever else happens.
-/

namespace FileSystem

/-- What a program may do to a file system. -/
structure Scope where
  /-- The paths of files that are opened to be changed, and of those that are removed. -/
  work : Path → Prop
  /-- The paths that files are moved from. -/
  sources : Path → Prop
  /-- The paths that files are moved to. -/
  targets : Path → Prop
  /-- The paths at which directories are made. -/
  directories : Path → Prop
  /-- Paths that are not missing. -/
  there : Path → Prop
  /-- The places of open files that are changed. -/
  opened : Loc → Prop

namespace FsCall

/-- A call that a program in a scope may make. -/
def Confined (scope : Scope) : FsCall → Prop
  | .openFile path o => o.create = false ∧ o.createNew = false ∧ o.truncate = false ∨ scope.work path
  | .setLen h _ | .write h _ | .writeAt h _ _ | .setPermissions h _ | .setTimes h _ => scope.opened h
  | .createDir path => scope.directories path
  | .removeFile path => scope.work path
  | .rename source target => scope.sources source ∧ scope.targets target
  | _ => True

/-- What the program relies on: the files that it opens may be changed, and what is to be there is not missing. -/
def Promised (scope : Scope) : (c : FsCall) → FsReply c → Prop
  | .openFile path _, r => scope.work path → ∀ h, r = .ok h → scope.opened h
  | .createDir path, r => scope.there path → r ≠ .error .notFound
  | _, _ => True

end FsCall

/-! ## Below a directory -/

namespace Path

/-- The path goes on from a root. -/
def Under (root path : Path) : Prop := ∃ names, path = root.join names

/-- The path goes on from a root, and it is not the root. -/
def Below (root path : Path) : Prop := ∃ names, names ≠ [] ∧ path = root.join names

end Path

def Scope.below (home : Loc) (root : Path) : Scope where
  work := root.Under
  sources := root.Below
  targets := root.Below
  directories := root.Under
  there := (· = root)
  opened h := home ++ root.names <+: h

/-- The root is a real directory, there are no links in it, and nothing outside of it shows a change. -/
structure FS.Sealed (home : Loc) (root : Path) (v : View) (fs : FS) : Prop where
  home_eq : fs.home = home
  names_ne : root.names ≠ []
  dirs : DirsTo home fs.view root.names
  dir : fs.view (home ++ root.names) = some .dir
  plain : ∀ names target, fs.view (home ++ root.names ++ names) ≠ some (.link target)
  outside : ∀ q, ¬home ++ root.names <+: q → fs.view q = v q

/-! ## Beside a path -/

namespace Path

/-- The path is that of a file beside another, named by one of some suffixes. -/
def Suffixed (suffixes : List (List UInt8)) (path beside : Path) : Prop := ∃ s ∈ suffixes, beside = path.appended s

/-- The path is that of a directory above another. -/
def Above (path above : Path) : Prop := ∃ k < path.names.length, above = { path with names := path.names.take k }

end Path

/-- Files beside a path are worked on, and they may be moved to others, too; directories are made above it. -/
def Scope.beside (home : Loc) (path : Path) (suffixes replaced : List (List UInt8)) : Scope where
  work := path.Suffixed suffixes
  sources := path.Suffixed suffixes
  targets := path.Suffixed (replaced ++ suffixes)
  directories := path.Above
  there _ := False
  opened h := ∃ s ∈ suffixes, h = home ++ (path.appended s).names

/-- The directories above a path are real or missing, the files beside it that are worked on are regular files or
missing, and nothing else shows a change, but that some of the directories may be there now. -/
structure FS.Besides (home : Loc) (path : Path) (suffixes replaced : List (List UInt8)) (v : View) (fs : FS) : Prop where
  home_eq : fs.home = home
  home_dir : fs.view home = some .dir
  names_ne : path.names ≠ []
  above : ∀ k < path.names.length,
    fs.view (home ++ path.names.take k) = none ∨ fs.view (home ++ path.names.take k) = some .dir
  leaf : ∀ s ∈ suffixes, Leaf (fs.view (home ++ (path.appended s).names))
  outside : ∀ q, fs.view q = v q ∨ (∃ s ∈ replaced ++ suffixes, q = home ++ (path.appended s).names) ∨
    (∃ k < path.names.length, q = home ++ path.names.take k) ∧ v q = none ∧ fs.view q = some .dir

end FileSystem
