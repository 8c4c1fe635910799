import PacketTide.FileSystem.View

/-!
# What lies below a place

A walk through a tree goes into each directory as soon as it has come to it, and takes the names in a
directory in the order of their bytes.
-/

namespace FileSystem

/-- No directory in the tree holds two children of one name. -/
def Node.Distinct (t : Node) : Prop := ∀ p a cs, t.get p = some (.dir a cs) → (cs.map Prod.fst).Nodup

namespace FS

/-- No directory holds two children of one name. -/
def Distinct (fs : FS) : Prop := fs.root.Distinct

/-- The path names a directory at a place; a link at its end is not followed. -/
structure Names (fs : FS) (path : Path) (p : Loc) : Prop where
  resolves : fs.resolve false path = .ok p
  dir : fs.view p = some .dir

end FS

/-- Names in the order of their bytes. -/
def sortNames (names : List Name) : List Name := names.mergeSort fun a b => decide (a.bytes ≤ b.bytes)

namespace FS

/-- The names of what lies in a directory. -/
def namesAt (fs : FS) (p : Loc) : List Name :=
  match fs.root.get p with
  | some t => t.children.map Prod.fst
  | none => []

/-- What lies below a directory, not deeper than so many names, in the order of a walk. -/
def listing (fs : FS) (p : Loc) : Nat → List Name → List (List Name)
  | 0, _ => []
  | depth + 1, names =>
    (sortNames (fs.namesAt (p ++ names))).flatMap fun n =>
      (names ++ [n]) :: fs.listing p depth (names ++ [n])

end FS

end FileSystem
