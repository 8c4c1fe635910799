import PacketTide.FileSystem.Calls

/-!
# What a file system shows

A view gives for each place what is there, without metadata. Paths are safe to use when the
directories that lead to them are real ones in the view.
-/

namespace FileSystem

/-- What a file system shows, place by place. -/
abbrev View : Type := Loc → Option Shape

/-- All directories from a place on along the names are real, the last name left out. -/
def DirsTo (home : Loc) (v : View) (names : List Name) : Prop :=
  ∀ k < names.length, v (home ++ names.take k) = some .dir

/-- Nothing or a regular file. -/
def Leaf (s : Option Shape) : Prop := s = none ∨ ∃ b, s = some (.file b)

instance (s : Option Shape) : Decidable (Leaf s) :=
  match s with
  | none => .isTrue (.inl rfl)
  | some (.file b) => .isTrue (.inr ⟨b, rfl⟩)
  | some .dir | some (.link _) | some .special => .isFalse (by simp [Leaf])

/-- The path names nothing or a regular file, and its directories are real. -/
structure FileSlot (home : Loc) (v : View) (path : Path) : Prop where
  names_ne : path.names ≠ []
  dirs : DirsTo home v path.names
  leaf : Leaf (v (home ++ path.names))

/-- The working directory of a file system and what it shows. -/
structure FS.Looks (fs : FS) (home : Loc) (v : View) : Prop where
  home_eq : fs.home = home
  view_eq : fs.view = v

/-- Calls that do not change the view. -/
def FsCall.KeepsView : FsCall → Prop
  | .lstat _ | .stat _ | .fstat _ | .readToEnd _ | .readAt _ _ _ | .sync _ | .setPermissions _ _
  | .setTimes _ _ | .readDir _ => True
  | .openFile _ o => o.create = false ∧ o.createNew = false ∧ o.truncate = false
  | _ => False

end FileSystem
