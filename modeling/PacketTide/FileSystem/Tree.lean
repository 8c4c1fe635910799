import Mathlib.Algebra.GroupWithZero.Nat
import Mathlib.Data.List.Basic

/-!
# Directory trees

A file system is a tree of objects under names. Locations are lists of names from the root, and
every change is an alteration of the subtree at one location, so that an object without a directory
above it cannot be built.
-/

namespace FileSystem

/-- A file name: not empty, not `.` or `..`, and without a `/`. -/
def ValidName (bytes : List UInt8) : Prop :=
  bytes ≠ [] ∧ bytes ≠ [46] ∧ bytes ≠ [46, 46] ∧ 47 ∉ bytes

instance (bytes : List UInt8) : Decidable (ValidName bytes) :=
  inferInstanceAs (Decidable (_ ∧ _ ∧ _ ∧ _))

/-- A name that a directory may hold. -/
structure Name where
  /-- The raw bytes of the name. -/
  bytes : List UInt8
  /-- They form a file name. -/
  valid : ValidName bytes
  deriving DecidableEq

theorem ValidName.append {bytes suffix : List UInt8} (h : ValidName bytes) (hs : 47 ∉ suffix) :
    ValidName (bytes ++ suffix) := by
  obtain ⟨h1, h2, h3, h4⟩ := h
  refine ⟨by simp [h1], ?_, ?_, by simp [h4, hs]⟩
  · intro he
    rcases bytes with _ | ⟨a, _ | ⟨b, l⟩⟩ <;> simp_all
  · intro he
    rcases bytes with _ | ⟨a, _ | ⟨b, _ | ⟨c, l⟩⟩⟩ <;> simp_all

/-- The name with a suffix appended; a suffix with a `/` in it is ignored. -/
def Name.append (n : Name) (suffix : List UInt8) : Name :=
  if h : 47 ∈ suffix then n else ⟨n.bytes ++ suffix, n.valid.append h⟩

/-- A place in the tree: the names from the root. -/
abbrev Loc := List Name

/-- A point in time, as a file system records it. -/
structure Stamp where
  seconds : Int
  nanoseconds : Nat
  deriving DecidableEq

/-- The metadata of a file or directory that can be set. -/
structure Attr where
  mode : Nat
  modified : Stamp
  deriving DecidableEq

/-- An object of the file system with everything below it. A symbolic link names the place it
leads to; a special object is a device, a FIFO or a socket. -/
inductive Node where
  | file (attr : Attr) (bytes : List UInt8)
  | dir (attr : Attr) (children : List (Name × Node))
  | link (target : Loc)
  | special

/-- An object without its metadata and without what lies below it. -/
inductive Shape where
  | file (bytes : List UInt8)
  | dir
  | link (target : Loc)
  | special
  deriving DecidableEq

namespace Node

def shape : Node → Shape
  | file _ bytes => .file bytes
  | dir _ _ => .dir
  | link target => .link target
  | special => .special

/-- The metadata of an object; links and special objects have none that can be set. -/
def attr? : Node → Option Attr
  | file attr _ => some attr
  | dir attr _ => some attr
  | _ => none

def children : Node → List (Name × Node)
  | dir _ cs => cs
  | _ => []

/-- The object at a place below this one. -/
def get : Node → Loc → Option Node
  | t, [] => some t
  | t, n :: p => (t.children.lookup n).bind fun c => c.get p

/-- What is known of the object at a place. -/
def observe {β : Type} (g : Node → Option β) (t : Node) (p : Loc) : Option β := (t.get p).bind g

/-- The metadata of the object at a place. -/
def attrAt (t : Node) (p : Loc) : Option Attr := t.observe attr? p

/-- What an observer of the tree sees at a place. -/
def view (t : Node) (p : Loc) : Option Shape := (t.get p).map shape

/-- Replace, add or remove the child of one name. -/
def setChild (cs : List (Name × Node)) (n : Name) (v : Option Node) : List (Name × Node) :=
  (v.map fun c => (n, c)).toList ++ cs.filter fun c => !decide (c.1 = n)

/-- Alter the object at a place, its absence included; the directory above it must exist. -/
def alter (f : Option Node → Option Node) : Loc → Node → Node
  | [], t => (f (some t)).getD t
  | n :: p, dir a cs =>
    match p with
    | [] => dir a (setChild cs n (f (cs.lookup n)))
    | _ :: _ =>
      match cs.lookup n with
      | some c => dir a (setChild cs n (some (c.alter f p)))
      | none => dir a cs
  | _ :: _, t => t

/-- Change the metadata of an object. -/
def mapAttr (g : Attr → Attr) : Node → Node
  | file a bytes => file (g a) bytes
  | dir a cs => dir (g a) cs
  | t => t

end Node

end FileSystem
