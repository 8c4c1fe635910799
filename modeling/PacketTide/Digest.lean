import PacketTide.FileSystem.Calls
import PacketTide.Text.Basic

/-!
# Hashes, errors and programs

The vocabulary that all parts share: the SHA-256 function, which comes from a library, the errors
that functions return, and programs over file-system calls.
-/

namespace PacketTide

open Effects FileSystem

/-- A SHA-256 value. -/
abbrev Hash : Type := Vector UInt8 32

/-- The SHA-256 function of the digest library. -/
class Sha256 where
  digest : List UInt8 → Hash

/-- The bytes of a hash. -/
def Hash.bytes (h : Hash) : List UInt8 := h.toList

/-- An error: one of the operating system, or a message. -/
inductive AnyError where
  | io (e : Errno)
  | message (text : String)
  deriving DecidableEq

/-- A program over file-system calls. -/
abbrev FsProg (α : Type) : Type := Prog FsReply AnyError α

/-- A call that fails for an external reason. -/
def refuse (c : FsCall) (e : Errno) : FsReply c := .error e

/-- Make a call and stop with its error if it is refused. -/
def ask (c : FsCall) : FsProg c.Value :=
  .call c fun
    | .ok v => .done (.ok v)
    | .error e => .done (.error (.io e))

/-- `fs::symlink_metadata`, with its error as a result. -/
def tryLstat (p : Path) : FsProg (Except Errno Metadata) := Prog.request (FsCall.lstat p)

/-- `Path::metadata`, with its error as a result. -/
def tryStat (p : Path) : FsProg (Except Errno Metadata) := Prog.request (FsCall.stat p)

/-- `OpenOptions::open`, with its error as a result. -/
def tryOpen (p : Path) (o : OpenOptions) : FsProg (Except Errno Loc) := Prog.request (FsCall.openFile p o)

/-- `fs::remove_file`, with its error as a result. -/
def tryRemove (p : Path) : FsProg (Except Errno Unit) := Prog.request (FsCall.removeFile p)

/-- Stop with a message. -/
def failWith {α : Type} (text : String) : FsProg α := .done (.error (.message text))

end PacketTide
