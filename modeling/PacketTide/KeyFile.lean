import PacketTide.Digest
import PacketTide.Repairs

/-!
# The key file

The shared key is kept in a file of its own that only its owner may use. It is made once, and never in the
place of something else.
-/

namespace PacketTide

open Effects FileSystem Text

namespace SecretKey

def keyLen : Nat := 32

/-- `SecretKey::load`. -/
def load (path : Path) : FsProg Hash := do
  let metadata ← ask (.stat path)
  if (metadata.attr.elim 0 Attr.mode) &&& 0o077 ≠ 0 then
    failWith ("key file " ++ asciiText path.bytes ++ " must not be accessible by group or others (chmod 600)")
  else
    let file ← ask (.openFile path {})
    let bytes ← ask (.readToEnd file)
    if h : bytes.toArray.size = keyLen then return ⟨bytes.toArray, h⟩
    else failWith "key file must contain exactly 32 raw bytes"

/-- `SecretKey::generate`, with the bytes that the kernel draws. -/
def generate (drawn : Except Errno Hash) (path : Path) : FsProg Unit := do
  let key ← Prog.lift (drawn.mapError AnyError.io)
  let file ← ask (.openFile path { write := true, createNew := true, mode := 0o600 })
  ask (.write file key.bytes)
  ask (.sync file)

/-- Attempts to make a key file, one after the other, each with what the kernel has drawn; any of their calls
may be refused, and each of them may be killed at any point. -/
inductive Attempts (path : Path) (fs : FS) : List (Except Errno Hash) → FS → Prop where
  | none : Attempts path fs [] fs
  | attempt {drawns : List (Except Errno Hash)} {drawn : Except Errno Hash} {t u : FS}
      (h : Attempts path fs drawns t) (hvisits : Prog.Visits machine refuse (generate drawn path) t u) :
      Attempts path fs (drawns ++ [drawn]) u

end SecretKey

end PacketTide
