import PacketTide.Digest

/-!
# The control channel

Both sides write lines to a connection whose frames are authenticated and numbered. A writer
refuses lines that do not fit into a frame, and a write may fail.
-/

namespace PacketTide

open FileSystem Text

/-- The most bytes that a line of the connection may have. -/
def maxControlLine : Nat := 64 * 1024

/-- Whether a payload fits into a frame. -/
def controlPayload (payload : Str) : Prop :=
  newline ∉ payload ∧ payload.length ≤ maxControlLine / 2

instance (payload : Str) : Decidable (controlPayload payload) :=
  inferInstanceAs (Decidable (_ ∧ _))

/-- The writing side: the payloads sent so far, and for the coming writes whether each succeeds;
after the end of that list all do. -/
structure ControlWriter where
  sent : List Str := []
  fates : List Bool := []
  deriving DecidableEq

def ControlWriter.send (writer : ControlWriter) (payload : Str) : Except AnyError ControlWriter :=
  if ¬ controlPayload payload then .error (.message "invalid authenticated control payload")
  else if writer.fates.head? = some false then .error (.io .other)
  else .ok { sent := writer.sent ++ [payload], fates := writer.fates.tail }

/-- Send payloads one after the other. -/
def sendAll : ControlWriter → List Str → Except AnyError ControlWriter
  | writer, [] => .ok writer
  | writer, payload :: payloads =>
    match writer.send payload with
    | .ok writer => sendAll writer payloads
    | .error e => .error e

/-- Collect a number of payloads into a text of lines that must not grow beyond a limit: the text
and the payloads that are left. -/
def collectLines (limit : Nat) (tooLong : String) :
    Nat → Str → List Str → Except String (Str × List Str)
  | 0, encoded, payloads => .ok (encoded, payloads)
  | _ + 1, _, [] => .error "connection closed during authenticated message"
  | n + 1, encoded, line :: payloads =>
    if encoded.length + line.length + 1 > limit then .error tooLong
    else collectLines limit tooLong n (encoded ++ line ++ [newline]) payloads

/-- Expect one payload next: the payloads that are left. -/
def expectLine (expected : Str) (mismatch : String) : List Str → Except String (List Str)
  | [] => .error "connection closed during authenticated message"
  | line :: payloads => if line = expected then .ok payloads else .error mismatch

end PacketTide
