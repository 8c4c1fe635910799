import PacketTide.Effects.Prog
import PacketTide.Hmac

/-!
# Connections

A party to a connection reads bytes one at a time, writes lines and draws random values. What it
reads is up to the network. The wire also records which messages the party vouched for by a tag in a
line it wrote, and which messages it accepted because of a tag that it read.
-/

namespace PacketTide

open Effects FileSystem Text

/-- How a party stops early: with an error, or with a panic. -/
inductive Stop where
  | error (e : AnyError)
  | panic
  deriving DecidableEq

inductive WireCall where
  /-- Read a byte; there is none once the connection is closed. -/
  | read
  /-- Write a line with its newline and flush. -/
  | write (line : Str)
  /-- Read 32 bytes of `/dev/urandom`. -/
  | random
  /-- Record that a tag for a message has been written. -/
  | vouch (key : Hash) (message : List UInt8)
  /-- Record that a tag for a message has been accepted. -/
  | accept (key : Hash) (message : List UInt8)

abbrev WireReply : WireCall → Type
  | .read => Except Errno (Option UInt8)
  | .write _ => Except Errno Unit
  | .random => Except Errno Hash
  | .vouch _ _ | .accept _ _ => Unit

/-- One end of a connection. -/
structure Wire where
  /-- What the coming reads give; after its end the connection is closed. -/
  input : List (Except Errno UInt8) := []
  /-- For each of the coming writes whether it fails; after the end of the list none does. A write
  that fails does not complete its line. -/
  failures : List (Option Errno) := []
  /-- The values of the coming draws; after their end drawing fails. -/
  draws : List Hash := []
  /-- The lines that have been written. -/
  output : List Str := []
  /-- The keys and messages that have been vouched for. -/
  vouched : List (Hash × List UInt8) := []
  /-- The keys and messages that have been accepted. -/
  accepted : List (Hash × List UInt8) := []

namespace Wire

def read (w : Wire) : Except Errno (Option UInt8) × Wire :=
  match w.input with
  | [] => (.ok none, w)
  | .ok b :: input => (.ok (some b), { w with input })
  | .error e :: input => (.error e, { w with input })

def write (w : Wire) (line : Str) : Except Errno Unit × Wire :=
  match w.failures with
  | some e :: failures => (.error e, { w with failures })
  | none :: failures => (.ok (), { w with failures, output := w.output ++ [line] })
  | [] => (.ok (), { w with output := w.output ++ [line] })

def random (w : Wire) : Except Errno Hash × Wire :=
  match w.draws with
  | value :: draws => (.ok value, { w with draws })
  | [] => (.error .other, w)

def exec : (c : WireCall) → Wire → WireReply c × Wire
  | .read, w => w.read
  | .write line, w => w.write line
  | .random, w => w.random
  | .vouch key message, w => ((), { w with vouched := w.vouched ++ [(key, message)] })
  | .accept key message, w => ((), { w with accepted := w.accepted ++ [(key, message)] })

end Wire

/-- The machine of a connection. -/
def wireMachine : Machine WireReply Wire where
  exec := Wire.exec
  torn _ _ _ := False

/-- A program over a connection. -/
abbrev WireProg (α : Type) : Type := Prog WireReply Stop α

namespace Auth

/-- Stop with a message. -/
def failWith {α : Type} (text : String) : WireProg α := .done (.error (.error (.message text)))

/-- The value of an option, or stop with a message. -/
def require {α : Type} (value : Option α) (text : String) : WireProg α :=
  match value with
  | some a => return a
  | none => failWith text

def readByte : WireProg (Option UInt8) :=
  .call .read fun
    | .ok b => .done (.ok b)
    | .error e => .done (.error (.error (.io e)))

def writeLine (line : Str) : WireProg Unit :=
  .call (.write line) fun
    | .ok () => .done (.ok ())
    | .error e => .done (.error (.error (.io e)))

def randomBytes : WireProg Hash :=
  .call .random fun
    | .ok value => .done (.ok value)
    | .error e => .done (.error (.error (.io e)))

/-- Write a line that ends with the tag of a message. -/
def writeTagged [Sha256] (key : Hash) (message : List UInt8) (line : Str) : WireProg Unit := do
  writeLine (line ++ hex (hmacSha256 key.bytes message).bytes)
  .call (.vouch key message) fun _ => .done (.ok ())

/-- Accept a message by its tag, or stop with a message of one's own. -/
def checkTag [Sha256] (key : Hash) (message supplied : List UInt8) (text : String) :
    WireProg Unit :=
  if constantTimeEq supplied (hmacSha256 key.bytes message).bytes = false then failWith text
  else .call (.accept key message) fun _ => .done (.ok ())

/-! ## Lines -/

/-- Read the rest of a line, of which some bytes have been read, with a number of reads. -/
def readLineFrom : Nat → List UInt8 → WireProg Str
  | 0, _ => failWith "authenticated protocol line is too long"
  | n + 1, bytes => do
    match ← readByte with
    | none => failWith "connection closed during authenticated message"
    | some b =>
      if b = newline then require (fromUtf8 bytes) "invalid utf-8 sequence"
      else if b = carriageReturn then
        failWith "carriage returns are not allowed in protocol messages"
      else readLineFrom n (bytes ++ [b])

def readLineLimited (limit : Nat) : WireProg Str := readLineFrom limit []

/-! ## Fields -/

/-- Why a number could not be parsed. -/
def parseError (value : Str) : String :=
  if value = [] then "cannot parse integer from empty string"
  else if (digitsValue 10 ((stripPrefix [43] value).getD value)).isSome ∧ value ≠ [43] then
    "number too large to fit in target type"
  else "invalid digit found in string"

/-- A number of 64 bits, by `str::parse`. -/
def parseNumber (value : Str) : WireProg Nat := require (parseUnsigned 64 10 value) (parseError value)

/-- The bytes of a number of pairs of hexadecimal digits, by slices from an index on. -/
def decodePairs (value : Str) : Nat → Nat → Except Stop (List UInt8)
  | 0, _ => .ok []
  | n + 1, index =>
    match slice value (index * 2) (index * 2 + 2) with
    | none => .error .panic
    | some pair =>
      match parseUnsigned 8 16 pair with
      | none => .error (.error (.message "invalid digit found in string"))
      | some byte => (decodePairs value n (index + 1)).map (UInt8.ofNat byte :: ·)

def decodeArray (n : Nat) (value : Str) : Except Stop (List UInt8) :=
  if value.length ≠ n * 2 then .error (.error (.message "invalid hexadecimal field length"))
  else decodePairs value n 0

end Auth

end PacketTide
