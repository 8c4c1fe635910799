import PacketTide.Control
import PacketTide.Wire

/-!
# Authentication

The handshake, by which both sides prove that they hold the key and agree on the transfer, the
session keys that come from it, and the frames of the control channel.
-/

namespace PacketTide.Auth

open Effects FileSystem Text

def maxHandshakeLine : Nat := 2048

/-- The session id and the keys of a session, one for each direction and purpose. -/
structure SessionAuth where
  session : List UInt8
  c2s : Hash
  s2c : Hash
  udp : Hash
  lane : Hash
  deriving DecidableEq

inductive Direction where
  | clientToServer
  | serverToClient
  deriving DecidableEq

def SessionAuth.controlKey (auth : SessionAuth) : Direction → Hash
  | .clientToServer => auth.c2s
  | .serverToClient => auth.s2c

/-! ## The messages that are authenticated -/

def clientHelloInput (challenge : List UInt8) (hello : Str) : List UInt8 :=
  joined (ascii "tsu4 client hello" ++ [0]) [challenge, hello]

def transcriptOf (challenge : List UInt8) (hello : Str) (serverNonce : List UInt8) : List UInt8 :=
  joined (ascii "tsu4 transcript" ++ [0]) [challenge, hello, serverNonce]

def serverHelloInput (transcript : List UInt8) : List UInt8 :=
  joined (ascii "tsu4 server hello" ++ [0]) [transcript]

def clientFinishInput (transcript : List UInt8) : List UInt8 :=
  joined (ascii "tsu4 client finish" ++ [0]) [transcript]

def sessionRootInput (transcript : List UInt8) : List UInt8 :=
  joined (ascii "tsu4 session root" ++ [0]) [transcript]

def deriveSession [Sha256] (psk : Hash) (transcript : List UInt8) : SessionAuth :=
  let root := hmacSha256 psk.bytes (sessionRootInput transcript)
  let derive (label : String) : Hash := hmacSha256 root.bytes (ascii label)
  { session := (derive "session id").bytes.take 16
    c2s := derive "client to server control"
    s2c := derive "server to client control"
    udp := derive "udp packets"
    lane := derive "tcp4 lanes" }

def Direction.letter : Direction → UInt8
  | .clientToServer => 99
  | .serverToClient => 115

def controlMacInput (session : List UInt8) (direction : Direction) (sequence : Nat)
    (payload : Str) : List UInt8 :=
  joined (ascii "tsu4 control" ++ [0]) [session, [direction.letter], toBeBytes sequence, payload]

def laneInput (session : List UInt8) (lane : Nat) : List UInt8 :=
  joined (ascii "tsu4 lane" ++ [0]) [session, toBeBytes lane]

/-! ## The handshake -/

/-- The client's side after the challenge has been read. -/
def clientRespond [Sha256] (key : Hash) (hello : Str) (challenge : List UInt8) :
    WireProg SessionAuth := do
  writeTagged key (clientHelloInput challenge hello) (ascii "TSU4 " ++ hello ++ [space])
  let serverLine ← readLineLimited maxHandshakeLine
  match splitWhitespace serverLine with
  | [tag, nonce, mac] =>
    if tag ≠ ascii "TSU4S" then failWith "invalid TSU4 server response"
    else do
      let serverNonce ← Prog.lift (decodeArray 32 nonce)
      let supplied ← Prog.lift (decodeArray 32 mac)
      let transcript := transcriptOf challenge hello serverNonce
      checkTag key (serverHelloInput transcript) supplied "receiver authentication failed"
      writeTagged key (clientFinishInput transcript) (ascii "TSU4F ")
      return deriveSession key transcript
  | _ => failWith "invalid TSU4 server response"

def clientHandshake [Sha256] (key : Hash) (hello : Str) : WireProg SessionAuth := do
  let challengeLine ← readLineLimited maxHandshakeLine
  let challengeHex ← require (stripPrefix (ascii "TSU4C ") challengeLine)
    "receiver did not offer a TSU4 challenge"
  let challenge ← Prog.lift (decodeArray 32 challengeHex)
  clientRespond key hello challenge

/-- The server's side after the client's greeting has been accepted. -/
def serverRespond [Sha256] (key : Hash) (challenge : Hash) (hello : Str) :
    WireProg (Str × SessionAuth) := do
  let serverNonce ← randomBytes
  let transcript := transcriptOf challenge.bytes hello serverNonce.bytes
  writeTagged key (serverHelloInput transcript)
    (ascii "TSU4S " ++ hex serverNonce.bytes ++ [space])
  let finishLine ← readLineLimited maxHandshakeLine
  let finish ← require (stripPrefix (ascii "TSU4F ") finishLine) "invalid client finish"
  let suppliedFinish ← Prog.lift (decodeArray 32 finish)
  checkTag key (clientFinishInput transcript) suppliedFinish "client finish authentication failed"
  return (hello, deriveSession key transcript)

def serverHandshake [Sha256] (key : Hash) : WireProg (Str × SessionAuth) := do
  let challenge ← randomBytes
  writeLine (ascii "TSU4C " ++ hex challenge.bytes)
  let clientLine ← readLineLimited maxHandshakeLine
  let body ← require (stripPrefix (ascii "TSU4 ") clientLine) "invalid TSU4 client greeting"
  let (hello, mac) ← require (rsplitOnce space body) "missing client greeting MAC"
  let supplied ← Prog.lift (decodeArray 32 mac)
  checkTag key (clientHelloInput challenge.bytes hello) supplied "client authentication failed"
  serverRespond key challenge hello

/-! ## The control channel -/

/-- The writing side of one direction of a session. -/
structure ControlWriter where
  auth : SessionAuth
  direction : Direction
  sequence : Nat := 0

def ControlWriter.send [Sha256] (writer : ControlWriter) (payload : Str) :
    WireProg ControlWriter :=
  if ¬ controlPayload payload then failWith "invalid authenticated control payload"
  else do
    writeTagged (writer.auth.controlKey writer.direction)
      (controlMacInput writer.auth.session writer.direction writer.sequence payload)
      (ascii "A " ++ decimal writer.sequence ++ space :: payload ++ [space])
    if 2 ^ 64 ≤ writer.sequence + 1 then failWith "control sequence exhausted"
    else return { writer with sequence := writer.sequence + 1 }

/-- The reading side of one direction of a session. -/
structure ControlReader where
  auth : SessionAuth
  direction : Direction
  sequence : Nat := 0

def ControlReader.recv [Sha256] (reader : ControlReader) : WireProg (Str × ControlReader) := do
  let line ← readLineLimited maxControlLine
  let fields := splitN space 3 line
  if fields[0]? ≠ some (ascii "A") then failWith "invalid authenticated control frame"
  else do
    let sequence ← require fields[1]? "missing control sequence"
    let sequence ← parseNumber sequence
    if sequence ≠ reader.sequence then failWith "replayed or out-of-order control frame"
    else do
      let tail ← require fields[2]? "missing control payload"
      let (payload, mac) ← require (rsplitOnce space tail) "missing control MAC"
      let supplied ← Prog.lift (decodeArray 32 mac)
      checkTag (reader.auth.controlKey reader.direction)
        (controlMacInput reader.auth.session reader.direction sequence payload) supplied
        "control authentication failed"
      if 2 ^ 64 ≤ reader.sequence + 1 then failWith "control sequence exhausted"
      else return (payload, { reader with sequence := reader.sequence + 1 })

/-! ## The lanes of a TCP4 transfer -/

def tcp4Lanes : Nat := 4

/-- Read the rest of a greeting, of which some bytes have been read, with a number of reads. -/
def readGreetingFrom : Nat → List UInt8 → WireProg (List UInt8)
  | 0, _ => failWith "TCP4 data greeting is too long"
  | n + 1, greeting => do
    match ← readByte with
    | none => failWith "TCP4 data connection ended before its greeting"
    | some b => if b = newline then return greeting else readGreetingFrom n (greeting ++ [b])

def readTcp4Hello [Sha256] (auth : SessionAuth) : WireProg Nat := do
  let greeting ← readGreetingFrom 128 []
  let greeting ← require (fromUtf8 greeting) "invalid utf-8 sequence"
  match splitWhitespace greeting with
  | [tag, session, lane, mac] =>
    if tag ≠ ascii "TSU4D" then failWith "invalid TCP4 data greeting"
    else do
      let session ← Prog.lift (decodeArray 16 session)
      let lane ← parseNumber lane
      let supplied ← Prog.lift (decodeArray 32 mac)
      if session ≠ auth.session ∨ tcp4Lanes ≤ lane then failWith "invalid TCP4 session or lane"
      else do
        checkTag auth.lane (laneInput session lane) supplied
          "TCP4 lane authentication failed"
        return lane
  | _ => failWith "invalid TCP4 data greeting"

end PacketTide.Auth
