import PacketTide.Handshake
import PacketTide.Packet

/-!
# What is authenticated

All computations of HMAC by the program, with everything that goes into them: the messages of the
handshake under the key of the user, the derivation of the session keys from the session root, and
frames, datagrams and lane greetings under the derived keys.
-/

namespace PacketTide.Auth

open Effects Text

/-- The length of the part of a datagram before its tag. -/
def taggedHeader : Nat := 12

inductive MacInput where
  | clientHello (challenge : Hash) (hello : Str)
  | serverHello (challenge : Hash) (hello : Str) (serverNonce : Hash)
  | clientFinish (challenge : Hash) (hello : Str) (serverNonce : Hash)
  | sessionRoot (challenge : Hash) (hello : Str) (serverNonce : Hash)
  | sessionId
  | c2sKey
  | s2cKey
  | udpKey
  | laneKey
  | control (session : Vector UInt8 16) (direction : Direction) (sequence : UInt64) (payload : Str)
  | packet (header : Vector UInt8 taggedHeader) (payload : List UInt8)
  | lane (session : Vector UInt8 16) (number : UInt64)

/-- What HMAC is fed with. -/
def MacInput.message : MacInput → List UInt8
  | clientHello challenge hello => clientHelloInput challenge.bytes hello
  | serverHello challenge hello serverNonce =>
    serverHelloInput (transcriptOf challenge.bytes hello serverNonce.bytes)
  | clientFinish challenge hello serverNonce =>
    clientFinishInput (transcriptOf challenge.bytes hello serverNonce.bytes)
  | sessionRoot challenge hello serverNonce =>
    sessionRootInput (transcriptOf challenge.bytes hello serverNonce.bytes)
  | sessionId => ascii "session id"
  | c2sKey => ascii "client to server control"
  | s2cKey => ascii "server to client control"
  | udpKey => ascii "udp packets"
  | laneKey => ascii "tcp4 lanes"
  | control session direction sequence payload =>
    controlMacInput session.toList direction sequence.toNat payload
  | packet header payload => [ascii "tsu4 udp" ++ [0], header.toList, payload].flatten
  | lane session number => laneInput session.toList number.toNat

/-- The kinds of computations. -/
inductive MacKind where
  | clientHello | serverHello | clientFinish | sessionRoot
  | sessionId | c2sKey | s2cKey | udpKey | laneKey
  | control | packet | lane
  deriving DecidableEq

def MacInput.kind : MacInput → MacKind
  | clientHello _ _ => .clientHello
  | serverHello _ _ _ => .serverHello
  | clientFinish _ _ _ => .clientFinish
  | sessionRoot _ _ _ => .sessionRoot
  | sessionId => .sessionId
  | c2sKey => .c2sKey
  | s2cKey => .s2cKey
  | udpKey => .udpKey
  | laneKey => .laneKey
  | control _ _ _ _ => .control
  | packet _ _ => .packet
  | lane _ _ => .lane

/-- What every message of a kind begins with. -/
def MacKind.label : MacKind → List UInt8
  | clientHello => ascii "tsu4 client hello" ++ [0]
  | serverHello => ascii "tsu4 server hello" ++ [0]
  | clientFinish => ascii "tsu4 client finish" ++ [0]
  | sessionRoot => ascii "tsu4 session root" ++ [0]
  | sessionId => ascii "session id"
  | c2sKey => ascii "client to server control"
  | s2cKey => ascii "server to client control"
  | udpKey => ascii "udp packets"
  | laneKey => ascii "tcp4 lanes"
  | control => ascii "tsu4 control" ++ [0]
  | packet => ascii "tsu4 udp" ++ [0]
  | lane => ascii "tsu4 lane" ++ [0]

/-- A call that writes or accepts a tag does so for one of these computations. -/
def TagsInput : WireCall → Prop
  | .vouch _ message | .accept _ message => ∃ input : MacInput, message = input.message
  | _ => True

end PacketTide.Auth
