import PacketTide.Handshake

/-!
# What a peer puts on a connection

The readers of the handshake, of the control channel and of the lanes take hexadecimal fields out of
lines and slice them into pairs by byte offsets. A field is straddled if a character of several bytes
lies across the end of one of its pairs. Here is which fields each reader looks at, for any input.
-/

namespace PacketTide.Auth

open FileSystem Text

/-- A field of the length of a number of bytes, in which pairs of digits are followed by a pair with
an end inside a character. -/
def Straddled (n : Nat) (value : Str) : Prop :=
  value.length = n * 2 ∧ ∃ i < n,
    (∀ j < i, ∃ byte, parseUnsigned 8 16 ((value.drop (j * 2)).take 2) = some byte) ∧
    ¬(isCharBoundary value (i * 2) = true ∧ isCharBoundary value (i * 2 + 2) = true)

/-! ## Lines -/

/-- The rest of a line, of which some bytes are known, within a number of bytes, and what comes after
the line. -/
def lineFrom : Nat → Str → List (Except Errno UInt8) → Option (Str × List (Except Errno UInt8))
  | 0, _, _ => none
  | _ + 1, _, [] => none
  | _ + 1, _, .error _ :: _ => none
  | n + 1, bytes, .ok b :: input =>
    if b = newline then (fromUtf8 bytes).map fun line => (line, input)
    else if b = carriageReturn then none
    else lineFrom n (bytes ++ [b]) input

def firstLine (limit : Nat) (input : List (Except Errno UInt8)) :
    Option (Str × List (Except Errno UInt8)) :=
  lineFrom limit [] input

/-- The same for the greeting of a lane. -/
def greetingFrom : Nat → Str → List (Except Errno UInt8) → Option Str
  | 0, _, _ => none
  | _ + 1, _, [] => none
  | _ + 1, _, .error _ :: _ => none
  | n + 1, bytes, .ok b :: input =>
    if b = newline then some bytes else greetingFrom n (bytes ++ [b]) input

/-- A reader returns, with a result or an error, whichever of its writes fail. -/
def PanicFree {α : Type} (reader : WireProg α) (draws : List Hash)
    (input : List (Except Errno UInt8)) : Prop :=
  ∀ failures output vouched accepted,
    (reader.run wireMachine ⟨input, failures, draws, output, vouched, accepted⟩).1 ≠ .error .panic

/-! ## The fields that are decoded -/

/-- The server decodes the tag of a greeting and, if that is valid, the tag of a finish. -/
def ServerStraddled [Sha256] (key : Hash) (draws : List Hash) (input : List (Except Errno UInt8)) :
    Prop :=
  ∃ challenge rest line input₁ body hello mac, draws = challenge :: rest ∧
    firstLine maxHandshakeLine input = some (line, input₁) ∧
    stripPrefix (ascii "TSU4 ") line = some body ∧ rsplitOnce space body = some (hello, mac) ∧
    (Straddled 32 mac ∨ ∃ supplied nonce rest' line' input₂ finish,
      decodeArray 32 mac = .ok supplied ∧
      constantTimeEq supplied
        (hmacSha256 key.bytes (clientHelloInput challenge.bytes hello)).bytes = true ∧
      rest = nonce :: rest' ∧ firstLine maxHandshakeLine input₁ = some (line', input₂) ∧
      stripPrefix (ascii "TSU4F ") line' = some finish ∧ Straddled 32 finish)

/-- The client decodes a challenge, and then the nonce and the tag of a response. -/
def ClientStraddled (input : List (Except Errno UInt8)) : Prop :=
  ∃ line input₁ challengeHex, firstLine maxHandshakeLine input = some (line, input₁) ∧
    stripPrefix (ascii "TSU4C ") line = some challengeHex ∧
    (Straddled 32 challengeHex ∨ ∃ challenge line' input₂ nonce mac,
      decodeArray 32 challengeHex = .ok challenge ∧
      firstLine maxHandshakeLine input₁ = some (line', input₂) ∧
      splitWhitespace line' = [ascii "TSU4S", nonce, mac] ∧
      (Straddled 32 nonce ∨ ∃ serverNonce, decodeArray 32 nonce = .ok serverNonce ∧
        Straddled 32 mac))

/-- The control reader decodes the tag of a frame of its place. -/
def FrameStraddled (sequence : Nat) (input : List (Except Errno UInt8)) : Prop :=
  ∃ line input₁ field tail payload mac, firstLine maxControlLine input = some (line, input₁) ∧
    splitN space 3 line = [ascii "A", field, tail] ∧
    parseUnsigned 64 10 field = some sequence ∧ rsplitOnce space tail = some (payload, mac) ∧
    Straddled 32 mac

/-- The server decodes the session id and the tag of a lane's greeting. -/
def LaneStraddled (input : List (Except Errno UInt8)) : Prop :=
  ∃ greeting session lane mac, greetingFrom 128 [] input = some greeting ∧
    validUtf8 greeting = true ∧ splitWhitespace greeting = [ascii "TSU4D", session, lane, mac] ∧
    (Straddled 16 session ∨ ∃ bytes number, decodeArray 16 session = .ok bytes ∧
      parseUnsigned 64 10 lane = some number ∧ Straddled 32 mac)

end PacketTide.Auth
