import PacketTide.SendUdp
import PacketTide.Wire

/-!
# Signs of life

When the sender gives signs of life, if a datagram keeps it busy for as long as its bytes take at the
rate, an empty repair queue keeps it for five milliseconds, and nothing else takes time.
-/

namespace PacketTide

open Text

/-! ## The idle timeout -/

/-- In milliseconds. -/
def defaultIdleTimeout : Nat := 30000

def minIdleTimeout : Nat := 500

def maxIdleTimeout : Nat := 3600000

/-- The idle timeout that an option asks for, in milliseconds. -/
def parseIdleTimeout (value : Option Str) : Except String Nat :=
  let value := value.getD (decimal defaultIdleTimeout)
  match parseUnsigned 64 10 value with
  | none => .error (Auth.parseError value)
  | some timeout =>
    if minIdleTimeout ≤ timeout ∧ timeout ≤ maxIdleTimeout then .ok timeout
    else .error "--idle-timeout-ms must be between 500 and 3600000"

/-! ## Datagrams -/

/-- The length of the datagram of a chunk. -/
def UdpSender.packetLen (c : UdpSender) (sequence : Nat) : Nat :=
  headerSize + min (c.size - sequence * c.payloadBytes) c.payloadBytes

/-- How long a datagram with so many bytes takes at a rate in bits per second, with the 28 bytes of the
headers around it. -/
def transmission (rate : ℚ) (bytes : Nat) : ℚ := 8 * (bytes + 28 : Nat) / rate

def UdpSender.sendTime (c : UdpSender) (rate : ℚ) (sequence : Nat) : ℚ :=
  transmission rate (c.packetLen sequence)

/-! ## The sending thread -/

namespace Sending

/-- How long the next action of the sending thread keeps it busy. -/
def cost (c : UdpSender) (rate : ℚ) (s : Sending) : ℚ :=
  match s.phase with
  | .original sequence => c.sendTime rate sequence
  | .interleaved _ (repair :: _) | .repairing (repair :: _) => c.sendTime rate repair
  | .taking => if s.repairs.queue = [] then 5 / 1000 else 0
  | _ => 0

/-- A run in which time passes only while the sending thread is busy, for so long at first. -/
def Prompt (c : UdpSender) (rate : ℚ) (s : Sending) (busy : ℚ) : List SendInput → Prop
  | [] => True
  | .act orders delays :: inputs =>
    busy = 0 ∧ (s.act c orders delays).now = s.now ∧
      (s.act c orders delays).Prompt c rate (s.cost c rate) inputs
  | .wait time :: inputs =>
    (time : ℚ) ≤ busy ∧ (s.step c (.wait time)).Prompt c rate (busy - time) inputs
  | input :: inputs => (s.step c input).Prompt c rate busy inputs

/-- The times of the signs of life, beginning with the start. -/
def beats (start : ℚ) (s : Sending) : List ℚ :=
  start :: s.log.filterMap fun
    | (t, .control payload) =>
      if payload = ascii "PING" ∨ payload = ascii "END" then some t else none
    | _ => none

/-- The time of the last sign of life. -/
def lastBeat (start : ℚ) (s : Sending) : ℚ := (s.beats start).getLast (List.cons_ne_nil _ _)

/-- Signs of life are less than a time apart. -/
def Alive (start limit : ℚ) (s : Sending) : Prop :=
  (s.beats start).IsChain fun t t' => t' < t + limit

/-- The chunks that are taken in the tail are sent again within a time from the last sign of life. -/
def QuickBatch (c : UdpSender) (rate start : ℚ) (s : Sending) : SendInput → Prop
  | .act _ _ => s.phase = .taking → s.repairs.queue ≠ [] →
      s.now + ((s.repairs.queue.take 1024).map (c.sendTime rate)).sum <
        s.lastBeat start + c.idleTimeout
  | _ => True

end Sending

end PacketTide
