import PacketTide.SendTcp

/-!
# Four lanes

The sender writes each part of the object to a connection of its own, which it opens with a greeting that
names the lane. The receiver finds out by the greetings which connection carries which part.
-/

namespace PacketTide

open Effects FileSystem Prog Text

/-! ## The sender -/

/-- Write a range of a file. The reads that come fail or return so many bytes beyond the first at most; a read
returns at least one byte, so there are no more reads than bytes. -/
def sendTcpRange (source : List UInt8) :
    Nat → Nat → Nat → List (Except Errno Nat) → BulkStream → Except AnyError Unit × BulkStream
  | 0, _, _, _, out => (.ok (), out)
  | n + 1, offset, stop, reads, out =>
    if stop ≤ offset then (.ok (), out)
    else
      match reads.head?.getD (.ok bulkBufferLen) with
      | .error e => (.error (.io e), out)
      | .ok more =>
        match (source.drop offset).take (min (min (stop - offset) bulkBufferLen) (more + 1)) with
        | [] => (.error (.message "unexpected EOF while sending TCP4 range"), out)
        | b :: bytes =>
          match out.writeAll (b :: bytes) with
          | (.error e, out) => (.error e, out)
          | (.ok (), out) => sendTcpRange source n (offset + (bytes.length + 1)) stop reads.tail out

/-- The line that a connection for a lane starts with. -/
def laneGreeting [Sha256] (auth : Auth.SessionAuth) (lane : Nat) : Str :=
  ascii "TSU4D " ++ hex auth.session ++ space :: decimal lane ++
    space :: hex (hmacSha256 auth.lane.bytes (Auth.laneInput auth.session lane)).bytes

/-- A sender over TCP4: what the file holds, and what the reads of each thread return and when its connection
breaks. -/
structure Tcp4Send where
  source : List UInt8
  reads : Nat → List (Except Errno Nat) := fun _ => []
  breaks : Nat → Option (Nat × Errno) := fun _ => none

/-- Greet on the connection of a lane. -/
def Tcp4Send.greet [Sha256] (s : Tcp4Send) (auth : Auth.SessionAuth) (lane : Nat) :
    Except AnyError Unit × BulkStream :=
  BulkStream.writeAll { breaks := s.breaks lane } (laneGreeting auth lane ++ [newline])

/-- What the sender writes to the connection of a lane. It opens one connection after the other and greets on
it, and the threads start when it has greeted on all. -/
def Tcp4Send.sentOn [Sha256] (s : Tcp4Send) (auth : Auth.SessionAuth) (lane : Nat) : List UInt8 :=
  match (List.range Auth.tcp4Lanes).find? fun other => !(s.greet auth other).1.isOk with
  | some failed => if lane ≤ failed then (s.greet auth lane).2.written else []
  | none =>
    let range := tcp4LaneRange s.source.length lane
    (sendTcpRange s.source (range.2 - range.1) range.1 range.2 (s.reads lane) (s.greet auth lane).2).2.written

/-! ## Which connection carries which lane -/

/-- A greeting for a lane of a session, with a tag that only the ends of the session can make. -/
def LaneGreeting [Sha256] (auth : Auth.SessionAuth) (lane : Nat) (line : Str) : Prop :=
  ∃ session number mac, splitWhitespace line = [ascii "TSU4D", session, number, mac] ∧
    Auth.decodeArray 16 session = .ok auth.session ∧ parseUnsigned 64 10 number = some lane ∧
    lane < Auth.tcp4Lanes ∧
    Auth.decodeArray 32 mac = .ok (hmacSha256 auth.lane.bytes (Auth.laneInput auth.session lane)).bytes

/-- A connection greets for a lane, and this is left of it then. -/
def Greets [Sha256] (auth : Auth.SessionAuth) (stream : DataStream) (lane : Nat) (left : DataStream) : Prop :=
  ∃ line, newline ∉ line ∧ LaneGreeting auth lane line ∧ left.sizes = stream.sizes ∧
    stream.input = line.map .ok ++ .ok newline :: left.input

/-- The connections that have been accepted. -/
def connections (accepted : List Arrival) : List DataStream :=
  accepted.filterMap fun arrival =>
    match arrival with
    | .connection stream => some stream
    | _ => none

/-- Every connection that has been waited for has greeted for a lane of its own, and carries that one. -/
def Assigned [Sha256] (auth : Auth.SessionAuth) (accepted : List Arrival) (lanes : List DataStream) : Prop :=
  ∃ waited rest greeted, accepted = waited ++ rest ∧
    List.Forall₂ (fun stream (entry : Nat × DataStream) => Greets auth stream entry.1 entry.2)
      (connections waited) greeted ∧
    (greeted.map Prod.fst).Perm (List.range Auth.tcp4Lanes) ∧
    ∀ entry ∈ greeted, lanes[entry.1]? = some entry.2

/-! ## Both ends -/

/-- A sender and a receiver over TCP4, from the acceptance on. The receiver's working directory is there. -/
structure Tcp4Run where
  sender : Tcp4Send
  auth : Auth.SessionAuth
  temporary : Path
  events : Tcp4Events
  fs : FS
  home : fs.view fs.home = some .dir

/-- Only the sender can greet with a right tag: what comes over a connection with such a greeting is what the
sender has written to one of its connections, or the beginning of it. -/
def Tcp4Run.Carries [Sha256] (r : Tcp4Run) : Prop :=
  ∀ stream ∈ connections r.events.accepted, ∀ lane left, Greets r.auth stream lane left →
    ∃ own < Auth.tcp4Lanes, leadingBytes stream.input <+: r.sender.sentOn r.auth own

/-- The receiver has received all lanes into a file, by some calls. -/
def Tcp4Run.Finishes [Sha256] (r : Tcp4Run) (file : Loc) (t : FS) (calls : List FsCall) : Prop :=
  Succeeds machine.recording refuse (receiveLanes r.auth r.temporary r.sender.source.length r.events) (r.fs, [])
    (some file) (t, calls)

/-- A call writes the byte at an offset of a file. -/
def WritesByte (file : Loc) (offset : Nat) : FsCall → Bool
  | .writeAt h start bytes => h = file ∧ start ≤ offset ∧ offset < start + bytes.length
  | _ => false

/-- How often the byte at an offset of a file has been written. -/
def timesWritten (file : Loc) (calls : List FsCall) (offset : Nat) : Nat := calls.countP (WritesByte file offset)

/-- The lanes of an object: four ranges one after the other, of nearly the same length, that are computed
without overflow. -/
structure SplitsLanes (size : Nat) : Prop where
  exact : ∀ lane < Auth.tcp4Lanes, tcp4LaneRangeChecked size lane = some (tcp4LaneRange size lane)
  first : (tcp4LaneRange size 0).1 = 0
  next : ∀ lane, (tcp4LaneRange size lane).2 = (tcp4LaneRange size (lane + 1)).1
  last : (tcp4LaneRange size (Auth.tcp4Lanes - 1)).2 = size
  even : ∀ lane other, (tcp4LaneRange size lane).2 - (tcp4LaneRange size lane).1 ≤
    (tcp4LaneRange size other).2 - (tcp4LaneRange size other).1 + 1

end PacketTide
