import PacketTide.Handshake
import PacketTide.ReceiveLoop

/-!
# Receiving an object over TCP

The object comes as plain bytes, over the control connection or over four connections of its own that
are received concurrently. It is put into a temporary file, which is moved to the destination when its
hash is right.
-/

namespace PacketTide

open Effects FileSystem Prog Text

/-! ## Connections -/

/-- The reading end of a connection that carries an object: what its coming bytes are, with errors
between them, and how many bytes beyond the first each read may return; after the end of that list no
read is short. -/
structure DataStream where
  input : List (Except Errno UInt8)
  sizes : List Nat := []

/-- The bytes before the first error. -/
def leadingBytes : List (Except Errno UInt8) → List UInt8
  | .ok b :: input => b :: leadingBytes input
  | _ => []

/-- A read of at most so many bytes, with what is left; it returns nothing once the connection is closed. -/
def DataStream.read (stream : DataStream) (count : Nat) : Except Errno (List UInt8) × DataStream :=
  match stream.input with
  | .error e :: input => (.error e, { stream with input })
  | input =>
    let most := stream.sizes.head?.elim count fun more => min count (more + 1)
    let bytes := (leadingBytes input).take most
    (.ok bytes, { input := input.drop bytes.length, sizes := stream.sizes.tail })

/-- The size of the buffer for bulk data. -/
def bulkBufferLen : Nat := 1024 * 1024

/-! ## Installing -/

def tryCreateDir (p : Path) : FsProg (Except Errno Unit) := Prog.request (FsCall.createDir p)

/-- Whether a path leads to a directory. -/
def isDir (p : Path) : FsProg Bool := do
  match ← tryStat p with
  | .ok metadata => return metadata.fileType = .dir
  | .error _ => return false

/-- `fs::create_dir_all`; the number bounds the parents that are tried. -/
def createDirAll : Nat → Path → FsProg Unit
  | 0, _ => failWith "failed to create whole tree"
  | n + 1, p =>
    if p = Path.empty then return ()
    else do
      match ← tryCreateDir p with
      | .ok () => return ()
      | .error .notFound =>
        match p.parent with
        | none => failWith "failed to create whole tree"
        | some parent => do
          createDirAll n parent
          match ← tryCreateDir p with
          | .ok () => return ()
          | .error e => if ← isDir p then return () else Prog.fail (.io e)
      | .error e => if ← isDir p then return () else Prog.fail (.io e)

def createParents (p : Path) : FsProg Unit :=
  match p.parent with
  | none => return ()
  | some parent => createDirAll (p.names.length + 1) parent

def installFile (temporary destination : Path) : FsProg Unit := do
  createParents destination
  ask (.rename temporary destination)

/-- The file beside the destination that the object is put into. -/
def temporaryPath (pid : Nat) (destination : Path) : Path :=
  destination.appended (ascii ".part." ++ decimal pid)

/-- `hash_file`, before the hash is written in hexadecimal. -/
def hashFile [Sha256] (path : Path) : FsProg Hash := do
  let file ← ask (.openFile path {})
  let content ← ask (.readToEnd file)
  return Sha256.digest content

/-- Tell the sender that the object is installed; `answer` is the line that it answers with. -/
def sendCompletionAndWait (answer : Except AnyError Str) : SiteProg Unit := do
  sendControl (ascii "COMPLETE")
  let acknowledgement ← Prog.lift answer
  if acknowledgement ≠ ascii "COMPLETE_ACK" then stopWith "expected completion acknowledgement"

/-! ## One connection -/

/-- Receive the rest of an object; a read returns at least one byte, so there are at most as many reads
as bytes. The result is everything that has been hashed, and what is left of the connection. -/
def receiveBody (file : Loc) : Nat → Nat → List UInt8 → DataStream → FsProg (List UInt8 × DataStream)
  | 0, _, hashed, stream => return (hashed, stream)
  | n + 1, remaining, hashed, stream =>
    if remaining = 0 then return (hashed, stream)
    else
      match stream.read (min remaining bulkBufferLen) with
      | (.error e, _) => Prog.fail (.io e)
      | (.ok [], _) => failWith "TCP data ended before the complete file arrived"
      | (.ok (b :: bytes), stream) => do
        ask (.writeAt file hashed.length (b :: bytes))
        receiveBody file n (remaining - (bytes.length + 1)) (hashed ++ b :: bytes) stream

/-- The end of a transfer of which all bytes are there. -/
def completeTcp [Sha256] (temporary destination : Path) (hello : Hello) (file : Loc) (hashed : List UInt8)
    (answer : Except AnyError Str) : SiteProg Unit := do
  onFiles (ask (.sync file))
  if hex (Sha256.digest hashed).bytes ≠ hello.hash then
    sendControl (ascii "ERROR hash-mismatch")
    stopWith "received TCP file hash did not match"
  else
    onFiles (installFile temporary destination)
    sendCompletionAndWait answer

def receiveTcp [Sha256] (temporary destination : Path) (hello : Hello) (stream : DataStream)
    (answer : Except AnyError Str) : SiteProg Unit := do
  let file ← onFiles (ask (.openFile temporary { write := true, create := true, truncate := true }))
  let (hashed, _) ← onFiles (receiveBody file hello.size hello.size [] stream)
  completeTcp temporary destination hello file hashed answer

/-! ## Four connections -/

/-- The part of an object that a lane carries, by its start and its end. -/
def tcp4LaneRange (size lane : Nat) : Nat × Nat :=
  let base := size / Auth.tcp4Lanes
  let remainder := size % Auth.tcp4Lanes
  let start := base * lane + min remainder lane
  let length := base + if lane < remainder then 1 else 0
  (start, start + length)

/-- A number of 64 bits, or nothing if the operation that gives it has overflowed. -/
def within64 (n : Nat) : Option Nat := if n < 2 ^ 64 then some n else none

/-- `tcp4LaneRange`, operation by operation on numbers of 64 bits. -/
def tcp4LaneRangeChecked (size lane : Nat) : Option (Nat × Nat) := do
  let base := size / Auth.tcp4Lanes
  let remainder := size % Auth.tcp4Lanes
  let before ← within64 (base * lane)
  let start ← within64 (before + min remainder lane)
  let length ← within64 (base + if lane < remainder then 1 else 0)
  let stop ← within64 (start + length)
  return (start, stop)

/-- What `accept` gives. -/
inductive Arrival where
  | connection (stream : DataStream)
  /-- There is no connection yet; whether it is too late to wait for one. -/
  | wouldBlock (late : Bool)
  | error (e : Errno)

/-- Wait until every lane has its connection; there is no result if a greeting makes the receiver panic. -/
def acceptLanes [Sha256] (auth : Auth.SessionAuth) :
    List (Option DataStream) → List Arrival → Except AnyError (Option (List DataStream))
  | lanes, accepted =>
    if lanes.all Option.isSome then .ok (some (lanes.filterMap id))
    else
      match accepted with
      | [] => .error (.message "timed out waiting for TCP4 data connections")
      | .connection stream :: accepted =>
        match (Auth.readTcp4Hello auth).run wireMachine { input := stream.input } with
        | (.error .panic, _) => .ok none
        | (.error (.error e), _) => .error e
        | (.ok lane, wire) =>
          match lanes[lane]? with
          | some none => acceptLanes auth (lanes.set lane (some { stream with input := wire.input })) accepted
          | _ => .error (.message "invalid or duplicate TCP4 data connection")
      | .wouldBlock late :: accepted =>
        if late then .error (.message "timed out waiting for TCP4 data connections")
        else acceptLanes auth lanes accepted
      | .error e :: _ => .error (.io e)

/-- The thread that receives a lane. -/
structure LaneWorker where
  stream : DataStream
  /-- Where the next byte belongs. -/
  offset : Nat
  stop : Nat
  /-- The bytes that have been read and not yet been written. -/
  pending : List UInt8 := []
  /-- How many bytes the coming writes take at most; after the end of that list no write is short. -/
  writes : List Nat := []
  failure : Option AnyError := none

/-- A round of the loop of `write_all_at`. -/
def LaneWorker.write (file : Loc) (worker : LaneWorker) : FsProg LaneWorker :=
  match worker.pending.take (worker.writes.head?.getD worker.pending.length) with
  | [] => return { worker with failure := some (.message "short positional file write") }
  | b :: bytes => do
    match ← Prog.request (FsCall.writeAt file worker.offset (b :: bytes)) with
    | .error e => return { worker with failure := some (.io e) }
    | .ok () => return { worker with
        offset := worker.offset + (bytes.length + 1)
        pending := worker.pending.drop (bytes.length + 1)
        writes := worker.writes.tail }

/-- A round of the loop of a thread that has written what it has read. -/
def LaneWorker.read (worker : LaneWorker) : LaneWorker :=
  if worker.stop ≤ worker.offset then worker
  else
    match worker.stream.read (min (worker.stop - worker.offset) bulkBufferLen) with
    | (.error e, stream) => { worker with stream, failure := some (.io e) }
    | (.ok [], stream) =>
      { worker with
        stream, failure := some (.message "TCP4 data ended before its complete range arrived") }
    | (.ok pending, stream) => { worker with stream, pending }

/-- What a thread does when it is its turn: one system call at most. -/
def LaneWorker.step (file : Loc) (worker : LaneWorker) : FsProg LaneWorker :=
  if worker.failure.isSome then return worker
  else if worker.pending = [] then return worker.read
  else worker.write file

/-- The threads take turns in any order. -/
def runWorkers (file : Loc) : List LaneWorker → List Nat → FsProg (List LaneWorker)
  | workers, [] => return workers
  | workers, lane :: schedule =>
    match workers[lane]? with
    | none => runWorkers file workers schedule
    | some worker => do
      let worker ← worker.step file
      runWorkers file (workers.set lane worker) schedule

/-- The threads at their start, given how many bytes their writes take. -/
def startWorkers (size : Nat) (writes : Nat → List Nat) (lanes : List DataStream) : List LaneWorker :=
  lanes.zipIdx.map fun entry =>
    { stream := entry.1
      offset := (tcp4LaneRange size entry.2).1
      stop := (tcp4LaneRange size entry.2).2
      writes := writes entry.2 }

/-- Wait for the threads one after the other; there is no result while the one that is waited for is
still at work. -/
def joinWorkers : List LaneWorker → Option (Except AnyError Unit)
  | [] => some (.ok ())
  | worker :: workers =>
    match worker.failure with
    | some e => some (.error e)
    | none => if worker.pending ≠ [] ∨ worker.offset < worker.stop then none else joinWorkers workers

/-- What happens at the sockets and threads of a receiver. -/
structure Tcp4Events where
  accepted : List Arrival
  /-- The order in which the threads take turns. -/
  schedule : List Nat
  /-- How many bytes the writes of the threads take. -/
  writes : Nat → List Nat := fun _ => []

/-- Receive all lanes into a file. -/
def receiveLanes [Sha256] (auth : Auth.SessionAuth) (temporary : Path) (size : Nat) (events : Tcp4Events) :
    FsProg (Option Loc) := do
  let file ← ask (.openFile temporary { write := true, create := true, truncate := true })
  ask (.setLen file size)
  match ← Prog.lift (acceptLanes auth (List.replicate Auth.tcp4Lanes none) events.accepted) with
  | none => return none
  | some lanes => do
    let workers ← runWorkers file (startWorkers size events.writes lanes) events.schedule
    match joinWorkers workers with
    | none => return none
    | some (.error e) => Prog.fail e
    | some (.ok ()) => return some file

/-- The end of a transfer of which all lanes are there. -/
def completeTcp4 [Sha256] (temporary destination : Path) (hello : Hello) (file : Loc)
    (answer : Except AnyError Str) : SiteProg Unit := do
  onFiles (ask (.sync file))
  let actualHash ← onFiles (hashFile temporary)
  if hex actualHash.bytes ≠ hello.hash then
    sendControl (ascii "ERROR hash-mismatch")
    stopWith "received TCP4 file hash did not match"
  else
    onFiles (installFile temporary destination)
    sendCompletionAndWait answer

def receiveTcp4 [Sha256] (auth : Auth.SessionAuth) (temporary destination : Path) (hello : Hello)
    (events : Tcp4Events) (answer : Except AnyError Str) : SiteProg (Option Unit) := do
  match ← onFiles (receiveLanes auth temporary hello.size events) with
  | none => return none
  | some file =>
    completeTcp4 temporary destination hello file answer
    return some ()

end PacketTide
