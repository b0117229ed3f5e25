import NebulaFS.ArchiveReader
import NebulaFS.Lib.Transfer

/-!
# The archive server

`network/ArchiveServer.cpp`. A connection carries one request and its answer: a command byte, for most
commands the length of a payload and the payload, and back a code, the length of the data and the data.
The sockets are those of `Transfer`; what a client sends before it closes its side is all there from
the start. The loop of the server's thread and the calls of the application are taken one after the
other, between two connections. A `stop` does not wake the thread out of `accept`, so it waits for one
outcome more; a thread that was elsewhere has that outcome behind it or gets none but a failure.
-/

namespace NebulaFS

open LittleEndian Transfer

/-- `network::Command`. The values without a name are those the command byte of a request can be cast
to. -/
inductive Command
  | listEntries
  | findEntry
  | extractEntry
  | getMetadata
  | getHeader
  | ping
  | shutdown
  | unnamed (raw : {b : UInt8 // b = 0 ∨ 6 < b ∧ b ≠ 0xFF})
deriving DecidableEq

namespace Command

def toByte : Command → UInt8
  | listEntries => 0x01
  | findEntry => 0x02
  | extractEntry => 0x03
  | getMetadata => 0x04
  | getHeader => 0x05
  | ping => 0x06
  | shutdown => 0xFF
  | unnamed raw => raw

def ofByte (b : UInt8) : Command :=
  if h : b = 0 ∨ 6 < b ∧ b ≠ 0xFF then unnamed ⟨b, h⟩
  else if b = 0x01 then listEntries
  else if b = 0x02 then findEntry
  else if b = 0x03 then extractEntry
  else if b = 0x04 then getMetadata
  else if b = 0x05 then getHeader
  else if b = 0x06 then ping
  else shutdown

@[simp]
theorem ofByte_toByte (cmd : Command) : ofByte cmd.toByte = cmd := by
  cases cmd with
  | unnamed raw => simp [ofByte, toByte, raw.property]
  | _ => rfl

end Command

/-- `network::ResponseCode`. -/
inductive ResponseCode
  | success
  | notFound
  | error
  | authRequired
  | invalidRequest
deriving DecidableEq

def ResponseCode.toByte : ResponseCode → UInt8
  | success => 0x00
  | notFound => 0x01
  | error => 0x02
  | authRequired => 0x03
  | invalidRequest => 0x04

/-- The server's end of a connection: what becomes of the calls on it, in their order, what is still to be
read from it, and what was handed to the calls that write. That is not yet what the client reads: closing
a connection with bytes left to read resets it, and what is under way is lost. -/
structure Socket where
  calls : List Call := []
  incoming : Bytes
  outgoing : Bytes := []

structure Response where
  code : ResponseCode
  data : Bytes := []
deriving DecidableEq

/-- How the handling of a connection ends: the connection is closed and the loop goes on; an exception
leaves the thread or a signal comes, which terminates the process; or the reader leaves its buffer. -/
inductive ConnectionEnd
  | closed
  | terminated
  | faulted (fault : Fault Empty)
deriving DecidableEq

inductive ServerThread
  | absent
  | looping
  /-- A call of `stop` waits for the thread, which is in `accept` for the last time. -/
  | awaited
  /-- The loop is over and nobody has joined the thread. -/
  | ended
deriving DecidableEq

structure ArchiveServer where
  reader : Option ArchiveReader := none
  thread : ServerThread := .absent
  running : Bool := false
  /-- `serverFd_ >= 0`. -/
  listening : Bool := false

namespace ArchiveServer

/-! ### Bytes on a socket -/

def recvExact (socket : Socket) (size : Nat) : Except Failure Bytes × Socket :=
  let received := receive socket.calls socket.incoming size []
  (received.result, { socket with calls := received.schedule, incoming := received.incoming })

def sendAll (socket : Socket) (data : Bytes) : Option Failure × Socket :=
  let transmitted := transmit socket.calls data []
  (transmitted.failure,
    { socket with
        calls := transmitted.schedule
        outgoing := socket.outgoing ++ transmitted.sent })

/-- What `sendResponse` puts together. The length is the one of the data modulo `2 ^ 32`. -/
def responseBytes (response : Response) : Bytes :=
  response.code.toByte :: leBytes 4 (UInt32.ofNat response.data.length).toNat ++ response.data

def sendResponse (socket : Socket) (response : Response) : Option Failure × Socket :=
  sendAll socket (responseBytes response)

/-- `EPIPE`, which comes with a `SIGPIPE` that nothing ignores. -/
def brokenPipe : Nat := 32

def endingOf (failure : Option Failure) : ConnectionEnd :=
  if failure = some (.system brokenPipe) then .terminated else .closed

/-! ### One request -/

/-- The answer that a result of the reader is turned into. -/
def answer {α : Type} (result : Result α) (failing : ResponseCode) (bytes : α → Bytes) :
    Except (Fault Empty) Response :=
  match result with
  | .ok value => .ok { code := .success, data := bytes value }
  | .error (.returned _) => .ok { code := failing }
  | .error .outOfBounds => .error .outOfBounds
  | .error .outOfFuel => .error .outOfFuel

def idBytes (entry : ArchiveEntry) : Bytes := leBytes 8 entry.id.toNat

def entryBytes (entry : ArchiveEntry) : Bytes :=
  leBytes 8 entry.id.toNat ++ leBytes 8 entry.offset.toNat ++ leBytes 8 entry.storedSize.toNat

section

variable (platform : Platform)

/-- The response that `processCommand` sends. -/
def respond (reader : Option ArchiveReader) (cmd : Command) (payload : Bytes) :
    Except (Fault Empty) Response :=
  match reader with
  | none => .ok { code := .error }
  | some reader =>
      if ¬ reader.isOpen then .ok { code := .error }
      else
        match cmd with
        | .listEntries => answer reader.listEntries .error (·.flatMap idBytes)
        | .findEntry => answer (reader.findEntryByPath payload) .notFound entryBytes
        | .extractEntry =>
            if 8 ≤ payload.length then
              answer (reader.extractEntryById platform (UInt64.ofNat (leValue (payload.take 8))))
                .notFound id
            else .ok { code := .invalidRequest }
        | .getMetadata =>
            match reader.metadata.getString payload with
            | none => .ok { code := .notFound }
            | some value => .ok { code := .success, data := value }
        | .getHeader => .ok { code := .success, data := reader.header.serialize }
        | _ => .ok { code := .invalidRequest }

def processCommand (server : ArchiveServer) (socket : Socket) (cmd : Command) (payload : Bytes) :
    Except (Fault Empty) (Option Failure × Socket) :=
  match respond platform server.reader cmd payload with
  | .error fault => .error fault
  | .ok response => .ok (sendResponse socket response)

end

/-! ### Starting and stopping -/

inductive ServerError
  | code (e : Fault ErrorCode)
  | system (errno : Nat)
deriving DecidableEq

/-- What the calls of `start` come to. -/
inductive Startup
  | ready
  | noSocket (errno : Nat)
  | badAddress
  | notBound (errno : Nat)
  | notListening (errno : Nat)
deriving DecidableEq

def start (server : ArchiveServer) (startup : Startup) : ArchiveServer × Option ServerError :=
  if server.running then (server, some (.code (.returned .invalidOperation)))
  else
    match startup with
    | .noSocket errno => ({ server with listening := false }, some (.system errno))
    | .badAddress => ({ server with listening := false }, some (.code (.returned .invalidOperation)))
    | .notBound errno => ({ server with listening := false }, some (.system errno))
    | .notListening errno => ({ server with listening := false }, some (.system errno))
    | .ready => ({ server with listening := true, running := true, thread := .looping }, none)

/-- `reader_` is the new reader even when it does not open or the server is running already. -/
def serve (platform : Platform) (server : ArchiveServer) (content : Option Bytes)
    (startup : Startup) : ArchiveServer × Option ServerError :=
  match ArchiveReader.openArchive platform {} content with
  | (reader, some e) => ({ server with reader := some reader }, some (.code e))
  | (reader, none) => start { server with reader := some reader } startup

/-- What `stop` leaves. -/
def stopped : ArchiveServer :=
  { reader := none, thread := .absent, running := false, listening := false }

/-- `stop`, as far as it gets at once. On the thread of the server there is no state after it, because a
thread that joins itself gets an exception. -/
def stop (server : ArchiveServer) (onServerThread : Bool) : Option ArchiveServer :=
  if onServerThread ∧ server.thread ≠ .absent then none
  else if server.thread = .looping then
    some { server with running := false, listening := false, thread := .awaited }
  else some stopped

/-- The thread leaves its loop. A `stop` that has waited for it returns. -/
def leaveLoop (server : ArchiveServer) : ArchiveServer :=
  if server.thread = .awaited then stopped else { server with thread := .ended }

/-- The condition of the loop. -/
def loopAgain (server : ArchiveServer) : ArchiveServer :=
  if server.running then server else server.leaveLoop

/-! ### Connections -/

section

variable (platform : Platform)

structure Handled where
  ending : ConnectionEnd := .closed
  server : ArchiveServer
  socket : Socket

/-- The last call of `handleConnection`. -/
def handleCommand (server : ArchiveServer) (socket : Socket) (cmd : Command) (payload : Bytes) :
    Handled :=
  match processCommand platform server socket cmd payload with
  | .error fault => { ending := .faulted fault, server := server, socket := socket }
  | .ok sent => { ending := endingOf sent.1, server := server, socket := sent.2 }

def handleConnection (server : ArchiveServer) (socket : Socket) : Handled :=
  match recvExact socket 1 with
  | (.error _, socket) => { server := server, socket := socket }
  | (.ok cmdByte, socket) =>
      let cmd := Command.ofByte (cmdByte.headD 0)
      if cmd = .shutdown then
        let sent := sendResponse socket { code := .success }
        match stop server true with
        | none => { ending := .terminated, server := server, socket := sent.2 }
        | some server => { ending := endingOf sent.1, server := server, socket := sent.2 }
      else if cmd = .ping then
        let sent := sendResponse socket { code := .success }
        { ending := endingOf sent.1, server := server, socket := sent.2 }
      else
        match recvExact socket 4 with
        | (.error _, socket) => { server := server, socket := socket }
        | (.ok lenBuf, socket) =>
            match recvExact socket (leValue lenBuf) with
            | (.error _, socket) => { server := server, socket := socket }
            | (.ok payload, socket) => handleCommand platform server socket cmd payload

/-- What `accept` gives. -/
inductive Accept
  | connection (socket : Socket)
  | interrupted
  | failed

/-- Something that happens between two others: the application calls, or `accept` returns. -/
inductive Event
  | serve (content : Option Bytes) (startup : Startup)
  | start (startup : Startup)
  | stop
  | accept (outcome : Accept)

/-- The state after some events, what was sent on each connection that came up, and the end of the
process if there was one. -/
structure Run where
  server : ArchiveServer
  answers : List Bytes := []
  ended : Option ConnectionEnd := none

/-- One round of `serverLoop`. A failing `accept` leaves the loop, and `running_` as it is. -/
def serverLoop (run : Run) (outcome : Accept) : Run :=
  if run.server.thread ≠ .looping ∧ run.server.thread ≠ .awaited then run
  else
    match outcome with
    | .interrupted => { run with server := run.server.loopAgain }
    | .failed => { run with server := run.server.leaveLoop }
    | .connection socket =>
        let handled := handleConnection platform run.server socket
        { server := handled.server.loopAgain
          answers := run.answers ++ [handled.socket.outgoing]
          ended := if handled.ending = .closed then none else some handled.ending }

/-- A call of the application, which makes none while it is in `stop`. -/
def call (run : Run) (event : Event) : Run :=
  match event with
  | .serve content startup => { run with server := (serve platform run.server content startup).1 }
  | .start startup => { run with server := (start run.server startup).1 }
  | .stop =>
      match stop run.server false with
      | none => { run with ended := some .terminated }
      | some server => { run with server := server }
  | .accept _ => run

def step (run : Run) (event : Event) : Run :=
  if run.ended.isSome then run
  else
    match event with
    | .accept outcome => serverLoop platform run outcome
    | event => if run.server.thread = .awaited then run else call platform run event

def after (events : List Event) : Run := events.foldl (step platform) { server := {} }

end

end ArchiveServer

end NebulaFS
