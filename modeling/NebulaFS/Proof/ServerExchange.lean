import NebulaFS.ArchiveServer

/-!
# What a client is answered

A client sees the server through the bytes of one connection. What the server sends on it is a function
of the bytes that came in and of the archive: the cuts that the calls on the socket make do not show, and
when calls fail it is a prefix. A client that has sent a request and nothing behind it reads all of that. If
it reads a code, a length and that many bytes it gets back the response the server formed, exactly when
the response is shorter than `2 ^ 32` bytes.
-/

namespace NebulaFS

open LittleEndian Transfer

/-- The commands whose request is the command byte alone. -/
def Command.isBare (cmd : Command) : Bool := cmd = .ping || cmd = .shutdown

namespace ArchiveServer

/-! ### Both sides of the protocol -/

/-- The request of a client. -/
def requestBytes (cmd : Command) (payload : Bytes) : Bytes :=
  if cmd.isBare then [cmd.toByte] else cmd.toByte :: leBytes 4 payload.length ++ payload

/-- The request that a stream begins with, if it is all there. -/
def requestOf : (incoming : Bytes) → Option (Command × Bytes)
  | [] => none
  | byte :: rest =>
      if (Command.ofByte byte).isBare then some (Command.ofByte byte, [])
      else if 4 ≤ rest.length ∧ leValue (rest.take 4) ≤ (rest.drop 4).length then
        some (Command.ofByte byte, (rest.drop 4).take (leValue (rest.take 4)))
      else none

/-- What is left to read behind the request that a stream begins with. -/
def behindRequest : (incoming : Bytes) → Bytes
  | [] => []
  | byte :: rest =>
      if (Command.ofByte byte).isBare then rest
      else (rest.drop 4).drop (leValue (rest.take 4))

/-- What the client may have read of a connection in the end. With bytes left to read it was reset when
it was closed, and any of what was sent last may be lost. -/
structure Handled.Reaches (handled : Handled) (bytes : Bytes) : Prop where
  front : bytes <+: handled.socket.outgoing
  whole : handled.socket.incoming = [] → bytes = handled.socket.outgoing

/-- The response that a client reads off a stream: a code, and as many bytes as the length says. -/
def responseOf : (incoming : Bytes) → Option (UInt8 × Bytes)
  | [] => none
  | code :: rest =>
      if 4 ≤ rest.length ∧ leValue (rest.take 4) = (rest.drop 4).length then
        some (code, rest.drop 4)
      else none

section

variable (platform : Platform)

def reply (reader : Option ArchiveReader) (cmd : Command) (payload : Bytes) :
    Except (Fault Empty) Response :=
  if cmd.isBare then .ok { code := .success } else respond platform reader cmd payload

/-- The bytes a request is answered with; there are none while it is incomplete, and none when the
reader leaves its buffer. -/
def answerBytes (reader : Option ArchiveReader) (incoming : Bytes) : Bytes :=
  ((requestOf incoming).map fun request =>
    (reply platform reader request.1 request.2).toOption.elim [] responseBytes).getD []

end

/-! ### Reading a request -/

variable {platform : Platform} {server : ArchiveServer} {socket : Socket} {size : Nat}

/-- A read gets its bytes off the front, or there were too few or a call failed. -/
theorem recvExact_cases (socket : Socket) (size : Nat) :
    (∃ failure rest, recvExact socket size = (.error failure, rest)
      ∧ rest.outgoing = socket.outgoing
      ∧ (Steady socket.calls → socket.incoming.length < size))
    ∨ (size ≤ socket.incoming.length ∧ ∃ calls, calls <:+ socket.calls
      ∧ recvExact socket size = (.ok (socket.incoming.take size),
        { socket with calls := calls, incoming := socket.incoming.drop size })) := by
  cases hresult : (receive socket.calls socket.incoming size []).result with
  | error failure =>
      refine .inl ⟨failure, (recvExact socket size).2, Prod.ext hresult rfl, rfl, fun hsteady => ?_⟩
      by_contra hlong
      have hall : (receive socket.calls socket.incoming size []).result
          = .ok ([] ++ socket.incoming.take size) :=
        receive_of_steady hsteady (Nat.not_lt.mp hlong)
      rw [hresult] at hall
      cases hall
  | ok data =>
      obtain ⟨hsize, hdata, hrest⟩ := receive_ok hresult
      refine .inr ⟨hsize, (receive socket.calls socket.incoming size []).schedule,
        receive_schedule_suffix, ?_⟩
      rw [recvExact, hresult, hdata, hrest, List.nil_append]

/-- What a connection comes to. -/
inductive Handling (platform : Platform) (server : ArchiveServer) (socket : Socket)
    (handled : Handled) : Prop
  /-- The request did not come through. -/
  | unread
      (hincomplete : Steady socket.calls → requestOf socket.incoming = none)
      (hending : handled.ending = .closed)
      (hserver : handled.server = server)
      (hsilent : handled.socket.outgoing = socket.outgoing)
  | answered (cmd : Command) (payload : Bytes) (response : Response) (calls : List Call)
      (hrequest : requestOf socket.incoming = some (cmd, payload))
      (hreply : reply platform server.reader cmd payload = .ok response)
      (hcalls : calls <:+ socket.calls)
      (hsent : handled.socket.outgoing
        = socket.outgoing ++ (transmit calls (responseBytes response) []).sent)
      (hunread : handled.socket.incoming = behindRequest socket.incoming)
      (hstays : cmd ≠ .shutdown → handled.server = server)
      (hgoes : cmd ≠ .shutdown → Steady socket.calls → handled.ending = .closed)
      (hstops : cmd = .shutdown → server.thread ≠ .absent → handled.ending = .terminated)
  | faulted (cmd : Command) (payload : Bytes) (fault : Fault Empty)
      (hrequest : requestOf socket.incoming = some (cmd, payload))
      (hreply : reply platform server.reader cmd payload = .error fault)
      (hending : handled.ending = .faulted fault)
      (hsilent : handled.socket.outgoing = socket.outgoing)

theorem requestOf_of_bare {byte : UInt8} (hbare : (Command.ofByte byte).isBare = true) (rest : Bytes) :
    requestOf (byte :: rest) = some (Command.ofByte byte, [])
      ∧ behindRequest (byte :: rest) = rest :=
  ⟨if_pos hbare, if_pos hbare⟩

theorem requestOf_of_not_bare {byte : UInt8} {rest : Bytes}
    (hbare : (Command.ofByte byte).isBare = false) (hlength : 4 ≤ rest.length)
    (hpayload : leValue (rest.take 4) ≤ (rest.drop 4).length) :
    requestOf (byte :: rest)
      = some (Command.ofByte byte, (rest.drop 4).take (leValue (rest.take 4))) := by
  rw [requestOf, if_neg (by simp [hbare]), if_pos ⟨hlength, hpayload⟩]

theorem requestOf_none {byte : UInt8} {rest : Bytes}
    (hbare : (Command.ofByte byte).isBare = false)
    (hshort : rest.length < 4 ∨ (rest.drop 4).length < leValue (rest.take 4)) :
    requestOf (byte :: rest) = none := by
  rw [requestOf, if_neg (by simp [hbare]), if_neg (by omega)]

theorem behindRequest_of_not_bare {byte : UInt8} {rest : Bytes}
    (hbare : (Command.ofByte byte).isBare = false) :
    behindRequest (byte :: rest) = (rest.drop 4).drop (leValue (rest.take 4)) :=
  if_neg (by simp [hbare])

theorem endingOf_sendResponse (hsteady : Steady socket.calls) (response : Response) :
    endingOf (sendResponse socket response).1 = .closed := by
  have hsent : (sendResponse socket response).1 = none := transmit_failure_of_steady hsteady
  rw [hsent]
  rfl

/-- What the reads of a connection leave open: the command's own answer. -/
theorem handleCommand_handling {cmd : Command} {payload : Bytes} {calls : List Call}
    {rest : Bytes} (hbare : cmd.isBare = false)
    (hrequest : requestOf socket.incoming = some (cmd, payload)) (hcalls : calls <:+ socket.calls)
    (hrest : rest = behindRequest socket.incoming) :
    Handling platform server socket
      (handleCommand platform server { socket with calls := calls, incoming := rest } cmd payload) := by
  have hreply : reply platform server.reader cmd payload
      = respond platform server.reader cmd payload := if_neg (by simp [hbare])
  rw [handleCommand, processCommand]
  cases hrespond : respond platform server.reader cmd payload with
  | error fault => exact .faulted cmd payload fault hrequest (hreply.trans hrespond) rfl rfl
  | ok response =>
      refine .answered cmd payload response calls hrequest (hreply.trans hrespond) hcalls rfl hrest
        (fun _ => rfl) (fun _ hsteady => endingOf_sendResponse (hsteady.of_suffix hcalls) response)
        fun hshutdown => ?_
      rw [hshutdown] at hbare
      cases hbare

variable (platform) in
theorem handleConnection_handling (server : ArchiveServer) (socket : Socket) :
    Handling platform server socket (handleConnection platform server socket) := by
  rw [handleConnection]
  obtain ⟨failure, rest, hrecv, hout, hshort⟩ | ⟨hlength, calls, hcalls, hrecv⟩ :=
    recvExact_cases socket 1
  · rw [hrecv]
    refine .unread (fun hsteady => ?_) rfl rfl hout
    rw [List.length_eq_zero_iff.mp (Nat.lt_one_iff.mp (hshort hsteady))]
    rfl
  obtain ⟨byte, rest, hincoming⟩ := List.exists_cons_of_length_pos hlength
  rw [hrecv]
  simp only [hincoming, List.take_succ_cons, List.take_zero, List.headD_cons, List.drop_succ_cons,
    List.drop_zero]
  by_cases hshutdown : Command.ofByte byte = .shutdown
  · obtain ⟨hrequest, hunread⟩ := requestOf_of_bare (by rw [hshutdown]; rfl) rest
    rw [← hincoming, hshutdown] at hrequest
    rw [← hincoming] at hunread
    rw [if_pos hshutdown, stop]
    by_cases hthread : server.thread = .absent
    · rw [if_neg (by simp [hthread])]
      simp only [hthread, reduceCtorEq, if_false]
      exact .answered .shutdown [] _ calls hrequest rfl hcalls rfl hunread.symm (fun h => (h rfl).elim)
        (fun h => (h rfl).elim) fun _ h => (h hthread).elim
    · rw [if_pos ⟨rfl, hthread⟩]
      exact .answered .shutdown [] _ calls hrequest rfl hcalls rfl hunread.symm (fun h => (h rfl).elim)
        (fun h => (h rfl).elim) fun _ _ => rfl
  rw [if_neg hshutdown]
  by_cases hping : Command.ofByte byte = .ping
  · obtain ⟨hrequest, hunread⟩ := requestOf_of_bare (by rw [hping]; rfl) rest
    rw [← hincoming, hping] at hrequest
    rw [← hincoming] at hunread
    rw [if_pos hping]
    exact .answered .ping [] _ calls hrequest rfl hcalls rfl hunread.symm (fun _ => rfl)
      (fun _ hsteady => endingOf_sendResponse (hsteady.of_suffix hcalls) _) nofun
  have hbare : (Command.ofByte byte).isBare = false := by simp [Command.isBare, hping, hshutdown]
  rw [if_neg hping]
  -- the length of the payload
  obtain ⟨failure, later, hrecv, hout, hshort⟩ | ⟨hlength, calls, hsuffix, hrecv⟩ :=
    recvExact_cases { socket with calls := calls, incoming := rest } 4
  · rw [hrecv]
    refine .unread (fun hsteady => ?_) rfl rfl hout
    rw [hincoming]
    exact requestOf_none hbare (.inl (hshort (hsteady.of_suffix hcalls)))
  replace hcalls := hsuffix.trans hcalls
  rw [hrecv]
  simp only at hlength ⊢
  -- the payload
  obtain ⟨failure, later, hrecv, hout, hshort⟩ | ⟨hpayload, calls, hsuffix, hrecv⟩ :=
    recvExact_cases { socket with calls := calls, incoming := rest.drop 4 } (leValue (rest.take 4))
  · rw [hrecv]
    refine .unread (fun hsteady => ?_) rfl rfl hout
    rw [hincoming]
    exact requestOf_none hbare (.inr (hshort (hsteady.of_suffix hcalls)))
  rw [hrecv]
  exact handleCommand_handling hbare
    (by rw [hincoming]; exact requestOf_of_not_bare hbare hlength hpayload) (hsuffix.trans hcalls)
    (by rw [hincoming, behindRequest_of_not_bare hbare])

/-! ### What arrives -/

theorem answerBytes_of_reply {cmd : Command} {payload : Bytes} {response : Response}
    (hrequest : requestOf socket.incoming = some (cmd, payload))
    (hreply : reply platform server.reader cmd payload = .ok response) :
    answerBytes platform server.reader socket.incoming = responseBytes response := by
  rw [answerBytes, hrequest, Option.map_some, hreply]
  rfl

variable (platform) in
/-- **The answer does not depend on the calls.** What a connection sends is a prefix of the answer to
the bytes that came in, whatever becomes of the calls on the socket, and it is the whole answer when
every call gets on. -/
theorem outgoing_prefix_answer (server : ArchiveServer) (socket : Socket) :
    ∃ front, (handleConnection platform server socket).socket.outgoing = socket.outgoing ++ front
      ∧ front <+: answerBytes platform server.reader socket.incoming
      ∧ (Steady socket.calls → front = answerBytes platform server.reader socket.incoming) := by
  cases handleConnection_handling platform server socket with
  | unread hincomplete hending hserver hsilent =>
      refine ⟨[], by rw [hsilent, List.append_nil], List.nil_prefix, fun hsteady => ?_⟩
      rw [answerBytes, hincomplete hsteady]
      rfl
  | answered cmd payload response calls hrequest hreply hcalls hsent hunread hstays hgoes hstops =>
      rw [answerBytes_of_reply hrequest hreply]
      obtain ⟨front, hfront, hbegins, hall⟩ :=
        @transmit_cases _ calls (responseBytes response) []
      rw [List.nil_append] at hfront
      refine ⟨front, by rw [hsent, hfront], hbegins, fun hsteady => hall ?_⟩
      exact transmit_failure_of_steady (hsteady.of_suffix hcalls)
  | faulted cmd payload fault hrequest hreply hending hsilent =>
      refine ⟨[], by rw [hsilent, List.append_nil], List.nil_prefix, fun hsteady => ?_⟩
      rw [answerBytes, hrequest, Option.map_some, hreply]
      rfl

/-- The length of the payload is read off the request, and then the payload. -/
theorem take_drop_requestBytes {payload : Bytes} (hpayload : payload.length < 2 ^ 32) (later : Bytes) :
    leValue ((leBytes 4 payload.length ++ payload ++ later).take 4) = payload.length
      ∧ (leBytes 4 payload.length ++ payload ++ later).drop 4 = payload ++ later := by
  rw [List.append_assoc, List.take_left' (length_leBytes 4 _), List.drop_left' (length_leBytes 4 _),
    leValue_leBytes, Nat.mod_eq_of_lt (by simpa using hpayload)]
  exact ⟨rfl, rfl⟩

theorem requestOf_requestBytes (cmd : Command) {payload : Bytes} (hpayload : payload.length < 2 ^ 32)
    (later : Bytes) :
    requestOf (requestBytes cmd payload ++ later)
      = some (cmd, if cmd.isBare then [] else payload) := by
  cases hbare : cmd.isBare with
  | true =>
      rw [requestBytes, if_pos hbare, List.singleton_append,
        (requestOf_of_bare (by rwa [Command.ofByte_toByte]) later).1, Command.ofByte_toByte, if_pos rfl]
  | false =>
      obtain ⟨hlength, htail⟩ := take_drop_requestBytes hpayload later
      rw [requestBytes, if_neg (by simp [hbare]), List.cons_append, List.cons_append]
      rw [requestOf_of_not_bare (by rwa [Command.ofByte_toByte])
        (by simp only [List.length_append, length_leBytes]; omega)
        (by rw [hlength, htail, List.length_append]; omega)]
      rw [hlength, htail, List.take_left, Command.ofByte_toByte]
      rfl

theorem behindRequest_requestBytes (cmd : Command) {payload : Bytes}
    (hpayload : payload.length < 2 ^ 32) (later : Bytes) :
    behindRequest (requestBytes cmd payload ++ later) = later := by
  cases hbare : cmd.isBare with
  | true =>
      rw [requestBytes, if_pos hbare, List.singleton_append,
        (requestOf_of_bare (by rwa [Command.ofByte_toByte]) later).2]
  | false =>
      obtain ⟨hlength, htail⟩ := take_drop_requestBytes hpayload later
      rw [requestBytes, if_neg (by simp [hbare]), List.cons_append, List.cons_append,
        behindRequest_of_not_bare (by rwa [Command.ofByte_toByte]), hlength, htail, List.drop_left]

variable (platform) in
/-- Where nothing fails, the request is taken off the stream and no more. -/
theorem unread_of_steady (server : ArchiveServer) {request : Command × Bytes}
    (hsteady : Steady socket.calls) (hrequest : requestOf socket.incoming = some request)
    {response : Response} (hreply : reply platform server.reader request.1 request.2 = .ok response) :
    (handleConnection platform server socket).socket.incoming = behindRequest socket.incoming := by
  cases handleConnection_handling platform server socket with
  | unread hincomplete hending hserver hsilent =>
      rw [hincomplete hsteady] at hrequest
      cases hrequest
  | answered cmd payload response calls hrequest' hreply' hcalls hsent hunread hstays hgoes hstops =>
      exact hunread
  | faulted cmd payload fault hrequest' hreply' hending hsilent =>
      rw [hrequest'] at hrequest
      obtain rfl := Option.some.inj hrequest
      rw [hreply'] at hreply
      cases hreply

/-- A client takes a response for what it is as long as its length fits the four bytes of it. -/
theorem responseOf_responseBytes_iff (response : Response) :
    responseOf (responseBytes response) = some (response.code.toByte, response.data)
      ↔ response.data.length < 2 ^ 32 := by
  have hlength : leValue (leBytes 4 (UInt32.ofNat response.data.length).toNat)
      = response.data.length % 2 ^ 32 := by
    rw [leValue_leBytes, UInt32.toNat_ofNat']
    exact Nat.mod_eq_of_lt (Nat.mod_lt _ (by decide))
  have hhead : (leBytes 4 (UInt32.ofNat response.data.length).toNat ++ response.data).take 4
      = leBytes 4 (UInt32.ofNat response.data.length).toNat := List.take_left' (length_leBytes 4 _)
  have htail : (leBytes 4 (UInt32.ofNat response.data.length).toNat ++ response.data).drop 4
      = response.data := List.drop_left' (length_leBytes 4 _)
  rw [responseBytes, List.cons_append, responseOf, hhead, htail, hlength, List.length_append,
    length_leBytes]
  constructor
  · intro h
    by_contra hlong
    rw [if_neg (by omega)] at h
    cases h
  · intro hshort
    rw [if_pos ⟨by omega, Nat.mod_eq_of_lt hshort⟩]

/-- A client does not take an answer that was cut off for a whole one. -/
theorem responseOf_of_prefix {response : Response} {outgoing : Bytes} {found : UInt8 × Bytes}
    (hfits : response.data.length < 2 ^ 32) (hfront : outgoing <+: responseBytes response)
    (hfound : responseOf outgoing = some found) :
    found = (response.code.toByte, response.data) := by
  obtain ⟨missing, hall⟩ := hfront
  cases outgoing with
  | nil => cases hfound
  | cons code rest =>
      rw [responseBytes, List.cons_append, List.cons_append] at hall
      obtain ⟨rfl, hrest⟩ := List.cons.inj hall
      rw [responseOf] at hfound
      by_cases hwhole : 4 ≤ rest.length ∧ leValue (rest.take 4) = (rest.drop 4).length
      · rw [if_pos hwhole] at hfound
        have hlength : rest.take 4 = leBytes 4 (UInt32.ofNat response.data.length).toNat := by
          have htake := congrArg (List.take 4) hrest
          rwa [List.take_append_of_le_length hwhole.1, List.take_left' (length_leBytes 4 _)] at htake
        have hdata : rest.drop 4 ++ missing = response.data := by
          have hdrop := congrArg (List.drop 4) hrest
          rwa [List.drop_append_of_le_length hwhole.1, List.drop_left' (length_leBytes 4 _)] at hdrop
        have hvalue : leValue (rest.take 4) = response.data.length := by
          rw [hlength, leValue_leBytes, UInt32.toNat_ofNat', Nat.mod_eq_of_lt hfits]
          exact Nat.mod_eq_of_lt hfits
        have hnone : missing = [] := by
          have hcount := congrArg List.length hdata
          rw [List.length_append] at hcount
          exact List.length_eq_zero_iff.mp (by omega)
        rw [hnone, List.append_nil] at hdata
        rw [← Option.some.inj hfound, hdata]
      · rw [if_neg hwhole] at hfound
        cases hfound

/-- **A request and its response.** Whatever becomes of the calls on the socket, the server sends on the
connection of a request a prefix of the response to it and nothing else, whatever follows the request. What
the client reads back, if it does, is the response, unless that is of `2 ^ 32` bytes or more. When every call
gets on and nothing follows the request, that bound is exact. -/
theorem exchange {cmd : Command} {payload : Bytes} {response : Response} (server : ArchiveServer)
    (calls : List Call) (later : Bytes) (hpayload : payload.length < 2 ^ 32)
    (hreply : reply platform server.reader cmd (if cmd.isBare then [] else payload)
      = .ok response) :
    let handled := handleConnection platform server
      { calls := calls, incoming := requestBytes cmd payload ++ later }
    handled.socket.outgoing <+: responseBytes response
      ∧ (Steady calls → handled.socket.outgoing = responseBytes response)
      ∧ ∀ bytes, handled.Reaches bytes →
        (response.data.length < 2 ^ 32 → ∀ found, responseOf bytes = some found →
          found = (response.code.toByte, response.data))
        ∧ (Steady calls → later = [] →
          (responseOf bytes = some (response.code.toByte, response.data)
            ↔ response.data.length < 2 ^ 32)) := by
  obtain ⟨front, hout, hbegins, hall⟩ := outgoing_prefix_answer platform server
    { calls := calls, incoming := requestBytes cmd payload ++ later }
  have hrequest := requestOf_requestBytes cmd hpayload later
  rw [answerBytes_of_reply hrequest hreply] at hbegins hall
  rw [List.nil_append] at hout
  intro handled
  have hfront : handled.socket.outgoing = front := hout
  rw [hfront]
  refine ⟨hbegins, hall, fun bytes hreaches => ⟨fun hfits found hfound => ?_, ?_⟩⟩
  · have hread := hreaches.front
    rw [hfront] at hread
    exact responseOf_of_prefix hfits (hread.trans hbegins) hfound
  · intro hsteady hnothing
    have hunread : handled.socket.incoming = [] := by
      rw [← hnothing, ← behindRequest_requestBytes cmd hpayload later]
      exact unread_of_steady platform server hsteady hrequest hreply
    rw [hreaches.whole hunread, hfront, hall hsteady]
    exact responseOf_responseBytes_iff response

/-- A client that asks for a value of the metadata, over a socket that is interrupted and cuts the request
and the response in pieces. -/
theorem exchange_inPieces :
    let server : ArchiveServer :=
      { reader := some
          { isOpen := true, metadata := ({} : MetadataStore).set [0x61] [0x62, 0x63, 0x64] } }
    let handled := handleConnection Platform.reference server
      { calls := [.interrupted, .moves 1, .moves 3, .moves 9, .moves 9, .moves 2, .interrupted]
        incoming := requestBytes .getMetadata [0x61] ++ [] }
    handled.socket.outgoing = [0x00, 3, 0, 0, 0, 0x62, 0x63, 0x64]
      ∧ ∀ bytes, handled.Reaches bytes → responseOf bytes = some (0x00, [0x62, 0x63, 0x64]) := by
  intro server handled
  have hsteady : Steady
      [.interrupted, .moves 1, .moves 3, .moves 9, .moves 9, .moves 2, .interrupted] := by
    simp [Steady, Call.Steady]
  obtain ⟨-, hall, hreads⟩ := @exchange Platform.reference .getMetadata [0x61]
    { code := .success, data := [0x62, 0x63, 0x64] } server _ [] (by decide) rfl
  exact ⟨hall hsteady, fun bytes hreaches =>
    ((hreads bytes hreaches).2 hsteady rfl).mpr (by decide)⟩

end ArchiveServer

end NebulaFS
