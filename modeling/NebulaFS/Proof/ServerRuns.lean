import NebulaFS.Proof.ArchiveRoundTrip
import NebulaFS.Proof.ServerExchange

/-!
# The server over whole runs

What a client meets is a service: an archive, and whether anyone answers. Only calls of the application
and the outcomes of `accept` change it. A `stop` takes effect when one client more has come or `accept` has
failed, and a failure of `accept` without it leaves a server that counts as running, refuses to start and
answers nobody. The answers of a run are those of the service, up to the request that ends the process;
over an archive of blobs they are the blobs.
-/

namespace NebulaFS

open LittleEndian Transfer

namespace ArchiveServer

inductive Phase
  | idle
  | accepting
  /-- A call of `stop` waits for one outcome more. -/
  | closing
  /-- The loop is over, and nothing but the thread knows. -/
  | stuck
deriving DecidableEq

/-- What the server is for: an archive that can be asked for, in some phase. -/
structure Service where
  archive : Option ArchiveReader := none
  phase : Phase := .idle

namespace Service

/-- A client that connects is answered. -/
def Answers (service : Service) : Prop := service.phase = .accepting ∨ service.phase = .closing

instance (service : Service) : Decidable service.Answers := inferInstanceAs (Decidable (_ ∨ _))

def launch (service : Service) (startup : Startup) : Service :=
  if service.phase = .idle ∧ startup = .ready then { service with phase := .accepting } else service

/-- After an outcome of `accept`, and after the connection if there was one. -/
def took (service : Service) (outcome : Accept) : Service :=
  if service.phase = .closing then {}
  else if service.phase = .accepting then
    match outcome with
    | .failed => { service with phase := .stuck }
    | _ => service
  else service

section

variable (platform : Platform)

def call (service : Service) : Event → Service
  | .serve content startup =>
      let opened := ArchiveReader.openArchive platform {} content
      if opened.2 = none then launch { service with archive := some opened.1 } startup
      else { service with archive := some opened.1 }
  | .start startup => service.launch startup
  | .stop => if service.phase = .accepting then { service with phase := .closing } else {}
  | .accept _ => service

def step (service : Service) : Event → Service
  | .accept outcome => service.took outcome
  | event => if service.phase = .closing then service else service.call platform event

def after (events : List Event) : Service := events.foldl (step platform) {}

/-- The request ends the process. -/
def ends (service : Service) (incoming : Bytes) : Bool :=
  (requestOf incoming).any fun request =>
    request.1 = .shutdown || !(reply platform service.archive request.1 request.2).isOk

end

end Service

/-- What a service has come to: what it answered on the connections that came up, and whether the
process is over. -/
structure Transcript where
  service : Service := {}
  answers : List Bytes := []
  finished : Bool := false

namespace Transcript

variable (platform : Platform)

def step (transcript : Transcript) (event : Event) : Transcript :=
  if transcript.finished then transcript
  else
    match event with
    | .accept (.connection socket) =>
        if transcript.service.Answers then
          { service := transcript.service.took (.connection socket)
            answers := transcript.answers
              ++ [socket.outgoing ++ answerBytes platform transcript.service.archive socket.incoming]
            finished := transcript.service.ends platform socket.incoming }
        else transcript
    | event => { transcript with service := transcript.service.step platform event }

def after (events : List Event) : Transcript := events.foldl (step platform) {}

end Transcript

/-! ### The server is the service -/

/-- The server of a process that has not ended. -/
structure Carries (service : Service) (server : ArchiveServer) : Prop where
  archive : server.reader = service.archive
  idle : service.phase = .idle →
    server.thread = .absent ∧ server.running = false ∧ server.listening = false
  accepting : service.phase = .accepting →
    server.thread = .looping ∧ server.running = true ∧ server.listening = true
  closing : service.phase = .closing →
    server.thread = .awaited ∧ server.running = false ∧ server.listening = false
  stuck : service.phase = .stuck →
    server.thread = .ended ∧ server.running = true ∧ server.listening = true

variable {platform : Platform} {service : Service} {server : ArchiveServer} {run : Run}
  {socket : Socket}

theorem Carries.looping_iff (h : Carries service server) :
    server.thread = .looping ↔ service.phase = .accepting := by
  cases hphase : service.phase with
  | idle => simp [h.idle hphase]
  | accepting => simp [h.accepting hphase]
  | closing => simp [h.closing hphase]
  | stuck => simp [h.stuck hphase]

theorem Carries.awaited_iff (h : Carries service server) :
    server.thread = .awaited ↔ service.phase = .closing := by
  cases hphase : service.phase with
  | idle => simp [h.idle hphase]
  | accepting => simp [h.accepting hphase]
  | closing => simp [h.closing hphase]
  | stuck => simp [h.stuck hphase]

theorem Carries.answers_iff (h : Carries service server) :
    service.Answers ↔ ¬ (server.thread ≠ .looping ∧ server.thread ≠ .awaited) := by
  rw [Service.Answers, ← h.looping_iff, ← h.awaited_iff]
  tauto

theorem Carries.running_iff (h : Carries service server) (hopen : service.phase ≠ .closing) :
    server.running = true ↔ service.phase ≠ .idle := by
  cases hphase : service.phase with
  | idle => simp [h.idle hphase]
  | accepting => simp [h.accepting hphase]
  | closing => exact (hopen hphase).elim
  | stuck => simp [h.stuck hphase]

theorem carries_stopped : Carries {} stopped :=
  ⟨rfl, fun _ => ⟨rfl, rfl, rfl⟩, by simp, by simp, by simp⟩

theorem carries_fresh : Carries {} {} := carries_stopped

theorem Carries.launch (h : Carries service server) (hopen : service.phase ≠ .closing)
    (startup : Startup) : Carries (service.launch startup) (start server startup).1 := by
  unfold start
  by_cases hrunning : server.running = true
  · have hphase := (h.running_iff hopen).mp hrunning
    rw [if_pos hrunning, Service.launch, if_neg (fun hidle => hphase hidle.1)]
    exact h
  · have hphase : service.phase = .idle := by
      by_contra hphase
      exact hrunning ((h.running_iff hopen).mpr hphase)
    obtain ⟨hthread, hoff, hclosed⟩ := h.idle hphase
    rw [if_neg hrunning, Service.launch]
    cases startup with
    | ready =>
        rw [if_pos ⟨hphase, rfl⟩]
        exact ⟨h.archive, by simp, fun _ => ⟨rfl, rfl, rfl⟩, by simp, by simp⟩
    | _ =>
        rw [if_neg (by simp)]
        exact ⟨h.archive, fun _ => ⟨hthread, hoff, rfl⟩, by simp [hphase], by simp [hphase],
          by simp [hphase]⟩

theorem Carries.withReader (h : Carries service server) (reader : ArchiveReader) :
    Carries { service with archive := some reader } { server with reader := some reader } :=
  ⟨rfl, h.idle, h.accepting, h.closing, h.stuck⟩

theorem Carries.serve (h : Carries service server) (hopen : service.phase ≠ .closing)
    (content : Option Bytes) (startup : Startup) :
    Carries (service.call platform (.serve content startup))
      (serve platform server content startup).1 := by
  rw [ArchiveServer.serve, Service.call]
  rcases hopened : ArchiveReader.openArchive platform {} content with ⟨reader, _ | fault⟩
  · exact (h.withReader reader).launch hopen startup
  · exact h.withReader reader

variable (platform) in
/-- A `stop` of the application waits where there is a loop. -/
theorem Carries.stop (h : Carries service server) :
    ∃ left, stop server false = some left ∧ Carries (service.call platform .stop) left := by
  rw [ArchiveServer.stop, if_neg (by simp), Service.call]
  by_cases hphase : service.phase = .accepting
  · rw [if_pos (h.looping_iff.mpr hphase), if_pos hphase]
    exact ⟨_, rfl, h.archive, by simp, by simp, fun _ => ⟨rfl, rfl, rfl⟩, by simp⟩
  · rw [if_neg fun hlooping => hphase (h.looping_iff.mp hlooping), if_neg hphase]
    exact ⟨stopped, rfl, carries_stopped⟩

theorem took_of_closing (h : service.phase = .closing) (outcome : Accept) :
    service.took outcome = {} :=
  if_pos h

theorem took_of_accepting (h : service.phase = .accepting) {outcome : Accept}
    (hcame : outcome ≠ .failed) : service.took outcome = service := by
  unfold Service.took
  rw [if_neg (by simp [h]), if_pos h]
  cases outcome with
  | failed => exact (hcame rfl).elim
  | _ => rfl

theorem took_failed (h : service.phase = .accepting) :
    service.took .failed = { service with phase := .stuck } := by
  unfold Service.took
  rw [if_neg (by simp [h]), if_pos h]

theorem took_of_not_answers (h : ¬ service.Answers) (outcome : Accept) :
    service.took outcome = service := by
  obtain ⟨haccepting, hclosing⟩ := not_or.mp h
  unfold Service.took
  rw [if_neg hclosing, if_neg haccepting]

/-- The loop goes on, or the `stop` that waited for it is through. -/
theorem Carries.loopAgain (h : Carries service server) (hanswers : service.Answers)
    {outcome : Accept} (hcame : outcome ≠ .failed) :
    Carries (service.took outcome) server.loopAgain := by
  rw [ArchiveServer.loopAgain]
  rcases hanswers with hphase | hphase
  · rw [if_pos (h.accepting hphase).2.1, took_of_accepting hphase hcame]
    exact h
  · obtain ⟨hthread, hoff, -⟩ := h.closing hphase
    rw [if_neg (by simp [hoff]), ArchiveServer.leaveLoop, if_pos hthread, took_of_closing hphase]
    exact carries_stopped

theorem Carries.leaveLoop (h : Carries service server) (hanswers : service.Answers) :
    Carries (service.took .failed) server.leaveLoop := by
  rw [ArchiveServer.leaveLoop]
  rcases hanswers with hphase | hphase
  · obtain ⟨hthread, hrunning, hlistening⟩ := h.accepting hphase
    rw [if_neg (by simp [hthread]), took_failed hphase]
    exact ⟨h.archive, by simp, by simp, by simp, fun _ => ⟨rfl, hrunning, hlistening⟩⟩
  · rw [if_pos (h.closing hphase).1, took_of_closing hphase]
    exact carries_stopped

/-- A connection that does not end the process leaves the server as it is. -/
theorem handleConnection_server (hthread : server.thread ≠ .absent)
    (hclosed : (handleConnection platform server socket).ending = .closed) :
    (handleConnection platform server socket).server = server := by
  cases handleConnection_handling platform server socket with
  | unread hincomplete hending hserver hsilent => exact hserver
  | answered cmd payload response calls hrequest hreply hcalls hsent hunread hstays hgoes hstops =>
      by_cases hshutdown : cmd = .shutdown
      · rw [hstops hshutdown hthread] at hclosed
        cases hclosed
      · exact hstays hshutdown
  | faulted cmd payload fault hrequest hreply hending hsilent =>
      rw [hending] at hclosed
      cases hclosed

theorem step_of_ended (hended : run.ended.isSome) (event : Event) : step platform run event = run :=
  if_pos hended

variable (platform) in
theorem step_accept (hended : run.ended = none) (outcome : Accept) :
    step platform run (.accept outcome) = serverLoop platform run outcome :=
  if_neg (by simp [hended])

theorem Carries.serverLoop_eq (h : Carries service run.server) (hsilent : ¬ service.Answers)
    (outcome : Accept) : serverLoop platform run outcome = run :=
  if_pos (not_not.mp (h.answers_iff.not.mp hsilent))

theorem Carries.serverLoop_connection (h : Carries service run.server) (hanswers : service.Answers)
    (socket : Socket) :
    serverLoop platform run (.connection socket)
      = { server := (handleConnection platform run.server socket).server.loopAgain
          answers := run.answers ++ [(handleConnection platform run.server socket).socket.outgoing]
          ended :=
            if (handleConnection platform run.server socket).ending = .closed then none
            else some (handleConnection platform run.server socket).ending } := by
  rw [serverLoop, if_neg (h.answers_iff.mp hanswers)]

theorem Carries.thread_ne_absent (h : Carries service server) (hanswers : service.Answers) :
    server.thread ≠ .absent := by
  rcases hanswers with hphase | hphase
  · simp [h.accepting hphase]
  · simp [h.closing hphase]

theorem Carries.serverLoop (h : Carries service run.server) (outcome : Accept)
    (hafter : (serverLoop platform run outcome).ended = none) :
    Carries (service.took outcome) (ArchiveServer.serverLoop platform run outcome).server := by
  by_cases hanswers : service.Answers
  · cases outcome with
    | interrupted =>
        rw [ArchiveServer.serverLoop, if_neg (h.answers_iff.mp hanswers)]
        exact h.loopAgain hanswers nofun
    | failed =>
        rw [ArchiveServer.serverLoop, if_neg (h.answers_iff.mp hanswers)]
        exact h.leaveLoop hanswers
    | connection socket =>
        rw [h.serverLoop_connection hanswers] at hafter ⊢
        have hclosed : (handleConnection platform run.server socket).ending = .closed := by
          by_contra hopen
          simp only at hafter
          rw [if_neg hopen] at hafter
          cases hafter
        simp only [handleConnection_server (h.thread_ne_absent hanswers) hclosed]
        exact h.loopAgain hanswers nofun
  · rw [h.serverLoop_eq hanswers, took_of_not_answers hanswers]
    exact h

theorem Carries.call (h : Carries service run.server) (hopen : service.phase ≠ .closing)
    (event : Event) :
    Carries (service.call platform event) (ArchiveServer.call platform run event).server
      ∧ (ArchiveServer.call platform run event).ended = run.ended
      ∧ (ArchiveServer.call platform run event).answers = run.answers := by
  cases event with
  | serve content startup => exact ⟨h.serve hopen content startup, rfl, rfl⟩
  | start startup => exact ⟨h.launch hopen startup, rfl, rfl⟩
  | accept outcome => exact ⟨h, rfl, rfl⟩
  | stop =>
      obtain ⟨left, hleft, hcarries⟩ := h.stop platform
      simp only [ArchiveServer.call, hleft]
      exact ⟨hcarries, trivial, trivial⟩

/-- A call of the application, or one that it cannot make, as it is in `stop`. -/
theorem Carries.step_call (h : Carries service run.server) (hended : run.ended = none) {event : Event}
    (hcall : ∀ outcome, event ≠ .accept outcome) :
    Carries (service.step platform event) (ArchiveServer.step platform run event).server
      ∧ (ArchiveServer.step platform run event).ended = none
      ∧ (ArchiveServer.step platform run event).answers = run.answers := by
  have hstep : ArchiveServer.step platform run event
      = if run.server.thread = .awaited then run else ArchiveServer.call platform run event := by
    unfold ArchiveServer.step
    rw [if_neg (by simp [hended])]
    cases event with
    | accept outcome => exact (hcall outcome rfl).elim
    | _ => rfl
  have hservice : service.step platform event
      = if service.phase = .closing then service else service.call platform event := by
    cases event with
    | accept outcome => exact (hcall outcome rfl).elim
    | _ => rfl
  rw [hstep, hservice]
  by_cases hphase : service.phase = .closing
  · rw [if_pos (h.awaited_iff.mpr hphase), if_pos hphase]
    exact ⟨h, hended, rfl⟩
  · rw [if_neg fun hawaited => hphase (h.awaited_iff.mp hawaited), if_neg hphase, ← hended]
    exact h.call hphase event

/-- One event keeps the server to the service, unless it ends the process. -/
theorem Carries.step (h : Carries service run.server) (hended : run.ended = none) (event : Event)
    (hafter : (step platform run event).ended = none) :
    Carries (service.step platform event) (ArchiveServer.step platform run event).server := by
  by_cases hcall : ∀ outcome, event ≠ .accept outcome
  · exact (h.step_call hended hcall).1
  · push Not at hcall
    obtain ⟨outcome, rfl⟩ := hcall
    rw [step_accept platform hended] at hafter ⊢
    exact h.serverLoop outcome hafter

theorem step_ended (hended : run.ended ≠ none) (event : Event) :
    (ArchiveServer.step platform run event).ended ≠ none := by
  rw [step_of_ended (Option.isSome_iff_ne_none.mpr hended)]
  exact hended

/-- Whatever its clients do and whatever becomes of the calls on their sockets, the server is the service
until the process ends. -/
theorem carries_foldl (events : List Event) (h : Carries service run.server)
    (hended : (events.foldl (ArchiveServer.step platform) run).ended = none) :
    Carries (events.foldl (Service.step platform) service)
      (events.foldl (ArchiveServer.step platform) run).server := by
  induction events generalizing service run with
  | nil => exact h
  | cons event events ih =>
      have hgoes : (ArchiveServer.step platform run event).ended = none := by
        by_contra hover
        have hlater : ∀ later : List Event, ∀ reached : Run, reached.ended ≠ none →
            (later.foldl (ArchiveServer.step platform) reached).ended ≠ none := by
          intro later
          induction later with
          | nil => exact fun reached hreached => hreached
          | cons event later ih => exact fun reached hreached => ih _ (step_ended hreached event)
        exact hlater events _ hover hended
      have hrun : run.ended = none := by
        by_contra hover
        exact step_ended hover event hgoes
      exact ih (h.step hrun event hgoes) hended

theorem carries_after {events : List Event} (hended : (after platform events).ended = none) :
    Carries (Service.after platform events) (after platform events).server :=
  carries_foldl events carries_fresh hended

/-- The calls on every connection that comes up get on. -/
def SteadyEvents (events : List Event) : Prop :=
  ∀ event ∈ events, ∀ socket, event = .accept (.connection socket) → Steady socket.calls

variable (platform) in
/-- The process ends at the requests that end it. -/
theorem ending_closed_iff (hsteady : Steady socket.calls) (hthread : server.thread ≠ .absent)
    (harchive : server.reader = service.archive) :
    (handleConnection platform server socket).ending = .closed
      ↔ service.ends platform socket.incoming = false := by
  cases handleConnection_handling platform server socket with
  | unread hincomplete hending hserver hsilent =>
      rw [Service.ends, hincomplete hsteady]
      exact iff_of_true hending rfl
  | answered cmd payload response calls hrequest hreply hcalls hsent hunread hstays hgoes hstops =>
      rw [Service.ends, hrequest, Option.any_some, ← harchive, hreply]
      by_cases hshutdown : cmd = .shutdown
      · rw [hstops hshutdown hthread]
        simp [hshutdown]
      · refine iff_of_true (hgoes hshutdown hsteady) ?_
        simp [hshutdown, Except.isOk, Except.toBool]
  | faulted cmd payload fault hrequest hreply hending hsilent =>
      rw [Service.ends, hrequest, Option.any_some, ← harchive, hreply, hending]
      simp [Except.isOk, Except.toBool]

/-- A run agrees with a transcript: in what was answered, in whether the process is over, and while it
is not, in what clients meet. -/
structure Agrees (transcript : Transcript) (run : Run) : Prop where
  answers : run.answers = transcript.answers
  finished : run.ended.isSome = transcript.finished
  carries : run.ended = none → Carries transcript.service run.server

theorem agrees_fresh : Agrees {} { server := {} } :=
  ⟨rfl, rfl, fun _ => carries_fresh⟩

theorem Agrees.connection {transcript : Transcript} (h : Agrees transcript run)
    (hended : run.ended = none) (hsteady : Steady socket.calls) :
    Agrees (transcript.step platform (.accept (.connection socket)))
      (ArchiveServer.step platform run (.accept (.connection socket))) := by
  have hcarries := h.carries hended
  have hover : transcript.finished = false := by rw [← h.finished, hended]; rfl
  rw [step_accept platform hended]
  unfold Transcript.step
  rw [if_neg (by simp [hover])]
  simp only
  by_cases hanswers : transcript.service.Answers
  · have hiff := ending_closed_iff platform hsteady (hcarries.thread_ne_absent hanswers)
      hcarries.archive
    obtain ⟨front, hout, -, hall⟩ := outgoing_prefix_answer platform run.server socket
    rw [if_pos hanswers]
    refine ⟨?_, ?_, hcarries.serverLoop (.connection socket)⟩
    · rw [hcarries.serverLoop_connection hanswers]
      simp only [h.answers, hout, hall hsteady, hcarries.archive]
    · rw [hcarries.serverLoop_connection hanswers]
      cases hends : transcript.service.ends platform socket.incoming with
      | false => rw [if_pos (hiff.mpr hends)]; rfl
      | true =>
          rw [if_neg fun hclosed => Bool.false_ne_true ((hiff.mp hclosed).symm.trans hends)]
          rfl
  · rw [if_neg hanswers, hcarries.serverLoop_eq hanswers]
    exact h

variable (platform) in
/-- Only a connection ends the process, and only a connection is answered. -/
theorem serverLoop_of_no_connection (hended : run.ended = none) {outcome : Accept}
    (hother : ∀ socket, outcome ≠ .connection socket) :
    (serverLoop platform run outcome).ended = none
      ∧ (serverLoop platform run outcome).answers = run.answers := by
  cases outcome with
  | connection socket => exact (hother socket rfl).elim
  | _ =>
      simp only [serverLoop]
      split <;> exact ⟨hended, rfl⟩

theorem Agrees.step {transcript : Transcript} (h : Agrees transcript run) {event : Event}
    (hsteady : ∀ socket, event = .accept (.connection socket) → Steady socket.calls) :
    Agrees (transcript.step platform event) (ArchiveServer.step platform run event) := by
  cases hended : run.ended with
  | some ending =>
      have hover : transcript.finished = true := by rw [← h.finished, hended]; rfl
      unfold Transcript.step
      rw [if_pos hover, step_of_ended (by simp [hended])]
      exact h
  | none =>
      by_cases hconnection : ∃ socket, event = .accept (.connection socket)
      · obtain ⟨socket, rfl⟩ := hconnection
        exact h.connection hended (hsteady socket rfl)
      · push Not at hconnection
        have hcarries := h.carries hended
        have hover : transcript.finished = false := by rw [← h.finished, hended]; rfl
        have hstep : transcript.step platform event
            = { transcript with service := transcript.service.step platform event } := by
          unfold Transcript.step
          rw [if_neg (by simp [hover])]
          rcases event with _ | _ | _ | (socket | _ | _)
          case accept.connection => exact (hconnection socket rfl).elim
          all_goals rfl
        obtain ⟨hgoes, hsame⟩ : (ArchiveServer.step platform run event).ended = none
            ∧ (ArchiveServer.step platform run event).answers = run.answers := by
          by_cases hcall : ∀ outcome, event ≠ .accept outcome
          · exact (hcarries.step_call hended hcall).2
          · push Not at hcall
            obtain ⟨outcome, rfl⟩ := hcall
            rw [step_accept platform hended]
            exact serverLoop_of_no_connection platform hended fun socket heq =>
              hconnection socket (congrArg Event.accept heq)
        rw [hstep]
        exact ⟨hsame.trans h.answers, by rw [hgoes, hover]; rfl,
          fun _ => hcarries.step hended event hgoes⟩

theorem agrees_foldl {events : List Event} (hsteady : SteadyEvents events) {transcript : Transcript}
    (h : Agrees transcript run) :
    Agrees (events.foldl (Transcript.step platform) transcript)
      (events.foldl (ArchiveServer.step platform) run) := by
  induction events generalizing transcript run with
  | nil => exact h
  | cons event events ih =>
      exact ih (fun other hother => hsteady other (List.mem_cons_of_mem _ hother))
        (h.step (hsteady event (List.mem_cons_self ..)))

/-- **The server over a run.** Over any sequence of calls of the application and of connections whose
calls get on, the server answers what the service does, and its process is over when that of the service
is: every connection that comes up while the service accepts is answered from the archive of the last
`serve`, and one that comes up while a `stop` waits, which is through with it; no other is, and nothing is
answered after a Shutdown. -/
theorem after_agrees {events : List Event} (hsteady : SteadyEvents events) :
    Agrees (Transcript.after platform events) (after platform events) :=
  agrees_foldl hsteady agrees_fresh

/-- A server whose archive is missing answers an error, then a ping although it is being stopped, nobody
until it starts again, and nothing behind a Shutdown. -/
theorem after_agrees_shutdown :
    let events : List Event :=
      [.serve none .ready, .start .ready, .accept (.connection { incoming := [0x05, 0, 0, 0, 0] }),
        .stop, .accept (.connection { calls := [.interrupted, .moves 2], incoming := [0x06] }),
        .accept (.connection { incoming := [0x06] }), .start .ready,
        .accept (.connection { incoming := [0xFF] }), .accept (.connection { incoming := [0x06] })]
    Agrees (Transcript.after Platform.reference events) (after Platform.reference events)
      ∧ (Transcript.after Platform.reference events).answers
        = [[0x02, 0, 0, 0, 0], [0x00, 0, 0, 0, 0], [0x00, 0, 0, 0, 0]] := by
  refine ⟨after_agrees ?_, by decide +kernel⟩
  intro event hevent socket heq
  subst heq
  simp only [List.mem_cons, Event.accept.injEq, Accept.connection.injEq, reduceCtorEq, false_or,
    List.not_mem_nil, or_false] at hevent
  rcases hevent with rfl | rfl | rfl | rfl | rfl <;> simp [Steady, Call.Steady]

/-! ### A loop that is over -/

/-- The loop is over and the server counts as running. -/
def Left (answers : List Bytes) (run : Run) : Prop :=
  run.ended = none ∧ run.answers = answers ∧ run.server.thread = .ended ∧ run.server.running = true

theorem Left.step {answers : List Bytes} (h : Left answers run) {event : Event}
    (hevent : event ≠ .stop) : Left answers (ArchiveServer.step platform run event) := by
  obtain ⟨hended, hanswers, hthread, hrunning⟩ := h
  have hfree : run.server.thread ≠ .awaited := by simp [hthread]
  unfold ArchiveServer.step
  rw [if_neg (by simp [hended])]
  cases event with
  | stop => exact (hevent rfl).elim
  | start startup =>
      simp only [if_neg hfree, call, start, hrunning, if_true]
      exact ⟨hended, hanswers, hthread, hrunning⟩
  | serve content startup =>
      simp only [if_neg hfree, call, serve]
      rcases ArchiveReader.openArchive platform {} content with ⟨reader, _ | fault⟩
      · simp only [start, hrunning, if_true]
        exact ⟨hended, hanswers, hthread, rfl⟩
      · exact ⟨hended, hanswers, hthread, hrunning⟩
  | accept outcome =>
      simp only [serverLoop]
      rw [if_pos ⟨by simp [hthread], hfree⟩]
      exact ⟨hended, hanswers, hthread, hrunning⟩

variable (platform) in
theorem Left.foldl {answers : List Bytes} {later : List Event} (h : Left answers run)
    (hlater : ∀ event ∈ later, event ≠ .stop) :
    Left answers (later.foldl (ArchiveServer.step platform) run) := by
  induction later generalizing run with
  | nil => exact h
  | cons event later ih =>
      exact ih (h.step (hlater event (List.mem_cons_self ..)))
        fun other hother => hlater other (List.mem_cons_of_mem _ hother)

/-- **After a failing `accept`.** Whatever follows, until the application calls `stop`: nobody is answered,
the server counts as running, and so it refuses to start. -/
theorem unheeded_until_stop {events later : List Event}
    (hended : (after platform events).ended = none)
    (hlooping : (after platform events).server.thread = .looping)
    (hlater : ∀ event ∈ later, event ≠ .stop) (startup : Startup) :
    let run := after platform (events ++ .accept .failed :: later)
    run.ended = none ∧ run.answers = (after platform events).answers
      ∧ run.server.running = true
      ∧ start run.server startup = (run.server, some (.code (.returned .invalidOperation))) := by
  have hcarries := carries_after hended
  have hphase : (Service.after platform events).phase = .accepting :=
    hcarries.looping_iff.mp hlooping
  have hrunning := (hcarries.accepting hphase).2.1
  have hfailed : Left (after platform events).answers
      (ArchiveServer.step platform (after platform events) (.accept .failed)) := by
    rw [step_accept platform hended, serverLoop, if_neg (by simp [hlooping])]
    simp only [leaveLoop]
    rw [if_neg (by simp [hlooping])]
    exact ⟨hended, rfl, rfl, hrunning⟩
  have hleft := hfailed.foldl platform hlater
  have hafter : after platform (events ++ .accept .failed :: later)
      = later.foldl (ArchiveServer.step platform)
        (ArchiveServer.step platform (after platform events) (.accept .failed)) := by
    rw [after, List.foldl_append, List.foldl_cons]
    rfl
  rw [← hafter] at hleft
  intro run
  obtain ⟨hgoes, hanswers, -, hcounts⟩ := hleft
  refine ⟨hgoes, hanswers, hcounts, ?_⟩
  unfold start
  exact if_pos hcounts

theorem unheeded_until_stop_serving :
    let run := after Platform.reference
      ([.serve none .ready, .start .ready] ++ .accept .failed
        :: [.serve none .ready, .accept (.connection { incoming := [0x06] })])
    run.ended = none
      ∧ run.answers = (after Platform.reference [.serve none .ready, .start .ready]).answers
      ∧ run.server.running = true
      ∧ start run.server .ready = (run.server, some (.code (.returned .invalidOperation))) :=
  unheeded_until_stop rfl rfl (by simp) .ready

/-! ### An archive over the network -/

section Remote

open ArchiveWriter Session

variable {session : Session} {blobs : List Blob} {calls : List Transfer.Call}

/-- What a client reads back off its connection, if that is what comes up next in a run, and the client
sends a request and nothing behind it. -/
def asked (platform : Platform) (events : List Event) (calls : List Transfer.Call) (cmd : Command)
    (payload : Bytes) : Option (UInt8 × Bytes) :=
  let run := after platform
    (events ++ [.accept (.connection { calls := calls, incoming := requestBytes cmd payload })])
  run.answers[(after platform events).answers.length]?.bind responseOf

/-- A server in its loop, with an archive. -/
structure Serving (platform : Platform) (events : List Event) (reader : ArchiveReader) : Prop where
  ended : (after platform events).ended = none
  looping : (after platform events).server.thread = .looping
  archive : (after platform events).server.reader = some reader

variable {events : List Event} {reader : ArchiveReader}

theorem asked_eq (h : Serving platform events reader) {cmd : Command} {payload : Bytes}
    {response : Response} (hpayload : payload.length < 2 ^ 32) (hsteady : Steady calls)
    (hbare : cmd.isBare = false) (hrespond : respond platform (some reader) cmd payload = .ok response)
    (hfits : response.data.length < 2 ^ 32) :
    asked platform events calls cmd payload = some (response.code.toByte, response.data) := by
  have hreply : reply platform (after platform events).server.reader cmd
      (if cmd.isBare then [] else payload) = .ok response := by
    rw [hbare, h.archive, reply, if_neg (by simp [hbare])]
    exact hrespond
  obtain ⟨front, hout, -, hall⟩ := outgoing_prefix_answer platform (after platform events).server
    { calls := calls, incoming := requestBytes cmd payload ++ [] }
  rw [answerBytes_of_reply (requestOf_requestBytes cmd hpayload []) hreply] at hall
  rw [List.append_nil] at hout hall
  have hrun : after platform (events
        ++ [.accept (.connection { calls := calls, incoming := requestBytes cmd payload })])
      = serverLoop platform (after platform events)
        (.connection { calls := calls, incoming := requestBytes cmd payload }) := by
    rw [after, List.foldl_append]
    exact step_accept platform h.ended _
  rw [asked, hrun, serverLoop, if_neg (by simp [h.looping])]
  simp only [List.getElem?_concat_length, Option.bind_some]
  rw [hout, List.nil_append, hall hsteady]
  exact (responseOf_responseBytes_iff response).mpr hfits

theorem asked_listEntries (hserving : Serving platform events reader)
    (h : Reopened platform session {} reader) (hsteady : Steady calls)
    (hfew : (session.records platform).length < 2 ^ 29) :
    asked platform events calls .listEntries []
      = some (0x00, (List.range' 1 (session.records platform).length).flatMap (leBytes 8)) := by
  have hopen : ¬ ¬ reader.isOpen = true := not_not.mpr h.isOpen
  have hbytes : (reader.indexManager.entries.map ArchiveReader.ofIndexEntry).flatMap idBytes
      = (List.range' 1 (session.records platform).length).flatMap (leBytes 8) := by
    rw [← h.ids_toNat, h.entries, List.map_map, List.flatMap_map, List.flatMap_map]
    rfl
  have hrespond : respond platform (some reader) .listEntries []
      = .ok { code := .success
              data := (List.range' 1 (session.records platform).length).flatMap (leBytes 8) } := by
    simp only [respond]
    rw [if_neg hopen, ArchiveReader.listEntries, if_neg hopen, answer, hbytes]
  have hlength : ((List.range' 1 (session.records platform).length).flatMap (leBytes 8)).length
      = (session.records platform).length * 8 := by
    rw [List.length_flatMap, List.map_congr_left fun id _ => length_leBytes 8 id, List.map_const',
      List.sum_replicate_nat, List.length_range']
  exact asked_eq hserving (by decide) hsteady rfl hrespond (by rw [hlength]; omega)

theorem asked_extractEntry (hserving : Serving platform events reader)
    (h : Reopened platform session {} reader) (hsteady : Steady calls) {i : Nat}
    {record : Record} (hrecord : (session.records platform)[i]? = some record)
    (hdata : record.isDirectory = false)
    (hrestored : restored platform (openFlags (session.configured platform).config) record.stored
      = some record.data) (hfits : record.data.length < 2 ^ 32) :
    asked platform events calls .extractEntry (leBytes 8 (i + 1)) = some (0x00, record.data) := by
  have hopen : ¬ ¬ reader.isOpen = true := not_not.mpr h.isOpen
  have hid : UInt64.ofNat (leValue ((leBytes 8 (i + 1)).take 8)) = record.entry.id := by
    rw [List.take_of_length_le (by rw [length_leBytes]), ← (h.id_eq hrecord).2,
      ofNat_leValue_leBytes_eight]
  have hrespond : respond platform (some reader) .extractEntry (leBytes 8 (i + 1))
      = .ok { code := .success, data := record.data } := by
    simp only [respond]
    rw [if_neg hopen, if_pos (by rw [length_leBytes]), hid,
      (h.extractEntryById_iff hrecord hdata _).mpr ⟨hrestored, fun _ => rfl⟩]
    rfl
  exact asked_eq hserving (lt_of_eq_of_lt (length_leBytes 8 _) (by decide)) hsteady rfl hrespond hfits

theorem asked_findEntry (hserving : Serving platform events reader)
    (h : Reopened platform session {} reader) (hsteady : Steady calls) {i : Nat}
    {record : Record} {path : Bytes} (hrecord : (session.records platform)[i]? = some record)
    (hpath : DirectoryTree.splitPath record.entry.path = DirectoryTree.splitPath path)
    (hne : DirectoryTree.splitPath path ≠ [])
    (hfirst : ∀ earlier ∈ (session.records platform).take i,
      ¬ DirectoryTree.splitPath path <+: DirectoryTree.splitPath earlier.entry.path)
    (hfits : path.length < 2 ^ 32) :
    ∃ location, asked platform events calls .findEntry path
      = some (0x00, leBytes 8 (i + 1) ++ location) := by
  have hopen : ¬ ¬ reader.isOpen = true := not_not.mpr h.isOpen
  have hid := (h.id_eq hrecord).2
  have hat := (h.idAt_iff hne record.entry.id).mpr ⟨i, record, hrecord, hpath ▸ List.prefix_rfl,
    hfirst, by rw [if_pos hpath.symm, hid]⟩
  obtain ⟨entry, hfound, hindexed⟩ :=
    (h.findEntryByPath_iff path _).mpr ⟨i, record, record.entry.id, hrecord, hid, hat, rfl⟩
  have hentry : entry.id = record.entry.id := congrArg IndexEntry.entryId hindexed
  have hrespond : respond platform (some reader) .findEntry path
      = .ok { code := .success, data := entryBytes entry } := by
    simp only [respond]
    rw [if_neg hopen, hfound]
    rfl
  refine ⟨leBytes 8 entry.offset.toNat ++ leBytes 8 entry.storedSize.toNat, ?_⟩
  have hasked := asked_eq hserving hfits hsteady rfl hrespond
    (by simp only [entryBytes, List.length_append, length_leBytes]; decide)
  rw [hasked, entryBytes, List.append_assoc, hentry, hid]
  rfl

/-- **An archive over the network.** After any run in which the archive of some blobs was served last and
the server is in its loop, the client whose connection comes up next gets the ids of all of them, the id of
each by its path, or each back by its id, however the calls on its socket cut the bytes. -/
theorem remote_roundTrip {events : List Event} (hended : (after platform events).ended = none)
    (hlooping : (after platform events).server.thread = .looping)
    (hserved : (Service.after platform events).archive
      = some (ArchiveReader.openArchive platform {} (some (session.archive platform))).1)
    (h : session.OfBlobs blobs)
    (hcompression : session.config.compression = .none ∨ session.config.compression = .zstd)
    (hencryption : session.config.encryption = .none)
    (hcompress : ∀ blob ∈ blobs, blob.data ≠ [] → (platform.zstd.compressCCtx blob.data
      (platform.zstd.compressBound blob.data.length) session.config.compressionLevel).isSome)
    (hzstd : platform.zstd.Lossless)
    (hpaths : ∀ blob ∈ blobs, DirectoryTree.splitPath blob.path ≠ [])
    (happart : blobs.Pairwise fun earlier later =>
      ¬ DirectoryTree.splitPath earlier.path <+: DirectoryTree.splitPath later.path
        ∧ ¬ DirectoryTree.splitPath later.path <+: DirectoryTree.splitPath earlier.path)
    (hopened : (session.opened platform).2 = none)
    (hgood : (session.closed platform).1.file.good = true) (hsteady : Steady calls) :
    (blobs.length < 2 ^ 29 → asked platform events calls .listEntries []
        = some (0x00, (List.range' 1 blobs.length).flatMap (leBytes 8)))
      ∧ ∀ i blob, blobs[i]? = some blob →
        (blob.path.length < 2 ^ 32 → ∃ location, asked platform events calls .findEntry blob.path
          = some (0x00, leBytes 8 (i + 1) ++ location))
        ∧ (blob.data.length < 2 ^ 32 →
          asked platform events calls .extractEntry (leBytes 8 (i + 1)) = some (0x00, blob.data)) := by
  have hclosed := closed_of_good hopened hgood
  have hfits := h.codecFits hcompression hencryption hcompress hopened
  have hrestored := restored_of_codecFits hencryption hzstd hopened hfits
  have hcount := congrArg List.length (h.records_eq hpaths hclosed)
  rw [List.length_map, List.length_map] at hcount
  obtain ⟨reader, hopen, hreader⟩ := reopen hclosed {}
  have hserving : Serving platform events reader := by
    refine ⟨hended, hlooping, ?_⟩
    rw [(carries_after hended).archive, hserved, hopen]
  refine ⟨fun hfew => ?_, fun i blob hblob => ?_⟩
  · rw [← hcount] at hfew ⊢
    exact asked_listEntries hserving hreader hsteady hfew
  · obtain ⟨record, hrecord, hpath, hdata, hdirectory⟩ := h.getElem?_records hpaths hclosed hblob
    have hback := hrestored record (List.mem_of_getElem? hrecord) hdirectory
    refine ⟨fun hshort => ?_, fun hshort => ?_⟩
    · exact asked_findEntry hserving hreader hsteady hrecord (by rw [hpath])
        (hpaths blob (List.mem_of_getElem? hblob))
        (h.not_begins_earlier hpaths happart hclosed hblob) hshort
    · rw [← hdata] at hshort ⊢
      exact asked_extractEntry hserving hreader hsteady hrecord hdirectory hback hshort

/-- The archive is served, a client pings, `accept` is interrupted, and a client whose socket gives one
byte a call asks for the blobs. -/
theorem remote_roundTrip_sharedDirectory :
    let events : List Event :=
      [.serve (some (sharedDirectorySession.archive Platform.reference)) .ready,
        .accept (.connection { incoming := [0x06] }), .accept .interrupted]
    let calls : List Transfer.Call := List.replicate 40 (.moves 1)
    (sharedDirectory.length < 2 ^ 29 → asked Platform.reference events calls .listEntries []
        = some (0x00, (List.range' 1 sharedDirectory.length).flatMap (leBytes 8)))
      ∧ ∀ i blob, sharedDirectory[i]? = some blob →
        (blob.path.length < 2 ^ 32 →
          ∃ location, asked Platform.reference events calls .findEntry blob.path
            = some (0x00, leBytes 8 (i + 1) ++ location))
        ∧ (blob.data.length < 2 ^ 32 →
          asked Platform.reference events calls .extractEntry (leBytes 8 (i + 1))
            = some (0x00, blob.data)) := by
  intro events calls
  have hblobs : sharedDirectorySession.OfBlobs sharedDirectory := ⟨rfl, rfl⟩
  have hclosed : (sharedDirectorySession.closed Platform.reference).2 = none := by decide +kernel
  obtain ⟨reader, hopen, -⟩ := reopen hclosed {}
  have hserved : call Platform.reference { server := {} } (.serve
        (some (sharedDirectorySession.archive Platform.reference)) .ready)
      = { server :=
            { reader := some reader, thread := .looping, running := true, listening := true } } := by
    rw [call, serve, hopen]
    rfl
  have hstep : step Platform.reference { server := {} } (.serve
        (some (sharedDirectorySession.archive Platform.reference)) .ready)
      = call Platform.reference { server := {} } (.serve
        (some (sharedDirectorySession.archive Platform.reference)) .ready) := rfl
  have hafter : after Platform.reference events
      = [Event.accept (.connection { incoming := [0x06] }), .accept .interrupted].foldl
        (step Platform.reference)
        { server :=
            { reader := some reader, thread := .looping, running := true, listening := true } } := by
    rw [after, List.foldl_cons, hstep, hserved]
  have hended : (after Platform.reference events).ended = none := by
    rw [hafter]
    rfl
  have hlooping : (after Platform.reference events).server.thread = .looping := by
    rw [hafter]
    rfl
  have harchive : (Service.after Platform.reference events).archive
      = some (ArchiveReader.openArchive Platform.reference {} (some
        (sharedDirectorySession.archive Platform.reference))).1 := by
    simp only [events, Service.after, List.foldl_cons, List.foldl_nil, Service.step, Service.call, hopen]
    rfl
  exact remote_roundTrip hended hlooping harchive hblobs (.inr rfl) rfl (by decide +kernel)
    Platform.reference_lossless (by decide) (by decide) (by decide +kernel) (by decide +kernel)
    (by simp [Steady, calls, Call.Steady])

end Remote

end ArchiveServer

end NebulaFS
