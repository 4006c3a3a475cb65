import EglUtil.TcpSocket

/-!
# Error codes of `TcpSocket` and `TcpServer`

The waits, `send` and `recv`, and where `error()` comes from when a call reports a failure:
`errno`, the last error of the loop over the addresses, or `SO_ERROR`. As in the ownership model,
what the system answers is an argument; a loop that calls the system again takes one answer for
each turn, and without any more the call has not returned.

**Theorem (`reported_iff`).** If every failing call of the system sets `errno`, then every failure
that is reported leaves a code in `error()`, and nothing else does in `accept`, but for two ways
out: `connect` when `getaddrinfo` fails and leaves `errno` at zero, and `wait_writable` when `poll`
signals an error, `SO_ERROR` reads zero and no earlier call has left a code.

`getaddrinfo` returns a code of its own, which `connect` drops for `errno`.
-/

namespace EglUtil.Tcp

open ResourceLog

variable {e : Errno} {α : Type}

/-! ## Calls of the system -/

/-- A call that is repeated while it is interrupted. -/
def retryInterrupted (e : Errno) : List (Except Int α) → Option (Except Int α)
  | [] => none
  | .error err :: rest =>
    if e.isInterrupted err then retryInterrupted e rest else some (.error err)
  | .ok a :: _ => some (.ok a)

inductive WaitResult where
  | ready
  | timedOut
  | error
deriving Repr, DecidableEq

/-- The bits of `revents` that are looked at. -/
structure Revents where
  pollErr : Bool
  pollNval : Bool
deriving Repr, DecidableEq

/-- `poll` fails, or returns 0, or returns 1 with a mask. -/
abbrev PollAnswer := Except Int (Option Revents)

/-- `poll_one`: the result, `revents_out` and `err`. -/
def pollOne (e : Errno) (answers : List PollAnswer) : Option (WaitResult × Revents × Int) :=
  (retryInterrupted e answers).map fun
    | .error code => (.error, ⟨false, false⟩, code)
    | .ok none => (.timedOut, ⟨false, false⟩, 0)
    | .ok (some revents) => (.ready, revents, 0)

/-- `select` fails, or says whether the connection has resolved. -/
abbrev SelectAnswer := Except Int Bool

/-- `wait_connect_resolved`: the result and `err`. -/
def waitConnectResolved (e : Errno) (answers : List SelectAnswer) : Option (WaitResult × Int) :=
  (retryInterrupted e answers).map fun
    | .error code => (.error, code)
    | .ok false => (.timedOut, 0)
    | .ok true => (.ready, 0)

/-- `send` or `recv` fails, or transfers a number of bytes. -/
abbrev TransferAnswer := Except Int Nat

inductive IoStatus where
  | ok
  | closed
  | wouldBlock
  | error
deriving Repr, DecidableEq

structure IoResult where
  status : IoStatus
  bytes : Nat
deriving Repr, DecidableEq

/-! ## The calls of the classes -/

namespace TcpSocket

/-- `wait_connected`; `soError` is what `get_so_error` reads. -/
def waitConnected (e : Errno) (s : TcpSocket) (answers : List SelectAnswer) (soError : Int) :
    Option (WaitResult × TcpSocket) :=
  if !s.isOpen then some (.error, s)
  else (waitConnectResolved e answers).map fun (result, err) =>
    if result ≠ .ready then
      if result = .error then (result, { s with error := err }) else (result, s)
    else if soError ≠ 0 then (.error, { s with error := soError })
    else (.ready, s)

def waitReadable (e : Errno) (s : TcpSocket) (answers : List PollAnswer) :
    Option (WaitResult × TcpSocket) :=
  if !s.isOpen then some (.error, s)
  else (pollOne e answers).map fun (result, _, err) =>
    if result = .error then (result, { s with error := err }) else (result, s)

/-- `wait_writable`; `soError` is what `get_so_error` reads. -/
def waitWritable (e : Errno) (s : TcpSocket) (answers : List PollAnswer) (soError : Int) :
    Option (WaitResult × TcpSocket) :=
  if !s.isOpen then some (.error, s)
  else (pollOne e answers).map fun (result, revents, err) =>
    if result ≠ .ready then
      if result = .error then (result, { s with error := err }) else (result, s)
    else if revents.pollErr || revents.pollNval then
      (.error, { s with error := if soError ≠ 0 then soError else s.error })
    else (.ready, s)

def send (e : Errno) (s : TcpSocket) (answers : List TransferAnswer) :
    Option (IoResult × TcpSocket) :=
  if !s.isOpen then some (⟨.error, 0⟩, s)
  else (retryInterrupted e answers).map fun
    | .error err =>
      if e.isWouldBlock err then (⟨.wouldBlock, 0⟩, s)
      else (⟨.error, 0⟩, { s with error := err })
    | .ok n => (⟨.ok, n⟩, s)

def recv (e : Errno) (s : TcpSocket) (answers : List TransferAnswer) :
    Option (IoResult × TcpSocket) :=
  if !s.isOpen then some (⟨.error, 0⟩, s)
  else (retryInterrupted e answers).map fun
    | .error err =>
      if e.isWouldBlock err then (⟨.wouldBlock, 0⟩, s)
      else (⟨.error, 0⟩, { s with error := err })
    | .ok n => if n = 0 then (⟨.closed, 0⟩, s) else (⟨.ok, n⟩, s)

end TcpSocket

/-- `TcpServer::wait_readable` -/
def TcpServer.waitReadable (e : Errno) (s : TcpServer) (answers : List PollAnswer) :
    Option (WaitResult × TcpServer) :=
  if !s.isOpen then some (.error, s)
  else (pollOne e answers).map fun (result, _, err) =>
    if result = .error then (result, { s with error := err }) else (result, s)

/-! ## What is promised -/

/-- A call of the system that fails sets `errno`. -/
def SetsErrno (answer : Except Int α) : Prop := ∀ err, answer = .error err → err ≠ 0

def SetErrno (answers : List (Except Int α)) : Prop := ∀ answer ∈ answers, SetsErrno answer

def FcntlAnswer.SetErrno (answer : FcntlAnswer) : Prop :=
  SetsErrno answer.getFlags ∧ SetsErrno answer.setFlags

def TcpSocket.AddressAnswer.SetErrno (answer : TcpSocket.AddressAnswer) : Prop :=
  SetsErrno answer.socket ∧ answer.fcntl.SetErrno ∧ SetsErrno answer.connect

def TcpServer.ListenAnswer.SetErrno (answer : TcpServer.ListenAnswer) : Prop :=
  SetsErrno answer.socket ∧ answer.fcntl.SetErrno ∧ SetsErrno answer.bind ∧
    SetsErrno answer.listen

/-- The first call of `accept` that is not interrupted found no connection. -/
def NothingPending (e : Errno) (answers : List DescriptorAnswer) : Prop :=
  ∃ err, retryInterrupted e answers = some (.error err) ∧ e.isWouldBlock err = true

/-- A call with what the system answers to it. -/
inductive Call where
  | connect (nonBlocking : Bool) (answer : TcpSocket.ResolveAnswer)
  | waitConnected (s : TcpSocket) (answers : List SelectAnswer) (soError : Int)
  | waitReadable (s : TcpSocket) (answers : List PollAnswer)
  | waitWritable (s : TcpSocket) (answers : List PollAnswer) (soError : Int)
  | send (s : TcpSocket) (answers : List TransferAnswer)
  | recv (s : TcpSocket) (answers : List TransferAnswer)
  | listen (port : UInt16) (nonBlocking : Bool) (answer : TcpServer.ListenAnswer)
  | serverWaitReadable (s : TcpServer) (answers : List PollAnswer)
  | accept (s : TcpServer) (fcntl : FcntlAnswer) (answers : List DescriptorAnswer)

/-- What the system documents: failing calls set `errno`, and `getaddrinfo` finds at least one
address if it succeeds. It need not set `errno` if it fails. -/
def Call.Documented : Call → Prop
  | .connect _ (.failed _) => True
  | .connect _ (.resolved _ addresses) => addresses ≠ [] ∧ ∀ ai ∈ addresses, ai.SetErrno
  | .waitConnected _ answers _ => SetErrno answers
  | .waitReadable _ answers => SetErrno answers
  | .waitWritable _ answers _ => SetErrno answers
  | .send _ answers => SetErrno answers
  | .recv _ answers => SetErrno answers
  | .listen _ _ answer => answer.SetErrno
  | .serverWaitReadable _ answers => SetErrno answers
  | .accept _ fcntl answers => fcntl.SetErrno ∧ SetErrno answers

/-- A failure that the call reports leaves a code in `error()`; where nothing is pending `accept`
leaves none. -/
def Call.Reported (e : Errno) : Call → Prop
  | .connect nonBlocking answer => Returns (TcpSocket.connect e nonBlocking answer) fun s =>
      s.isOpen = false → s.error ≠ 0
  | .waitConnected s answers soError => s.isOpen = true → ∀ s',
      s.waitConnected e answers soError = some (.error, s') → s'.error ≠ 0
  | .waitReadable s answers => s.isOpen = true → ∀ s',
      s.waitReadable e answers = some (.error, s') → s'.error ≠ 0
  | .waitWritable s answers soError => s.isOpen = true → ∀ s',
      s.waitWritable e answers soError = some (.error, s') → s'.error ≠ 0
  | .send s answers => s.isOpen = true → ∀ r s',
      s.send e answers = some (r, s') → r.status = .error → s'.error ≠ 0
  | .recv s answers => s.isOpen = true → ∀ r s',
      s.recv e answers = some (r, s') → r.status = .error → s'.error ≠ 0
  | .listen port nonBlocking answer => Returns (TcpServer.listen port nonBlocking answer) fun s =>
      s.isOpen = false → s.error ≠ 0
  | .serverWaitReadable s answers => s.isOpen = true → ∀ s',
      s.waitReadable e answers = some (.error, s') → s'.error ≠ 0
  | .accept s fcntl answers => s.isOpen = true → Returns (s.accept e fcntl answers) fun r =>
      r.1 = none → (r.2.error = 0 ↔ NothingPending e answers)

/-- The ways out that report a failure without a code. -/
def Call.Silent (e : Errno) : Call → Prop
  | .connect _ answer => answer = .failed 0
  | .waitWritable s answers soError => s.isOpen = true ∧ s.error = 0 ∧ soError = 0 ∧
      ∃ revents, retryInterrupted e answers = some (.ok (some revents)) ∧
        (revents.pollErr || revents.pollNval) = true
  | _ => False

/-! ## Codes -/

/-- What ends the repetition is one of the answers. -/
theorem mem_of_retryInterrupted {answers : List (Except Int α)} {answer : Except Int α}
    (h : retryInterrupted e answers = some answer) : answer ∈ answers := by
  induction answers with
  | nil => cases h
  | cons first rest ih =>
    cases first with
    | error err =>
      rw [retryInterrupted] at h
      split_ifs at h
      · exact List.mem_cons_of_mem _ (ih h)
      · cases h
        exact List.mem_cons_self
    | ok a =>
      cases h
      exact List.mem_cons_self

theorem SetErrno.ne_zero {answers : List (Except Int α)} (hset : SetErrno answers) {err : Int}
    (h : retryInterrupted e answers = some (.error err)) : err ≠ 0 :=
  hset _ (mem_of_retryInterrupted h) err rfl

theorem FcntlAnswer.SetErrno.ne_zero {answer : FcntlAnswer} (hset : answer.SetErrno) {err : Int}
    (h : setNonblockingNative answer = some err) : err ≠ 0 := by
  unfold setNonblockingNative at h
  split at h
  · next err' hget =>
    cases h
    exact hset.1 err hget
  · split at h
    · next err' hput =>
      cases h
      exact hset.2 err hput
    · cases h

theorem SetErrno.pollOne_ne_zero {answers : List PollAnswer} (hset : SetErrno answers)
    {revents : Revents} {err : Int} (h : pollOne e answers = some (.error, revents, err)) :
    err ≠ 0 := by
  obtain ⟨answer, hretry, heq⟩ := Option.map_eq_some_iff.1 h
  match answer with
  | .error code =>
    cases heq
    exact hset.ne_zero hretry
  | .ok none => cases heq
  | .ok (some _) => cases heq

/-- A wait that stores the code of a `poll` that fails, with `store`. -/
theorem SetErrno.stored_ne_zero {σ : Type} {answers : List PollAnswer} (hset : SetErrno answers)
    {s s' : σ} (store : Int → σ) (code : σ → Int) (hstore : ∀ err, code (store err) = err)
    (h : ((pollOne e answers).map fun (result, _, err) =>
      if result = .error then (result, store err) else (result, s)) = some (.error, s')) :
    code s' ≠ 0 := by
  obtain ⟨⟨result, revents, err⟩, hpoll, heq⟩ := Option.map_eq_some_iff.1 h
  simp only at heq
  split_ifs at heq with herror
  · cases heq
    rw [herror] at hpoll
    rw [hstore]
    exact hset.pollOne_ne_zero hpoll
  · cases heq
    exact absurd rfl herror

theorem pollOne_ready {answers : List PollAnswer} {revents : Revents} {err : Int}
    (h : pollOne e answers = some (.ready, revents, err)) :
    retryInterrupted e answers = some (.ok (some revents)) := by
  obtain ⟨answer, hretry, heq⟩ := Option.map_eq_some_iff.1 h
  match answer with
  | .error code => cases heq
  | .ok none => cases heq
  | .ok (some _) =>
    cases heq
    exact hretry

theorem SetErrno.select_ne_zero {answers : List SelectAnswer} (hset : SetErrno answers) {err : Int}
    (h : waitConnectResolved e answers = some (.error, err)) : err ≠ 0 := by
  obtain ⟨answer, hretry, heq⟩ := Option.map_eq_some_iff.1 h
  match answer with
  | .error code =>
    cases heq
    exact hset.ne_zero hretry
  | .ok false => cases heq
  | .ok true => cases heq

namespace TcpSocket

variable {s s' : TcpSocket}

theorem isOpen_natCast (s : TcpSocket) (fd : Nat) : ({ s with handle := fd }).isOpen = true :=
  bne_iff_ne.2 fun h => nomatch h

/-- The last code is one of the loop's answers, unless there are none. -/
theorem returns_connectLoop {raw : Nat} {last : Int} (addresses : List AddressAnswer)
    (hset : ∀ ai ∈ addresses, ai.SetErrno) (hlast : addresses = [] → last ≠ 0) :
    Returns (connectLoop e s raw last addresses) fun s' => s'.isOpen = false → s'.error ≠ 0 := by
  have hopened (fd : Nat) : Returns (do freeaddrinfo raw; pure { s with handle := fd })
      fun s' => s'.isOpen = false → s'.error ≠ 0 := by
    refine .bind fun _ => .pure fun hclosed => ?_
    rw [isOpen_natCast] at hclosed
    cases hclosed
  induction addresses generalizing last with
  | nil => exact .bind fun _ => .pure fun _ => hlast rfl
  | cons ai rest ih =>
    obtain ⟨⟨hsocket, hfcntl, hconnect⟩, hrest⟩ := List.forall_mem_cons.1 hset
    unfold connectLoop
    split
    · next err hfailed => exact ih hrest fun _ => hsocket err hfailed
    · next fd _ =>
      refine .bind fun _ => ?_
      split
      · next err hmode =>
        refine .bind fun _ => ih hrest fun _ => ?_
        split at hmode
        · exact hfcntl.ne_zero hmode
        · cases hmode
      · split
        · exact hopened fd
        · next err hfailed =>
          split_ifs
          · exact hopened fd
          · exact .bind fun _ => ih hrest fun _ => hconnect err hfailed

theorem waitConnected_error {answers : List SelectAnswer} {soError : Int}
    (hset : SetErrno answers) (hopen : s.isOpen = true)
    (hrun : s.waitConnected e answers soError = some (.error, s')) : s'.error ≠ 0 := by
  rw [waitConnected, hopen, Bool.not_true, if_neg Bool.false_ne_true] at hrun
  obtain ⟨⟨result, err⟩, hselect, heq⟩ := Option.map_eq_some_iff.1 hrun
  simp only at heq
  split_ifs at heq with hready herror hso
  · cases heq
    rw [herror] at hselect
    exact hset.select_ne_zero hselect
  · cases heq
    exact absurd rfl herror
  · cases heq
    exact hso
  · cases heq

theorem waitReadable_error {answers : List PollAnswer} (hset : SetErrno answers)
    (hopen : s.isOpen = true) (hrun : s.waitReadable e answers = some (.error, s')) :
    s'.error ≠ 0 := by
  rw [waitReadable, hopen, Bool.not_true, if_neg Bool.false_ne_true] at hrun
  exact hset.stored_ne_zero (fun err => { s with error := err }) error (fun _ => rfl) hrun

/-- `wait_writable` is silent where `SO_ERROR` is read for the code and has none. -/
theorem waitWritable_reported_iff {answers : List PollAnswer} {soError : Int}
    (hset : SetErrno answers) :
    (Call.waitWritable s answers soError).Reported e ↔
      ¬ (Call.waitWritable s answers soError).Silent e := by
  constructor
  · rintro hreported ⟨hopen, herror, rfl, revents, hretry, hbits⟩
    refine hreported hopen s ?_ herror
    rw [waitWritable, hopen, Bool.not_true, if_neg Bool.false_ne_true, pollOne, hretry]
    simp only [Option.map_some, ne_eq, not_true_eq_false, if_false, hbits, if_true]
  · intro hnot hopen s' hrun
    rw [waitWritable, hopen, Bool.not_true, if_neg Bool.false_ne_true] at hrun
    obtain ⟨⟨result, revents, err⟩, hpoll, heq⟩ := Option.map_eq_some_iff.1 hrun
    simp only at heq
    split_ifs at heq with hready herror hbits hso
    · cases heq
      rw [herror] at hpoll
      exact hset.pollOne_ne_zero hpoll
    · cases heq
      exact absurd rfl herror
    · cases heq
      exact hso
    · cases heq
      intro hzero
      refine hnot ⟨hopen, hzero, not_not.1 hso, revents, ?_, hbits⟩
      exact pollOne_ready (not_not.1 hready ▸ hpoll)
    · cases heq

/-- A transfer that stores the code of a call that fails; `done` is what it makes of a number of
bytes. -/
theorem transfer_error {answers : List TransferAnswer} (hset : SetErrno answers)
    {done : Nat → IoResult × TcpSocket} (hdone : ∀ n, (done n).1.status ≠ .error) {r : IoResult}
    (h : ((retryInterrupted e answers).map fun
      | .error err =>
        if e.isWouldBlock err then (⟨.wouldBlock, 0⟩, s)
        else (⟨.error, 0⟩, { s with error := err })
      | .ok n => done n) = some (r, s')) (herror : r.status = .error) : s'.error ≠ 0 := by
  obtain ⟨answer, hretry, heq⟩ := Option.map_eq_some_iff.1 h
  cases answer with
  | error err =>
    simp only at heq
    split_ifs at heq
    · cases heq
      cases herror
    · cases heq
      exact hset.ne_zero hretry
  | ok n =>
    have hresult : (done n).1 = r := congrArg Prod.fst heq
    rw [← hresult] at herror
    exact absurd herror (hdone n)

theorem send_error {answers : List TransferAnswer} (hset : SetErrno answers)
    (hopen : s.isOpen = true) {r : IoResult} (hrun : s.send e answers = some (r, s'))
    (herror : r.status = .error) : s'.error ≠ 0 := by
  rw [send, hopen, Bool.not_true, if_neg Bool.false_ne_true] at hrun
  exact transfer_error hset (fun n => by simp) hrun herror

theorem recv_error {answers : List TransferAnswer} (hset : SetErrno answers)
    (hopen : s.isOpen = true) {r : IoResult} (hrun : s.recv e answers = some (r, s'))
    (herror : r.status = .error) : s'.error ≠ 0 := by
  rw [recv, hopen, Bool.not_true, if_neg Bool.false_ne_true] at hrun
  refine transfer_error hset (fun n => ?_) hrun herror
  split_ifs <;> simp

end TcpSocket

namespace TcpServer

variable {s s' : TcpServer}

theorem waitReadable_error {answers : List PollAnswer} (hset : SetErrno answers)
    (hopen : s.isOpen = true) (hrun : s.waitReadable e answers = some (.error, s')) :
    s'.error ≠ 0 := by
  rw [waitReadable, hopen, Bool.not_true, if_neg Bool.false_ne_true] at hrun
  exact hset.stored_ne_zero (fun err => { s with error := err }) error (fun _ => rfl) hrun

theorem returns_listen (port : UInt16) (nonBlocking : Bool) {answer : ListenAnswer}
    (hset : answer.SetErrno) :
    Returns (listen port nonBlocking answer) fun s => s.isOpen = false → s.error ≠ 0 := by
  obtain ⟨hsocket, hfcntl, hbind, hlisten⟩ := hset
  have hopened {fd : Nat} {s : TcpServer} (hhandle : s.handle = fd) :
      s.isOpen = false → s.error ≠ 0 := by
    intro hclosed
    rw [isOpen, hhandle] at hclosed
    exact absurd (bne_eq_false_iff_eq.1 hclosed) nofun
  unfold listen
  split
  · next err hfailed => exact .pure fun _ => hsocket err hfailed
  · refine .bind fun _ => ?_
    split
    · next err hmode =>
      refine .bind fun _ => .pure fun _ => ?_
      split at hmode
      · exact hfcntl.ne_zero hmode
      · cases hmode
    · split
      · next err hfailed => exact .bind fun _ => .pure fun _ => hbind err hfailed
      · split
        · next err hfailed => exact .bind fun _ => .pure fun _ => hlisten err hfailed
        · split
          · exact .pure (hopened rfl)
          · exact .pure (hopened rfl)

theorem returns_acceptLoop {fcntl : FcntlAnswer} (hfcntl : fcntl.SetErrno)
    (answers : List DescriptorAnswer) (hset : SetErrno answers) (hstart : s.error = 0) :
    Returns (acceptLoop e s fcntl answers) fun r =>
      r.1 = none → (r.2.error = 0 ↔ NothingPending e answers) := by
  induction answers with
  | nil => exact .failure _
  | cons answer rest ih =>
    cases answer with
    | error err =>
      unfold acceptLoop
      split_ifs with hinterrupted hblock
      · have hsame : NothingPending e (.error err :: rest) ↔ NothingPending e rest := by
          rw [NothingPending, retryInterrupted, if_pos hinterrupted, NothingPending]
        rw [hsame]
        exact ih fun answer hmem => hset answer (List.mem_cons_of_mem _ hmem)
      · refine .pure fun _ => iff_of_false (hset _ List.mem_cons_self err rfl) ?_
        rintro ⟨err', hretry, hblock'⟩
        rw [retryInterrupted, if_neg hinterrupted] at hretry
        cases hretry
        rw [hblock'] at hblock
        cases hblock
      · refine .pure fun _ => iff_of_true hstart ⟨err, ?_, ?_⟩
        · rw [retryInterrupted, if_neg hinterrupted]
        · rwa [Bool.not_eq_true', Bool.not_eq_false] at hblock
    | ok fd =>
      unfold acceptLoop
      refine .bind fun _ => ?_
      split
      · next err hmode =>
        refine .bind fun _ => .pure fun _ => iff_of_false (hfcntl.ne_zero hmode) ?_
        rintro ⟨err', hretry, -⟩
        cases hretry
      · exact .pure nofun

end TcpServer

/-! ## Every reported failure -/

/-- **A reported failure has a code, but for the two silent ways out.** -/
theorem reported_iff (e : Errno) (c : Call) (hdocumented : c.Documented) :
    c.Reported e ↔ ¬ c.Silent e := by
  cases c with
  | connect nonBlocking answer =>
    cases answer with
    | failed err =>
      constructor
      · rintro hreported hsilent
        cases hsilent
        exact hreported [] _ [] rfl rfl rfl
      · intro hnot
        refine .pure fun _ hzero => hnot ?_
        cases hzero
        rfl
    | resolved raw addresses =>
      obtain ⟨hne, hset⟩ := hdocumented
      refine iff_of_true (.bind fun _ => ?_) nofun
      exact TcpSocket.returns_connectLoop addresses hset fun hnil => absurd hnil hne
  | waitConnected s answers soError =>
    exact iff_of_true (fun hopen s' => TcpSocket.waitConnected_error hdocumented hopen) id
  | waitReadable s answers =>
    exact iff_of_true (fun hopen s' => TcpSocket.waitReadable_error hdocumented hopen) id
  | waitWritable s answers soError => exact TcpSocket.waitWritable_reported_iff hdocumented
  | send s answers =>
    exact iff_of_true (fun hopen r s' => TcpSocket.send_error hdocumented hopen) id
  | recv s answers =>
    exact iff_of_true (fun hopen r s' => TcpSocket.recv_error hdocumented hopen) id
  | listen port nonBlocking answer =>
    exact iff_of_true (TcpServer.returns_listen port nonBlocking hdocumented) id
  | serverWaitReadable s answers =>
    exact iff_of_true (fun hopen s' => TcpServer.waitReadable_error hdocumented hopen) id
  | accept s fcntl answers =>
    obtain ⟨hfcntl, hset⟩ := hdocumented
    refine iff_of_true (fun hopen => ?_) id
    rw [TcpServer.accept, hopen, Bool.not_true, if_neg Bool.false_ne_true]
    exact TcpServer.returns_acceptLoop hfcntl answers hset rfl

/-- The codes of Linux. -/
def Errno.linux : Errno := ⟨115, 11, 11, 4⟩

/-- `poll` is interrupted and then signals an error that `SO_ERROR` explains. -/
theorem reported_iff_refused :
    (Call.waitWritable ⟨5, 0, true⟩ [.error 4, .ok (some ⟨true, false⟩)] 111).Reported .linux ↔
      ¬ (Call.waitWritable ⟨5, 0, true⟩ [.error 4, .ok (some ⟨true, false⟩)] 111).Silent .linux :=
  reported_iff .linux _ (by
    intro answer hmem err herr
    subst herr
    simp only [List.mem_cons, Except.error.injEq, reduceCtorEq, List.not_mem_nil, or_false] at hmem
    rw [hmem]
    decide)

/-- A name that does not resolve, with `errno` still zero: the closed socket has no code. A
descriptor that `poll` finds invalid, so that `SO_ERROR` cannot be read: the wait fails without
one. -/
theorem failures_without_code :
    (∃ s log, TcpSocket.connect .linux true (.failed 0) [] = some (s, log) ∧
      s.isOpen = false ∧ s.error = 0) ∧
    (∃ s, TcpSocket.waitWritable .linux ⟨5, 0, true⟩ [.ok (some ⟨false, true⟩)] 0 =
      some (.error, s) ∧ s.error = 0) ∧
    ¬ ∀ c : Call, c.Documented → c.Reported .linux := by
  refine ⟨⟨_, [], rfl, rfl, rfl⟩, ⟨_, rfl, rfl⟩, fun hclaim => ?_⟩
  exact hclaim (.connect true (.failed 0)) trivial [] _ [] rfl rfl rfl

end EglUtil.Tcp
