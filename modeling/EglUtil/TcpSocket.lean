import EglUtil.Lib.ResourceLog
import EglUtil.Lib.Runs

/-!
# `TcpSocket` and `TcpServer`: one owner for every descriptor

Both classes wrap a descriptor of the operating system and own it: `connect`, `listen` and
`accept` obtain one, moves hand it over, `close` and destruction give it back. The functions are
programs over a log of what the operating system hands out, descriptors and the address lists of
`getaddrinfo`. What a call of the system answers is an argument; the system promises only that it
does not hand out a descriptor, or a list, that it has not got back. `close` takes the descriptor
whatever it returns. This is the POSIX side of the source.

**Theorem (`reachable_ownsOnce`).** In every reachable state of any family of objects, the open
descriptors are the valid handles of the live objects, no two objects hold the same one, every
descriptor was closed as often as it was opened, but for the open ones, and never while it was not
open; and every address list was freed exactly once.

**Invariant** (`World.Owned`). What is out is what the objects hold. Each function is a `Triple`
of the resources its object holds before and after, so that every early exit is one line of its
proof.
-/

namespace EglUtil

open Transition Ownership ResourceLog

namespace Tcp

/-! ## The operating system -/

/-- What it hands out: a descriptor, or the list of addresses that `getaddrinfo` allocates. -/
inductive Resource where
  | descriptor (fd : Int)
  | addresses (raw : Nat)
deriving Repr, DecidableEq

/-- The values of `errno` that the source tells apart. -/
structure Errno where
  inProgress : Int
  wouldBlock : Int
  again : Int
  interrupted : Int

def Errno.isWouldBlock (e : Errno) (err : Int) : Bool := err == e.wouldBlock || err == e.again

def Errno.isInProgress (e : Errno) (err : Int) : Bool := err == e.inProgress

def Errno.isInterrupted (e : Errno) (err : Int) : Bool := err == e.interrupted

/-- A call that yields a descriptor, or fails with an `errno`. -/
abbrev DescriptorAnswer := Except Int Nat

/-- A call that succeeds, or fails with an `errno`. -/
abbrev StatusAnswer := Except Int Unit

/-- The two calls of `fcntl` in `set_nonblocking_native`. -/
structure FcntlAnswer where
  getFlags : StatusAnswer
  setFlags : StatusAnswer

/-- `set_nonblocking_native`: the error, if one of the calls fails. -/
def setNonblockingNative (answer : FcntlAnswer) : Option Int :=
  match answer.getFlags with
  | .error err => some err
  | .ok () =>
    match answer.setFlags with
    | .error err => some err
    | .ok () => none

def closeNative (handle : Int) : Program Resource Unit := release (.descriptor handle)

def freeaddrinfo (raw : Nat) : Program Resource Unit := release (.addresses raw)

/-- `invalid_handle`, and `k_invalid`. -/
def invalidHandle : Int := -1

/-! ## `TcpSocket` -/

structure TcpSocket where
  handle : Int
  error : Int
  nonBlocking : Bool
deriving Repr, DecidableEq

namespace TcpSocket

/-- `TcpSocket()` -/
def closed : TcpSocket := ⟨invalidHandle, 0, false⟩

def isOpen (s : TcpSocket) : Bool := s.handle != invalidHandle

def close (s : TcpSocket) : Program Resource (Bool × TcpSocket) :=
  if !s.isOpen then pure (true, s)
  else do
    closeNative s.handle
    pure (true, { s with handle := invalidHandle })

/-- `TcpSocket(TcpSocket &&other)`: the new object, and what is left of `other`. -/
def moveFrom (other : TcpSocket) : TcpSocket × TcpSocket :=
  (other, { other with handle := invalidHandle })

/-- `operator=(TcpSocket &&other)` for two objects. -/
def moveAssign (s other : TcpSocket) : Program Resource (TcpSocket × TcpSocket) := do
  let _ ← s.close
  pure other.moveFrom

/-- What the system answers for one of the resolved addresses. -/
structure AddressAnswer where
  socket : DescriptorAnswer
  fcntl : FcntlAnswer
  connect : StatusAnswer

/-- The loop of `connect` over the resolved addresses. -/
def connectLoop (e : Errno) (sock : TcpSocket) (raw : Nat) (last : Int) :
    List AddressAnswer → Program Resource TcpSocket
  | [] => do
    freeaddrinfo raw
    pure { sock with error := last }
  | ai :: rest =>
    match ai.socket with
    | .error err => connectLoop e sock raw err rest
    | .ok fd => do
      acquire (.descriptor fd)
      match if sock.nonBlocking then setNonblockingNative ai.fcntl else none with
      | some err =>
        closeNative fd
        connectLoop e sock raw err rest
      | none =>
        match ai.connect with
        | .ok () =>
          freeaddrinfo raw
          pure { sock with handle := fd }
        | .error err =>
          if e.isInProgress err then
            freeaddrinfo raw
            pure { sock with handle := fd }
          else
            closeNative fd
            connectLoop e sock raw err rest

/-- `getaddrinfo` fails with an `errno`, or allocates a list. -/
inductive ResolveAnswer where
  | failed (err : Int)
  | resolved (raw : Nat) (addresses : List AddressAnswer)

def connect (e : Errno) (nonBlocking : Bool) : ResolveAnswer → Program Resource TcpSocket
  | .failed err => pure { closed with nonBlocking := nonBlocking, error := err }
  | .resolved raw addresses => do
    acquire (.addresses raw)
    connectLoop e { closed with nonBlocking := nonBlocking } raw 0 addresses

def setNonBlocking (s : TcpSocket) (enabled : Bool) (answer : FcntlAnswer) : Bool × TcpSocket :=
  if !s.isOpen then (false, s)
  else
    match setNonblockingNative answer with
    | some err => (false, { s with error := err })
    | none => (true, { s with nonBlocking := enabled })

end TcpSocket

/-! ## `TcpServer` -/

structure TcpServer where
  handle : Int
  error : Int
  localPort : UInt16
  nonBlocking : Bool
deriving Repr, DecidableEq

namespace TcpServer

/-- `TcpServer()` -/
def closed : TcpServer := ⟨invalidHandle, 0, 0, false⟩

def isOpen (s : TcpServer) : Bool := s.handle != invalidHandle

def close (s : TcpServer) : Program Resource (Bool × TcpServer) :=
  if !s.isOpen then pure (true, s)
  else do
    closeNative s.handle
    pure (true, { s with handle := invalidHandle, localPort := 0 })

def moveFrom (other : TcpServer) : TcpServer × TcpServer :=
  (other, { other with handle := invalidHandle, localPort := 0 })

def moveAssign (s other : TcpServer) : Program Resource (TcpServer × TcpServer) := do
  let _ ← s.close
  pure other.moveFrom

/-- What the system answers to the calls of `listen`. -/
structure ListenAnswer where
  socket : DescriptorAnswer
  fcntl : FcntlAnswer
  bind : StatusAnswer
  listen : StatusAnswer
  /-- `getsockname`: the port it reads back, if it succeeds. -/
  boundPort : Option UInt16

def listen (port : UInt16) (nonBlocking : Bool) (answer : ListenAnswer) :
    Program Resource TcpServer :=
  let server := { closed with nonBlocking := nonBlocking }
  match answer.socket with
  | .error err => pure { server with error := err }
  | .ok fd => do
    acquire (.descriptor fd)
    match if nonBlocking then setNonblockingNative answer.fcntl else none with
    | some err =>
      closeNative fd
      pure { server with error := err }
    | none =>
      match answer.bind with
      | .error err =>
        closeNative fd
        pure { server with error := err }
      | .ok () =>
        match answer.listen with
        | .error err =>
          closeNative fd
          pure { server with error := err }
        | .ok () =>
          match answer.boundPort with
          | some bound => pure { server with localPort := bound, handle := fd }
          | none => pure { server with localPort := port, handle := fd }

/-- The loop of `accept`, one answer for each turn; without any more the call has not
returned. -/
def acceptLoop (e : Errno) (s : TcpServer) (fcntl : FcntlAnswer) :
    List DescriptorAnswer → Program Resource (Option TcpSocket × TcpServer)
  | [] => failure
  | .error err :: rest =>
    if e.isInterrupted err then acceptLoop e s fcntl rest
    else if !e.isWouldBlock err then pure (none, { s with error := err })
    else pure (none, s)
  | .ok fd :: _ => do
    acquire (.descriptor fd)
    match setNonblockingNative fcntl with
    | some err =>
      closeNative fd
      pure (none, { s with error := err })
    | none => pure (some ⟨fd, 0, s.nonBlocking⟩, s)

def accept (e : Errno) (s : TcpServer) (fcntl : FcntlAnswer) (answers : List DescriptorAnswer) :
    Program Resource (Option TcpSocket × TcpServer) :=
  if !s.isOpen then pure (none, s)
  else acceptLoop e { s with error := 0 } fcntl answers

end TcpServer

/-! ## What an object holds -/

/-- The resource behind a handle. -/
def heldBy (handle : Int) : Option Resource :=
  if handle != invalidHandle then some (.descriptor handle) else none

def TcpSocket.held (s : TcpSocket) : Option Resource := heldBy s.handle

def TcpServer.held (s : TcpServer) : Option Resource := heldBy s.handle

theorem heldBy_eq_some {handle : Int} {r : Resource} :
    heldBy handle = some r ↔ handle ≠ invalidHandle ∧ .descriptor handle = r := by
  rw [heldBy, ite_eq_iff, bne_iff_ne, Option.some.injEq]
  exact or_iff_left (fun h => nomatch h.2)

/-- What the system hands out is a valid handle. -/
theorem heldBy_natCast (fd : Nat) : heldBy fd = some (.descriptor fd) := by
  refine heldBy_eq_some.2 ⟨?_, rfl⟩
  rw [invalidHandle]
  omega

theorem heldBy_invalidHandle : heldBy invalidHandle = none := rfl

theorem triple_closeNative {handle : Int} (hopen : (handle != invalidHandle) = true) :
    Triple (token (heldBy handle)) (closeNative handle) fun _ => token none := by
  rw [heldBy, if_pos hopen, token_some, token_none]
  have hrelease := triple_release (Set.mem_singleton (Resource.descriptor handle))
  rw [Set.sdiff_self] at hrelease
  exact hrelease

theorem heldBy_of_closed {handle : Int} (hclosed : (!(handle != invalidHandle)) = true) :
    heldBy handle = none := by
  rw [Bool.not_eq_true'] at hclosed
  rw [heldBy, if_neg (Bool.eq_false_iff.1 hclosed)]

namespace TcpSocket

variable {e : Errno} {s : TcpSocket} {raw fd : Nat}

theorem triple_close (s : TcpSocket) : Triple (token s.held) s.close fun _ => token none := by
  unfold close
  split
  · next hclosed => exact .pure (by rw [held, heldBy_of_closed hclosed])
  · next hopen =>
    rw [Bool.not_eq_true', Bool.not_eq_false] at hopen
    exact .bind (triple_closeNative hopen) fun _ => .pure rfl

theorem held_close {log log' : Log Resource} {r : Bool × TcpSocket}
    (hrun : s.close log = some (r, log')) : r.2.held = none := by
  unfold close at hrun
  split at hrun
  · next hclosed =>
    cases hrun
    exact heldBy_of_closed hclosed
  · cases hrun
    rfl

theorem moveAssign_eq_some {other : TcpSocket} {log log' : Log Resource}
    {r : TcpSocket × TcpSocket} (hrun : s.moveAssign other log = some (r, log')) :
    r = other.moveFrom ∧ ∃ closed, s.close log = some (closed, log') := by
  obtain ⟨⟨closed, log₁⟩, hclose, hrest⟩ := Option.bind_eq_some_iff.1 hrun
  cases hrest
  exact ⟨rfl, closed, hclose⟩

/-- The loop frees the list on every way out, and holds the descriptor of the last attempt or
none. -/
theorem triple_connectLoop {last : Int} (addresses : List AddressAnswer)
    (hclosed : s.handle = invalidHandle) :
    Triple {.addresses raw} (connectLoop e s raw last addresses) fun s' => token s'.held := by
  have hfailed : s.held = none := by rw [held, hclosed, heldBy_invalidHandle]
  have hnot : ∀ fd, (Resource.descriptor fd) ∉ ({.addresses raw} : Set Resource) := nofun
  have hopened : ∀ fd : Nat, Triple (insert (.descriptor fd) {.addresses raw})
      (do freeaddrinfo raw; pure { s with handle := fd }) fun s' => token s'.held := by
    intro fd
    refine .bind (triple_release (Set.mem_insert_of_mem _ rfl)) fun _ => .pure ?_
    rw [held, heldBy_natCast, token_some, Set.insert_sdiff_of_notMem _ (hnot fd), Set.sdiff_self]
    exact insert_empty_eq _
  induction addresses generalizing last with
  | nil =>
    refine .bind (triple_release rfl) fun _ => .pure ?_
    change _ = token s.held
    rw [hfailed, token_none, Set.sdiff_self]
  | cons ai rest ih =>
    unfold connectLoop
    split
    · exact ih
    · next fd _ =>
      refine .bind (triple_acquire _) fun _ => ?_
      split
      · exact triple_wasted (hnot fd) ih
      · split
        · exact hopened fd
        · split_ifs
          · exact hopened fd
          · exact triple_wasted (hnot fd) ih

theorem triple_connect (nonBlocking : Bool) (answer : ResolveAnswer) :
    Triple ∅ (connect e nonBlocking answer) fun s' => token s'.held := by
  cases answer with
  | failed err => exact .pure token_none.symm
  | resolved raw addresses =>
    refine .bind (triple_acquire _) fun _ => ?_
    rw [insert_empty_eq]
    exact triple_connectLoop addresses rfl

theorem held_setNonBlocking (s : TcpSocket) (enabled : Bool) (answer : FcntlAnswer) :
    (s.setNonBlocking enabled answer).2.held = s.held := by
  unfold setNonBlocking
  split
  · rfl
  · split <;> rfl

end TcpSocket

namespace TcpServer

variable {e : Errno} {s : TcpServer} {fd : Nat}

theorem triple_close (s : TcpServer) : Triple (token s.held) s.close fun _ => token none := by
  unfold close
  split
  · next hclosed => exact .pure (by rw [held, heldBy_of_closed hclosed])
  · next hopen =>
    rw [Bool.not_eq_true', Bool.not_eq_false] at hopen
    exact .bind (triple_closeNative hopen) fun _ => .pure rfl

theorem held_close {log log' : Log Resource} {r : Bool × TcpServer}
    (hrun : s.close log = some (r, log')) : r.2.held = none := by
  unfold close at hrun
  split at hrun
  · next hclosed =>
    cases hrun
    exact heldBy_of_closed hclosed
  · cases hrun
    rfl

theorem moveAssign_eq_some {other : TcpServer} {log log' : Log Resource}
    {r : TcpServer × TcpServer} (hrun : s.moveAssign other log = some (r, log')) :
    r = other.moveFrom ∧ ∃ closed, s.close log = some (closed, log') := by
  obtain ⟨⟨closed, log₁⟩, hclose, hrest⟩ := Option.bind_eq_some_iff.1 hrun
  cases hrest
  exact ⟨rfl, closed, hclose⟩

theorem triple_listen (port : UInt16) (nonBlocking : Bool) (answer : ListenAnswer) :
    Triple ∅ (listen port nonBlocking answer) fun s' => token s'.held := by
  have hfailed : ∀ fd err, Triple (insert (.descriptor fd) (∅ : Set Resource))
      (do closeNative fd; pure { closed with nonBlocking := nonBlocking, error := err })
      fun s' => token s'.held := by
    intro fd err
    exact triple_wasted (Set.notMem_empty _) (.pure token_none.symm)
  unfold listen
  split
  · exact .pure token_none.symm
  · next fd _ =>
    refine .bind (triple_acquire _) fun _ => ?_
    split
    · exact hfailed fd _
    · split
      · exact hfailed fd _
      · split
        · exact hfailed fd _
        · split <;>
          · refine .pure ?_
            rw [held, heldBy_natCast, token_some, insert_empty_eq]

/-- What `accept` acquires is in the socket it returns. -/
theorem triple_acceptLoop (fcntl : FcntlAnswer) (answers : List DescriptorAnswer) :
    Triple ∅ (acceptLoop e s fcntl answers) fun r => token (r.1.bind TcpSocket.held) := by
  induction answers with
  | nil => exact .failure _
  | cons answer rest ih =>
    cases answer with
    | error err =>
      unfold acceptLoop
      split_ifs
      · exact ih
      · exact .pure token_none.symm
      · exact .pure token_none.symm
    | ok fd =>
      unfold acceptLoop
      refine .bind (triple_acquire _) fun _ => ?_
      split
      · exact triple_wasted (Set.notMem_empty _) (.pure token_none.symm)
      · refine .pure ?_
        rw [Option.bind_some, TcpSocket.held, heldBy_natCast, token_some, insert_empty_eq]

theorem triple_accept (fcntl : FcntlAnswer) (answers : List DescriptorAnswer) :
    Triple ∅ (s.accept e fcntl answers) fun r => token (r.1.bind TcpSocket.held) := by
  unfold accept
  split
  · exact .pure token_none.symm
  · exact triple_acceptLoop fcntl answers

/-- The server itself keeps its descriptor. -/
theorem handle_acceptLoop {fcntl : FcntlAnswer} {answers : List DescriptorAnswer}
    {log log' : Log Resource} {r : Option TcpSocket × TcpServer}
    (hrun : acceptLoop e s fcntl answers log = some (r, log')) : r.2.handle = s.handle := by
  induction answers with
  | nil => cases hrun
  | cons answer rest ih =>
    cases answer with
    | error err =>
      unfold acceptLoop at hrun
      split_ifs at hrun
      · exact ih hrun
      · cases hrun
        rfl
      · cases hrun
        rfl
    | ok fd =>
      unfold acceptLoop at hrun
      obtain ⟨⟨_, log₁⟩, -, hrest⟩ := Option.bind_eq_some_iff.1 hrun
      cases hset : setNonblockingNative fcntl with
      | none =>
        simp only [hset] at hrest
        cases hrest
        rfl
      | some err =>
        simp only [hset] at hrest
        cases hrest
        rfl

theorem held_accept {fcntl : FcntlAnswer} {answers : List DescriptorAnswer}
    {log log' : Log Resource} {r : Option TcpSocket × TcpServer}
    (hrun : s.accept e fcntl answers log = some (r, log')) : r.2.held = s.held := by
  unfold accept at hrun
  split at hrun
  · cases hrun
    rfl
  · rw [held, handle_acceptLoop hrun]
    rfl

end TcpServer

/-! ## Objects -/

/-- Named objects, some of them alive, and the log of the operating system. -/
structure World (ι κ : Type*) where
  log : Log Resource
  sockets : ι → Option TcpSocket
  servers : κ → Option TcpServer

def World.initial (ι κ : Type*) : World ι κ := ⟨[], fun _ => none, fun _ => none⟩

/-- A constructor or factory makes the object named first, which is not alive. -/
inductive Action (ι κ : Type*) where
  | socket (i : ι)
  | connect (i : ι) (nonBlocking : Bool) (answer : TcpSocket.ResolveAnswer)
  | setNonBlocking (i : ι) (enabled : Bool) (answer : FcntlAnswer)
  | closeSocket (i : ι)
  | moveSocket (i other : ι)
  | assignSocket (i other : ι)
  | destroySocket (i : ι)
  | server (k : κ)
  | listen (k : κ) (port : UInt16) (nonBlocking : Bool) (answer : TcpServer.ListenAnswer)
  /-- The socket that `accept` returns, if it returns one, is `i`. -/
  | accept (k : κ) (i : ι) (fcntl : FcntlAnswer) (answers : List DescriptorAnswer)
  | closeServer (k : κ)
  | moveServer (k other : κ)
  | assignServer (k other : κ)
  | destroyServer (k : κ)

section Steps

variable {ι κ : Type*} [DecidableEq ι] [DecidableEq κ] {e : Errno} {w w' : World ι κ}

def World.putSocket (w : World ι κ) (i : ι) (o : Option TcpSocket) (log : Log Resource) :
    World ι κ :=
  { w with log := log, sockets := Function.update w.sockets i o }

def World.putServer (w : World ι κ) (k : κ) (o : Option TcpServer) (log : Log Resource) :
    World ι κ :=
  { w with log := log, servers := Function.update w.servers k o }

def World.step (e : Errno) (w : World ι κ) : Action ι κ → Option (World ι κ)
  | .socket i =>
    match w.sockets i with
    | none => some (w.putSocket i (some .closed) w.log)
    | some _ => none
  | .connect i nonBlocking answer =>
    match w.sockets i with
    | none => (TcpSocket.connect e nonBlocking answer w.log).map fun r =>
        w.putSocket i (some r.1) r.2
    | some _ => none
  | .setNonBlocking i enabled answer =>
    (w.sockets i).map fun s => w.putSocket i (some (s.setNonBlocking enabled answer).2) w.log
  | .closeSocket i =>
    (w.sockets i).bind fun s => (s.close w.log).map fun r => w.putSocket i (some r.1.2) r.2
  | .moveSocket i other =>
    match w.sockets i, w.sockets other with
    | none, some s =>
      some ((w.putSocket other (some s.moveFrom.2) w.log).putSocket i (some s.moveFrom.1) w.log)
    | _, _ => none
  | .assignSocket i other =>
    match w.sockets i, w.sockets other with
    | some s, some t =>
      if i = other then some w
      else (s.moveAssign t w.log).map fun r =>
        (w.putSocket other (some r.1.2) r.2).putSocket i (some r.1.1) r.2
    | _, _ => none
  | .destroySocket i =>
    (w.sockets i).bind fun s => (s.close w.log).map fun r => w.putSocket i none r.2
  | .server k =>
    match w.servers k with
    | none => some (w.putServer k (some .closed) w.log)
    | some _ => none
  | .listen k port nonBlocking answer =>
    match w.servers k with
    | none => (TcpServer.listen port nonBlocking answer w.log).map fun r =>
        w.putServer k (some r.1) r.2
    | some _ => none
  | .accept k i fcntl answers =>
    match w.servers k, w.sockets i with
    | some s, none => (s.accept e fcntl answers w.log).map fun r =>
        (w.putServer k (some r.1.2) r.2).putSocket i r.1.1 r.2
    | _, _ => none
  | .closeServer k =>
    (w.servers k).bind fun s => (s.close w.log).map fun r => w.putServer k (some r.1.2) r.2
  | .moveServer k other =>
    match w.servers k, w.servers other with
    | none, some s =>
      some ((w.putServer other (some s.moveFrom.2) w.log).putServer k (some s.moveFrom.1) w.log)
    | _, _ => none
  | .assignServer k other =>
    match w.servers k, w.servers other with
    | some s, some t =>
      if k = other then some w
      else (s.moveAssign t w.log).map fun r =>
        (w.putServer other (some r.1.2) r.2).putServer k (some r.1.1) r.2
    | _, _ => none
  | .destroyServer k =>
    (w.servers k).bind fun s => (s.close w.log).map fun r => w.putServer k none r.2

/-! ## The account -/

/-- What each object holds. -/
def World.held (w : World ι κ) : ι ⊕ κ → Option Resource :=
  Sum.elim (fun i => (w.sockets i).bind TcpSocket.held) fun k => (w.servers k).bind TcpServer.held

def World.Owned (w : World ι κ) : Prop := Accounted w.log w.held

theorem held_putSocket (i : ι) (o : Option TcpSocket) (log : Log Resource) :
    (w.putSocket i o log).held = Function.update w.held (.inl i) (o.bind TcpSocket.held) := by
  funext x
  cases x with
  | inl j =>
    by_cases hj : j = i
    · subst hj
      simp [World.held, World.putSocket]
    · simp [World.held, World.putSocket, hj]
  | inr k => simp [World.held, World.putSocket]

theorem held_putServer (k : κ) (o : Option TcpServer) (log : Log Resource) :
    (w.putServer k o log).held = Function.update w.held (.inr k) (o.bind TcpServer.held) := by
  funext x
  cases x with
  | inl i => simp [World.held, World.putServer]
  | inr j =>
    by_cases hj : j = k
    · subst hj
      simp [World.held, World.putServer]
    · simp [World.held, World.putServer, hj]

omit [DecidableEq ι] [DecidableEq κ] in
theorem held_inl {i : ι} {o : Option TcpSocket} (h : w.sockets i = o) :
    w.held (.inl i) = o.bind TcpSocket.held := by
  rw [← h]
  rfl

omit [DecidableEq ι] [DecidableEq κ] in
theorem held_inr {k : κ} {o : Option TcpServer} (h : w.servers k = o) :
    w.held (.inr k) = o.bind TcpServer.held := by
  rw [← h]
  rfl

/-- An object that holds what the slot held takes the slot. -/
theorem World.Owned.putSocket (h : w.Owned) {i : ι} {o : Option TcpSocket}
    (ho : o.bind TcpSocket.held = w.held (.inl i)) : (w.putSocket i o w.log).Owned := by
  rw [World.Owned, held_putSocket, ho, Function.update_eq_self]
  exact h

theorem World.Owned.putServer (h : w.Owned) {k : κ} {o : Option TcpServer}
    (ho : o.bind TcpServer.held = w.held (.inr k)) : (w.putServer k o w.log).Owned := by
  rw [World.Owned, held_putServer, ho, Function.update_eq_self]
  exact h

/-- A program runs on behalf of the object that takes the slot. -/
theorem World.Owned.runSocket (h : w.Owned) {i : ι} {α : Type} {p : Program Resource α}
    (left : α → Option TcpSocket)
    (hp : Triple (token (w.held (.inl i))) p fun a => token ((left a).bind TcpSocket.held)) {a : α}
    {log : Log Resource} (hrun : p w.log = some (a, log)) :
    (w.putSocket i (left a) log).Owned := by
  rw [World.Owned, held_putSocket]
  exact h.run _ hp hrun

theorem World.Owned.runServer (h : w.Owned) {k : κ} {α : Type} {p : Program Resource α}
    (left : α → Option TcpServer)
    (hp : Triple (token (w.held (.inr k))) p fun a => token ((left a).bind TcpServer.held)) {a : α}
    {log : Log Resource} (hrun : p w.log = some (a, log)) :
    (w.putServer k (left a) log).Owned := by
  rw [World.Owned, held_putServer]
  exact h.run _ hp hrun

/-- A closed or destroyed socket leaves nothing in its slot. -/
theorem World.Owned.closeSocket (h : w.Owned) {i : ι} {s : TcpSocket}
    (hi : w.sockets i = some s) {r : Bool × TcpSocket} {log : Log Resource}
    (hrun : s.close w.log = some (r, log)) {o : Option TcpSocket}
    (ho : o.bind TcpSocket.held = none) : (w.putSocket i o log).Owned := by
  rw [World.Owned, held_putSocket, ho]
  refine h.run (fun _ => none) ?_ hrun
  rw [held_inl hi]
  exact s.triple_close

theorem World.Owned.closeServer (h : w.Owned) {k : κ} {s : TcpServer}
    (hk : w.servers k = some s) {r : Bool × TcpServer} {log : Log Resource}
    (hrun : s.close w.log = some (r, log)) {o : Option TcpServer}
    (ho : o.bind TcpServer.held = none) : (w.putServer k o log).Owned := by
  rw [World.Owned, held_putServer, ho]
  refine h.run (fun _ => none) ?_ hrun
  rw [held_inr hk]
  exact s.triple_close

theorem World.Owned.moveSocket (h : w.Owned) {i other : ι} {s : TcpSocket}
    (hi : w.sockets i = none) (hother : w.sockets other = some s) :
    ((w.putSocket other (some s.moveFrom.2) w.log).putSocket i
      (some s.moveFrom.1) w.log).Owned := by
  have hmove := h.move (i := .inl other) (j := .inl i) (held_inl hi)
  rw [held_inl hother] at hmove
  rw [World.Owned, held_putSocket, held_putSocket]
  exact hmove

theorem World.Owned.moveServer (h : w.Owned) {k other : κ} {s : TcpServer}
    (hk : w.servers k = none) (hother : w.servers other = some s) :
    ((w.putServer other (some s.moveFrom.2) w.log).putServer k
      (some s.moveFrom.1) w.log).Owned := by
  have hmove := h.move (i := .inr other) (j := .inr k) (held_inr hk)
  rw [held_inr hother] at hmove
  rw [World.Owned, held_putServer, held_putServer]
  exact hmove

theorem World.Owned.assignSocket (h : w.Owned) {i other : ι} {s t : TcpSocket}
    (hi : w.sockets i = some s) (hother : w.sockets other = some t) (hne : i ≠ other)
    {r : TcpSocket × TcpSocket} {log : Log Resource}
    (hrun : s.moveAssign t w.log = some (r, log)) :
    ((w.putSocket other (some r.2) log).putSocket i (some r.1) log).Owned := by
  obtain ⟨rfl, closed, hclose⟩ := TcpSocket.moveAssign_eq_some hrun
  have hgiven : w.held (.inl i) = s.held := held_inl hi
  have hreplace := h.replace (fun heq => hne (Sum.inl.inj heq)) (hgiven ▸ s.triple_close) hclose
  rw [held_inl hother] at hreplace
  rw [World.Owned, held_putSocket, held_putSocket]
  exact hreplace

theorem World.Owned.assignServer (h : w.Owned) {k other : κ} {s t : TcpServer}
    (hk : w.servers k = some s) (hother : w.servers other = some t) (hne : k ≠ other)
    {r : TcpServer × TcpServer} {log : Log Resource}
    (hrun : s.moveAssign t w.log = some (r, log)) :
    ((w.putServer other (some r.2) log).putServer k (some r.1) log).Owned := by
  obtain ⟨rfl, closed, hclose⟩ := TcpServer.moveAssign_eq_some hrun
  have hgiven : w.held (.inr k) = s.held := held_inr hk
  have hreplace := h.replace (fun heq => hne (Sum.inr.inj heq)) (hgiven ▸ s.triple_close) hclose
  rw [held_inr hother] at hreplace
  rw [World.Owned, held_putServer, held_putServer]
  exact hreplace

/-- The socket that is accepted takes the slot; the server keeps its own descriptor. -/
theorem World.Owned.accept (h : w.Owned) {k : κ} {i : ι} {s : TcpServer}
    (hk : w.servers k = some s) (hi : w.sockets i = none) {fcntl : FcntlAnswer}
    {answers : List DescriptorAnswer} {r : Option TcpSocket × TcpServer} {log : Log Resource}
    (hrun : s.accept e fcntl answers w.log = some (r, log)) :
    ((w.putServer k (some r.2) log).putSocket i r.1 log).Owned := by
  have hserver : (some r.2).bind TcpServer.held = w.held (.inr k) := by
    rw [held_inr hk]
    exact TcpServer.held_accept hrun
  rw [World.Owned, held_putSocket, held_putServer, hserver, Function.update_eq_self]
  refine h.run (fun r => r.1.bind TcpSocket.held) ?_ hrun
  rw [held_inl hi, Option.bind_none, token_none]
  exact TcpServer.triple_accept fcntl answers

/-- **One step.** -/
theorem owned_step {a : Action ι κ} (h : w.Owned) (hstep : w.step e a = some w') : w'.Owned := by
  cases a with
  | socket i =>
    simp only [World.step] at hstep
    split at hstep <;> cases hstep
    next hi => exact h.putSocket (by rw [held_inl hi]; rfl)
  | connect i nonBlocking answer =>
    simp only [World.step] at hstep
    split at hstep
    · next hi =>
      obtain ⟨⟨s, log⟩, hrun, rfl⟩ := Option.map_eq_some_iff.1 hstep
      refine h.runSocket some ?_ hrun
      rw [held_inl hi, Option.bind_none, token_none]
      exact TcpSocket.triple_connect nonBlocking answer
    · cases hstep
  | setNonBlocking i enabled answer =>
    obtain ⟨s, hi, rfl⟩ := Option.map_eq_some_iff.1 hstep
    exact h.putSocket (by
      rw [held_inl hi]
      exact TcpSocket.held_setNonBlocking s enabled answer)
  | closeSocket i =>
    obtain ⟨s, hi, hclose⟩ := Option.bind_eq_some_iff.1 hstep
    obtain ⟨⟨r, log⟩, hrun, rfl⟩ := Option.map_eq_some_iff.1 hclose
    exact h.closeSocket hi hrun (TcpSocket.held_close hrun)
  | destroySocket i =>
    obtain ⟨s, hi, hclose⟩ := Option.bind_eq_some_iff.1 hstep
    obtain ⟨⟨r, log⟩, hrun, rfl⟩ := Option.map_eq_some_iff.1 hclose
    exact h.closeSocket hi hrun rfl
  | moveSocket i other =>
    simp only [World.step] at hstep
    split at hstep <;> cases hstep
    next hi hother => exact h.moveSocket hi hother
  | assignSocket i other =>
    simp only [World.step] at hstep
    split at hstep
    · next hi hother =>
      split_ifs at hstep with hsame
      · cases hstep
        exact h
      · obtain ⟨⟨r, log⟩, hrun, rfl⟩ := Option.map_eq_some_iff.1 hstep
        exact h.assignSocket hi hother hsame hrun
    · cases hstep
  | server k =>
    simp only [World.step] at hstep
    split at hstep <;> cases hstep
    next hk => exact h.putServer (by rw [held_inr hk]; rfl)
  | listen k port nonBlocking answer =>
    simp only [World.step] at hstep
    split at hstep
    · next hk =>
      obtain ⟨⟨s, log⟩, hrun, rfl⟩ := Option.map_eq_some_iff.1 hstep
      refine h.runServer some ?_ hrun
      rw [held_inr hk, Option.bind_none, token_none]
      exact TcpServer.triple_listen port nonBlocking answer
    · cases hstep
  | accept k i fcntl answers =>
    simp only [World.step] at hstep
    split at hstep
    · next hk hi =>
      obtain ⟨⟨r, log⟩, hrun, rfl⟩ := Option.map_eq_some_iff.1 hstep
      exact h.accept hk hi hrun
    · cases hstep
  | closeServer k =>
    obtain ⟨s, hk, hclose⟩ := Option.bind_eq_some_iff.1 hstep
    obtain ⟨⟨r, log⟩, hrun, rfl⟩ := Option.map_eq_some_iff.1 hclose
    exact h.closeServer hk hrun (TcpServer.held_close hrun)
  | destroyServer k =>
    obtain ⟨s, hk, hclose⟩ := Option.bind_eq_some_iff.1 hstep
    obtain ⟨⟨r, log⟩, hrun, rfl⟩ := Option.map_eq_some_iff.1 hclose
    exact h.closeServer hk hrun rfl
  | moveServer k other =>
    simp only [World.step] at hstep
    split at hstep <;> cases hstep
    next hk hother => exact h.moveServer hk hother
  | assignServer k other =>
    simp only [World.step] at hstep
    split at hstep
    · next hk hother =>
      split_ifs at hstep with hsame
      · cases hstep
        exact h
      · obtain ⟨⟨r, log⟩, hrun, rfl⟩ := Option.map_eq_some_iff.1 hstep
        exact h.assignServer hk hother hsame hrun
    · cases hstep

omit [DecidableEq ι] [DecidableEq κ] in
theorem owned_initial : (World.initial ι κ).Owned := by
  have hheld : (World.initial ι κ).held = fun _ => none := by
    funext x
    cases x <;> rfl
  rw [World.Owned, hheld]
  exact accounted_nil

/-! ## Every run -/

/-- `fd` is the handle of a live object. -/
def World.IsHandle (w : World ι κ) (fd : Int) : Prop :=
  fd ≠ invalidHandle ∧
    ((∃ i s, w.sockets i = some s ∧ s.handle = fd) ∨ ∃ k s, w.servers k = some s ∧ s.handle = fd)

/-- Descriptors and address lists are owned once. -/
structure OwnsOnce (w : World ι κ) : Prop where
  /-- The open descriptors are the valid handles of the live objects. -/
  open_iff : ∀ fd, w.log.out (.descriptor fd) = true ↔ w.IsHandle fd
  /-- No two objects hold the same. -/
  exclusive : Exclusive w.held
  /-- Nothing was given back that was not out. -/
  clean : w.log.Clean
  /-- Every descriptor was closed as often as it was opened, but for the open ones. -/
  closed : ∀ fd, w.log.count (.acquired (.descriptor fd)) =
    w.log.count (.released (.descriptor fd)) + (w.log.out (.descriptor fd)).toNat
  /-- Every list was freed as often as it was allocated. -/
  freed : ∀ raw, w.log.count (.acquired (.addresses raw)) =
    w.log.count (.released (.addresses raw))

omit [DecidableEq ι] [DecidableEq κ] in
theorem held_descriptor_iff {fd : Int} : Held w.held (.descriptor fd) ↔ w.IsHandle fd := by
  constructor
  · intro h
    obtain ⟨x, hx⟩ := h
    cases x with
    | inl i =>
      obtain ⟨s, hi, hs⟩ := Option.bind_eq_some_iff.1 hx
      obtain ⟨hvalid, hfd⟩ := heldBy_eq_some.1 hs
      cases hfd
      exact ⟨hvalid, .inl ⟨i, s, hi, rfl⟩⟩
    | inr k =>
      obtain ⟨s, hk, hs⟩ := Option.bind_eq_some_iff.1 hx
      obtain ⟨hvalid, hfd⟩ := heldBy_eq_some.1 hs
      cases hfd
      exact ⟨hvalid, .inr ⟨k, s, hk, rfl⟩⟩
  · intro h
    obtain ⟨hvalid, ⟨i, s, hi, rfl⟩ | ⟨k, s, hk, rfl⟩⟩ := h
    · exact ⟨.inl i, by rw [held_inl hi]; exact heldBy_eq_some.2 ⟨hvalid, rfl⟩⟩
    · exact ⟨.inr k, by rw [held_inr hk]; exact heldBy_eq_some.2 ⟨hvalid, rfl⟩⟩

omit [DecidableEq ι] [DecidableEq κ] in
/-- No object holds an address list, so none is left behind. -/
theorem World.Owned.addresses_in (h : w.Owned) (raw : Nat) :
    w.log.out (.addresses raw) = false := by
  rw [← Bool.not_eq_true, h.out_iff]
  intro hheld
  obtain ⟨x, hx⟩ := hheld
  cases x with
  | inl i =>
    obtain ⟨s, -, hs⟩ := Option.bind_eq_some_iff.1 hx
    cases (heldBy_eq_some.1 hs).2
  | inr k =>
    obtain ⟨s, -, hs⟩ := Option.bind_eq_some_iff.1 hx
    cases (heldBy_eq_some.1 hs).2

omit [DecidableEq ι] [DecidableEq κ] in
theorem World.Owned.ownsOnce (h : w.Owned) : OwnsOnce w where
  open_iff := by
    intro fd
    rw [h.out_iff, held_descriptor_iff]
  exclusive := h.exclusive
  clean := h.clean
  closed := fun fd => h.clean.balanced (.descriptor fd)
  freed := by
    intro raw
    have hbalanced := h.clean.balanced (.addresses raw)
    rw [h.addresses_in raw] at hbalanced
    exact hbalanced

/-- **Every descriptor has one owner and is closed once**, and every address list is freed. -/
theorem reachable_ownsOnce (h : Reachable (World.step e) (World.initial ι κ) w) : OwnsOnce w := by
  have howned : w.Owned := Reachable.invariant (World.step e) h owned_initial
    fun _ _ _ hw hstep => owned_step hw hstep
  exact howned.ownsOnce

end Steps

def linuxErrno : Errno := ⟨115, 11, 11, 4⟩

/-- For the first address no descriptor is to be had, for the second `fcntl` fails, and for the
third the connection is in progress. `accept` is interrupted once; the socket that it returns is
assigned over the connected one. -/
def exampleRun : List (Action Bool Unit) :=
  [.listen () 80 true ⟨.ok 3, ⟨.ok (), .ok ()⟩, .ok (), .ok (), some 80⟩,
    .connect true true (.resolved 7
      [⟨.error 24, ⟨.ok (), .ok ()⟩, .ok ()⟩, ⟨.ok 4, ⟨.ok (), .error 9⟩, .ok ()⟩,
        ⟨.ok 4, ⟨.ok (), .ok ()⟩, .error 115⟩]),
    .accept () false ⟨.ok (), .ok ()⟩ [.error 4, .ok 5],
    .assignSocket true false, .closeServer (), .assignSocket true true]

theorem reachable_ownsOnce_exampleRun :
    ∃ w, run (World.step linuxErrno) (World.initial Bool Unit) exampleRun = some w ∧
      w.sockets true = some ⟨5, 0, true⟩ ∧ w.sockets false = some ⟨-1, 0, true⟩ ∧
      w.servers () = some ⟨-1, 0, 0, true⟩ ∧ w.log =
        [.released (.descriptor 3), .released (.descriptor 4), .acquired (.descriptor 5),
          .released (.addresses 7), .acquired (.descriptor 4), .released (.descriptor 4),
          .acquired (.descriptor 4), .acquired (.addresses 7), .acquired (.descriptor 3)] ∧
      OwnsOnce w := by
  have hrun : ∃ w, run (World.step linuxErrno) (World.initial Bool Unit) exampleRun = some w ∧
      w.sockets true = some ⟨5, 0, true⟩ ∧ w.sockets false = some ⟨-1, 0, true⟩ ∧
      w.servers () = some ⟨-1, 0, 0, true⟩ ∧ w.log =
        [.released (.descriptor 3), .released (.descriptor 4), .acquired (.descriptor 5),
          .released (.addresses 7), .acquired (.descriptor 4), .released (.descriptor 4),
          .acquired (.descriptor 4), .acquired (.addresses 7), .acquired (.descriptor 3)] :=
    ⟨_, rfl, rfl, rfl, rfl, rfl⟩
  obtain ⟨w, hw, htrue, hfalse, hserver, hlog⟩ := hrun
  exact ⟨w, hw, htrue, hfalse, hserver, hlog, reachable_ownsOnce ⟨exampleRun, hw⟩⟩

end Tcp

end EglUtil
