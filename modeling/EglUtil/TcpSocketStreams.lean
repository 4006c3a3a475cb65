import EglUtil.Lib.Sessions
import EglUtil.TcpSocketErrors

/-!
# `TcpSocket::send` and `recv`: the bytes of a connection

Sockets are opened, accepted, moved and closed, and the system gives the number of a closed
descriptor to the next connection. So an end of a connection (`Endpoint`) is a descriptor together
with how often it had been handed out. Each end has a queue of the bytes that were accepted from it
and that the other end has not taken yet. The system may drop the queue when it resets the
connection.

**Theorem (`reachable_streams`).** In every reachable state of any family of sockets and servers,
every open socket talks over the connection that it, or the socket it was moved from, was made for,
and no other socket does. What `recv` has stored at one end is a prefix of what `send` has reported
as sent at the other, all of it but for the queue if the connection was not reset. Once `recv` has
reported the end of the stream for a span that is not empty, the other end is shut down or closed
and nothing more arrives: all that was sent has been received.

**Invariant** (`Inv`). The ghost `line` of an object is the session of its handle. Ownership keeps
it so: no other object acquires the descriptor in the meantime.
-/

namespace EglUtil.Tcp

open Transition Ownership ResourceLog

variable {ι κ : Type*} {e : Errno}

/-! ## What the calls leave alone -/

theorem spares_closeNative {given : Set Resource} {handle : Int} :
    Spares given (closeNative handle) := spares_release

namespace TcpSocket

variable {s : TcpSocket} {raw : Nat}

theorem spares_close (s : TcpSocket) : Spares (token s.held) s.close := by
  unfold close
  split
  · exact .pure _
  · next hopen =>
    rw [Bool.not_eq_true', Bool.not_eq_false] at hopen
    exact .bind (triple_closeNative hopen) spares_closeNative fun _ => .pure _

theorem spares_connectLoop {last : Int} (addresses : List AddressAnswer) :
    Spares {.addresses raw} (connectLoop e s raw last addresses) := by
  have hnot : ∀ fd, (Resource.descriptor fd) ∉ ({.addresses raw} : Set Resource) := nofun
  have hopened : ∀ fd : Nat, Spares (insert (.descriptor fd) {.addresses raw})
      (do freeaddrinfo raw; pure { s with handle := fd }) := fun fd =>
    .bind (triple_release (Set.mem_insert_of_mem _ rfl)) spares_release fun _ => .pure _
  induction addresses generalizing last with
  | nil => exact .bind (triple_release rfl) spares_release fun _ => .pure _
  | cons ai rest ih =>
    unfold connectLoop
    split
    · exact ih
    · next fd _ =>
      refine .bind (triple_acquire _) spares_acquire fun _ => ?_
      split
      · exact spares_wasted (hnot fd) ih
      · split
        · exact hopened fd
        · split_ifs
          · exact hopened fd
          · exact spares_wasted (hnot fd) ih

theorem spares_connect (nonBlocking : Bool) (answer : ResolveAnswer) :
    Spares ∅ (connect e nonBlocking answer) := by
  cases answer with
  | failed err => exact .pure _
  | resolved raw addresses =>
    refine .bind (triple_acquire _) spares_acquire fun _ => ?_
    rw [insert_empty_eq]
    exact spares_connectLoop addresses

end TcpSocket

namespace TcpServer

variable {s : TcpServer}

theorem spares_close (s : TcpServer) : Spares (token s.held) s.close := by
  unfold close
  split
  · exact .pure _
  · next hopen =>
    rw [Bool.not_eq_true', Bool.not_eq_false] at hopen
    exact .bind (triple_closeNative hopen) spares_closeNative fun _ => .pure _

theorem spares_listen (port : UInt16) (nonBlocking : Bool) (answer : ListenAnswer) :
    Spares ∅ (listen port nonBlocking answer) := by
  have hfailed : ∀ fd err, Spares (insert (.descriptor fd) (∅ : Set Resource))
      (do closeNative fd; pure { closed with nonBlocking := nonBlocking, error := err }) :=
    fun fd err => spares_wasted (Set.notMem_empty _) (.pure _)
  unfold listen
  split
  · exact .pure _
  · next fd _ =>
    refine .bind (triple_acquire _) spares_acquire fun _ => ?_
    split
    · exact hfailed fd _
    · split
      · exact hfailed fd _
      · split
        · exact hfailed fd _
        · split
          · exact .pure _
          · exact .pure _

theorem spares_acceptLoop (fcntl : FcntlAnswer) (answers : List DescriptorAnswer) :
    Spares ∅ (acceptLoop e s fcntl answers) := by
  induction answers with
  | nil => exact .failure
  | cons answer rest ih =>
    cases answer with
    | error err =>
      unfold acceptLoop
      split_ifs
      · exact ih
      · exact .pure _
      · exact .pure _
    | ok fd =>
      unfold acceptLoop
      refine .bind (triple_acquire _) spares_acquire fun _ => ?_
      split
      · exact spares_wasted (Set.notMem_empty _) (.pure _)
      · exact .pure _

theorem spares_accept (fcntl : FcntlAnswer) (answers : List DescriptorAnswer) :
    Spares ∅ (s.accept e fcntl answers) := by
  unfold accept
  split
  · exact .pure _
  · exact spares_acceptLoop fcntl answers

end TcpServer

/-! ## The connection of an object -/

/-- One end of a connection: a descriptor, and how often it had been handed out. -/
abbrev Endpoint := Resource × Nat

/-- The end that each object has hold of. -/
def World.sessions (w : World ι κ) : ι ⊕ κ → Option Endpoint := ResourceLog.sessions w.log w.held

variable [DecidableEq ι] [DecidableEq κ] {w w' : World ι κ}

/-- The end that each socket was made for, by itself or by the socket it was moved from. -/
def World.nextLine (w' : World ι κ) (line : ι → Option Endpoint) :
    Action ι κ → ι → Option Endpoint
  | .socket i | .closeSocket i | .destroySocket i => Function.update line i none
  | .connect i _ _ | .accept _ i _ _ => Function.update line i (w'.sessions (.inl i))
  | .moveSocket i other => Function.update (Function.update line other none) i (line other)
  | .assignSocket i other =>
    if i = other then line else Function.update (Function.update line other none) i (line other)
  | .setNonBlocking _ _ _ | .server _ | .listen _ _ _ _ | .closeServer _ | .moveServer _ _
  | .assignServer _ _ | .destroyServer _ => line

/-- A program that runs on behalf of one object leaves the others their connections. -/
theorem World.Owned.sessions_run (h : w.Owned) (w' : World ι κ) {x : ι ⊕ κ} {α : Type}
    {p : Program Resource α} (hp : Spares (token (w.held x)) p) {a : α} {o : Option Resource}
    (hrun : p w.log = some (a, w'.log)) (hheld : w'.held = Function.update w.held x o) :
    w.log <:+ w'.log ∧ w'.sessions = Function.update w.sessions x (o.map w'.log.current) := by
  have hgiven : ∀ k ∈ token (w.held x), w.log.out k = true := fun k hk => (h.out_iff k).2 ⟨x, hk⟩
  refine ⟨(hp _ _ _ hgiven hrun).1, ?_⟩
  rw [World.sessions, hheld]
  exact Accounted.sessions_run h hp hrun

theorem sessions_of_move {x y : ι ⊕ κ} (hlog : w'.log = w.log)
    (hheld : w'.held = Function.update (Function.update w.held x none) y (w.held x)) :
    w'.sessions = Function.update (Function.update w.sessions x none) y (w.sessions x) := by
  rw [World.sessions, hheld, hlog]
  exact sessions_move

/-- The object `x` gives up what it holds and takes over what `y` holds. -/
theorem World.Owned.sessions_replace (h : w.Owned) (w' : World ι κ) {x y : ι ⊕ κ} (hne : x ≠ y)
    {α : Type} {p : Program Resource α} (hp : Spares (token (w.held x)) p) {a : α}
    (hrun : p w.log = some (a, w'.log))
    (hheld : w'.held = Function.update (Function.update w.held y none) x (w.held y)) :
    w.log <:+ w'.log ∧
      w'.sessions = Function.update (Function.update w.sessions y none) x (w.sessions y) := by
  have hgiven : ∀ k ∈ token (w.held x), w.log.out k = true := fun k hk => (h.out_iff k).2 ⟨x, hk⟩
  refine ⟨(hp _ _ _ hgiven hrun).1, ?_⟩
  rw [World.sessions, hheld]
  exact Accounted.sessions_replace h hne hp hrun

/-- An object that holds what the slot held takes the slot. -/
theorem sessions_putSocket {i : ι} {o : Option TcpSocket}
    (ho : o.bind TcpSocket.held = w.held (.inl i)) :
    (w.putSocket i o w.log).sessions = w.sessions := by
  rw [World.sessions, held_putSocket, ho, Function.update_eq_self]
  rfl

theorem sessions_putServer {k : κ} {o : Option TcpServer}
    (ho : o.bind TcpServer.held = w.held (.inr k)) :
    (w.putServer k o w.log).sessions = w.sessions := by
  rw [World.sessions, held_putServer, ho, Function.update_eq_self]
  rfl

/-- The end that each socket has hold of. -/
def World.lines (w : World ι κ) : ι → Option Endpoint := w.sessions ∘ Sum.inl

theorem lines_inl {i : ι} {d : Option Endpoint}
    (h : w'.sessions = Function.update w.sessions (.inl i) d) :
    w'.lines = Function.update w.lines i d := by
  rw [World.lines, h, Sum.update_inl_comp_inl]
  rfl

theorem lines_inr {k : κ} {d : Option Endpoint}
    (h : w'.sessions = Function.update w.sessions (.inr k) d) : w'.lines = w.lines := by
  rw [World.lines, h, Sum.update_inr_comp_inl]
  rfl

/-- The end moves with the handle. -/
theorem lines_move {i other : ι}
    (hsessions : w'.sessions = Function.update (Function.update w.sessions (.inl other) none)
      (.inl i) (w.sessions (.inl other))) :
    w'.lines = Function.update (Function.update w.lines other none) i (w.lines other) := by
  rw [World.lines, hsessions, Sum.update_inl_comp_inl, Sum.update_inl_comp_inl]
  rfl

theorem lines_moveServer {k other : κ}
    (hsessions : w'.sessions = Function.update (Function.update w.sessions (.inr other) none)
      (.inr k) (w.sessions (.inr other))) : w'.lines = w.lines := by
  rw [World.lines, hsessions, Sum.update_inr_comp_inl, Sum.update_inr_comp_inl]
  rfl

theorem World.Owned.lines_closeSocket (h : w.Owned) {i : ι} {s : TcpSocket}
    (hi : w.sockets i = some s) {r : Bool × TcpSocket} {log : Log Resource}
    (hrun : s.close w.log = some (r, log)) {o : Option TcpSocket}
    (ho : o.bind TcpSocket.held = none) :
    w.log <:+ log ∧ (w.putSocket i o log).lines = Function.update w.lines i none := by
  have hgiven : w.held (.inl i) = s.held := held_inl hi
  obtain ⟨hgrows, hsessions⟩ := h.sessions_run (w.putSocket i o log) (x := .inl i)
    (by rw [hgiven]; exact s.spares_close) hrun (by rw [held_putSocket, ho])
  exact ⟨hgrows, lines_inl hsessions⟩

theorem World.Owned.lines_closeServer (h : w.Owned) {k : κ} {s : TcpServer}
    (hk : w.servers k = some s) {r : Bool × TcpServer} {log : Log Resource}
    (hrun : s.close w.log = some (r, log)) (o : Option TcpServer) :
    w.log <:+ log ∧ (w.putServer k o log).lines = w.lines := by
  have hgiven : w.held (.inr k) = s.held := held_inr hk
  obtain ⟨hgrows, hsessions⟩ := h.sessions_run (w.putServer k o log) (x := .inr k)
    (by rw [hgiven]; exact s.spares_close) hrun (held_putServer k o log)
  exact ⟨hgrows, lines_inr hsessions⟩

/-- **What one step does to the connections.** -/
theorem lines_step {a : Action ι κ} (h : w.Owned) (hstep : w.step e a = some w') :
    w.log <:+ w'.log ∧ w'.lines = w'.nextLine w.lines a := by
  have hself := List.suffix_refl w.log
  cases a with
  | socket i =>
    simp only [World.step] at hstep
    split at hstep <;> cases hstep
    next hi =>
      have hnone : w.lines i = none := by
        show (w.held (.inl i)).map _ = none
        rw [held_inl hi]
        rfl
      refine ⟨hself, ?_⟩
      rw [World.nextLine, ← hnone, Function.update_eq_self, World.lines, World.lines,
        sessions_putSocket (by rw [held_inl hi]; rfl)]
  | connect i nonBlocking answer =>
    simp only [World.step] at hstep
    split at hstep
    · next hi =>
      obtain ⟨⟨s, log⟩, hrun, rfl⟩ := Option.map_eq_some_iff.1 hstep
      have hgiven : w.held (.inl i) = none := held_inl hi
      obtain ⟨hgrows, hsessions⟩ := h.sessions_run (w.putSocket i (some s) log) (x := .inl i)
        (by rw [hgiven, token_none]; exact TcpSocket.spares_connect nonBlocking answer) hrun
        (held_putSocket i (some s) log)
      refine ⟨hgrows, ?_⟩
      rw [lines_inl hsessions, World.nextLine, hsessions, Function.update_self]
    · cases hstep
  | setNonBlocking i enabled answer =>
    obtain ⟨s, hi, rfl⟩ := Option.map_eq_some_iff.1 hstep
    refine ⟨hself, ?_⟩
    rw [World.nextLine, World.lines, World.lines, sessions_putSocket (by
      rw [held_inl hi]
      exact TcpSocket.held_setNonBlocking s enabled answer)]
  | closeSocket i =>
    obtain ⟨s, hi, hclose⟩ := Option.bind_eq_some_iff.1 hstep
    obtain ⟨⟨r, log⟩, hrun, rfl⟩ := Option.map_eq_some_iff.1 hclose
    exact h.lines_closeSocket hi hrun (TcpSocket.held_close hrun)
  | destroySocket i =>
    obtain ⟨s, hi, hclose⟩ := Option.bind_eq_some_iff.1 hstep
    obtain ⟨⟨r, log⟩, hrun, rfl⟩ := Option.map_eq_some_iff.1 hclose
    exact h.lines_closeSocket hi hrun rfl
  | moveSocket i other =>
    simp only [World.step] at hstep
    split at hstep <;> cases hstep
    next hi hother =>
      refine ⟨hself, lines_move (sessions_of_move rfl ?_)⟩
      rw [held_putSocket, held_putSocket, held_inl hother]
      rfl
  | assignSocket i other =>
    simp only [World.step] at hstep
    split at hstep
    · next s t hi hother =>
      split_ifs at hstep with hsame
      · cases hstep
        rw [World.nextLine, if_pos hsame]
        exact ⟨hself, rfl⟩
      · obtain ⟨⟨r, log⟩, hrun, rfl⟩ := Option.map_eq_some_iff.1 hstep
        obtain ⟨rfl, closed, hclose⟩ := TcpSocket.moveAssign_eq_some hrun
        have hgiven : w.held (.inl i) = s.held := held_inl hi
        obtain ⟨hgrows, hsessions⟩ := h.sessions_replace
          ((w.putSocket other (some t.moveFrom.2) log).putSocket i (some t.moveFrom.1) log)
          (x := .inl i) (y := .inl other)
          (fun heq => hsame (Sum.inl.inj heq)) (by rw [hgiven]; exact s.spares_close) hclose
          (by rw [held_putSocket, held_putSocket, held_inl hother]; rfl)
        rw [World.nextLine, if_neg hsame]
        exact ⟨hgrows, lines_move hsessions⟩
    · cases hstep
  | server k =>
    simp only [World.step] at hstep
    split at hstep <;> cases hstep
    next hk =>
      refine ⟨hself, ?_⟩
      rw [World.nextLine, World.lines, World.lines, sessions_putServer (by rw [held_inr hk]; rfl)]
  | listen k port nonBlocking answer =>
    simp only [World.step] at hstep
    split at hstep
    · next hk =>
      obtain ⟨⟨s, log⟩, hrun, rfl⟩ := Option.map_eq_some_iff.1 hstep
      have hgiven : w.held (.inr k) = none := held_inr hk
      obtain ⟨hgrows, hsessions⟩ := h.sessions_run (w.putServer k (some s) log) (x := .inr k)
        (by rw [hgiven, token_none]; exact TcpServer.spares_listen port nonBlocking answer) hrun
        (held_putServer k (some s) log)
      exact ⟨hgrows, lines_inr hsessions⟩
    · cases hstep
  | accept k i fcntl answers =>
    simp only [World.step] at hstep
    split at hstep
    · next s hk hi =>
      obtain ⟨⟨r, log⟩, hrun, rfl⟩ := Option.map_eq_some_iff.1 hstep
      have hgiven : w.held (.inl i) = none := held_inl hi
      have hserver : (some r.2).bind TcpServer.held = w.held (.inr k) := by
        rw [held_inr hk]
        exact TcpServer.held_accept hrun
      obtain ⟨hgrows, hsessions⟩ := h.sessions_run
        ((w.putServer k (some r.2) log).putSocket i r.1 log) (x := .inl i)
        (by rw [hgiven, token_none]; exact TcpServer.spares_accept fcntl answers) hrun
        (by rw [held_putSocket, held_putServer, hserver, Function.update_eq_self])
      refine ⟨hgrows, ?_⟩
      rw [lines_inl hsessions, World.nextLine, hsessions, Function.update_self]
    · cases hstep
  | closeServer k =>
    obtain ⟨s, hk, hclose⟩ := Option.bind_eq_some_iff.1 hstep
    obtain ⟨⟨r, log⟩, hrun, rfl⟩ := Option.map_eq_some_iff.1 hclose
    exact h.lines_closeServer hk hrun _
  | destroyServer k =>
    obtain ⟨s, hk, hclose⟩ := Option.bind_eq_some_iff.1 hstep
    obtain ⟨⟨r, log⟩, hrun, rfl⟩ := Option.map_eq_some_iff.1 hclose
    exact h.lines_closeServer hk hrun _
  | moveServer k other =>
    simp only [World.step] at hstep
    split at hstep <;> cases hstep
    next hk hother =>
      refine ⟨hself, lines_moveServer (sessions_of_move (x := .inr other) (y := .inr k) rfl ?_)⟩
      rw [held_putServer, held_putServer, held_inr hother]
      rfl
  | assignServer k other =>
    simp only [World.step] at hstep
    split at hstep
    · next s t hk hother =>
      split_ifs at hstep with hsame
      · cases hstep
        exact ⟨hself, rfl⟩
      · obtain ⟨⟨r, log⟩, hrun, rfl⟩ := Option.map_eq_some_iff.1 hstep
        obtain ⟨rfl, closed, hclose⟩ := TcpServer.moveAssign_eq_some hrun
        have hgiven : w.held (.inr k) = s.held := held_inr hk
        obtain ⟨hgrows, hsessions⟩ := h.sessions_replace
          ((w.putServer other (some t.moveFrom.2) log).putServer k (some t.moveFrom.1) log)
          (x := .inr k) (y := .inr other)
          (fun heq => hsame (Sum.inr.inj heq)) (by rw [hgiven]; exact s.spares_close) hclose
          (by rw [held_putServer, held_putServer, held_inr hother]; rfl)
        exact ⟨hgrows, lines_moveServer hsessions⟩
    · cases hstep

/-! ## The network -/

/-- `shutdown_write` -/
def TcpSocket.shutdownWrite (s : TcpSocket) (answer : StatusAnswer) : Bool × TcpSocket :=
  if !s.isOpen then (false, s)
  else
    match answer with
    | .error err => (false, { s with error := err })
    | .ok () => (true, s)

/-- Which ends the system connects. -/
structure Wiring where
  peer : Endpoint → Option Endpoint
  symmetric : ∀ d d', peer d = some d' → peer d' = some d

/-- The objects, the queues of the system, and what the callers of the objects have seen. -/
structure Network (ι κ : Type*) where
  world : World ι κ
  /-- Accepted from this end, and not taken by the other yet. -/
  queue : Endpoint → List UInt8
  shut : Endpoint → Bool
  /-- The connection was reset, and the queue of this end dropped. -/
  lost : Endpoint → Bool
  /-- The end that each object was made for. -/
  line : ι → Option Endpoint
  /-- What `send` has reported as sent, and what `recv` has stored. -/
  sent : Endpoint → List UInt8
  received : Endpoint → List UInt8
  /-- `recv` has reported the end of the stream, for a span that is not empty. -/
  sawEnd : Endpoint → Bool

inductive NetworkAction (ι κ : Type*) where
  | manage (a : Action ι κ)
  | waitConnected (i : ι) (answers : List SelectAnswer) (soError : Int)
  | waitReadable (i : ι) (answers : List PollAnswer)
  | waitWritable (i : ι) (answers : List PollAnswer) (soError : Int)
  | send (i : ι) (src : List UInt8) (answers : List TransferAnswer)
  /-- `dst` is what the span holds before the call. -/
  | recv (i : ι) (dst : List UInt8) (answers : List TransferAnswer)
  | shutdownWrite (i : ι) (answer : StatusAnswer)
  /-- The system resets a connection and drops the queue of `d`. -/
  | reset (d : Endpoint)

namespace Network

def initial (ι κ : Type*) : Network ι κ :=
  ⟨.initial ι κ, fun _ => [], fun _ => false, fun _ => false, fun _ => none, fun _ => [],
    fun _ => [], fun _ => false⟩

/-- Nothing more is accepted from `d`. -/
def Ended (n : Network ι κ) (d : Endpoint) : Prop :=
  n.shut d = true ∨ n.lost d = true ∨ n.world.log.Over d

instance (n : Network ι κ) (d : Endpoint) : Decidable (n.Ended d) := by
  unfold Ended
  infer_instance

/-- How many bytes the system has transferred in a call of `send` or `recv`. -/
def transferred (e : Errno) (s : TcpSocket) (answers : List TransferAnswer) : Option Nat :=
  if s.isOpen then
    match retryInterrupted e answers with
    | some (.ok count) => some count
    | _ => none
  else none

/-- The end behind a handle, for the system. -/
def endOf (n : Network ι κ) (s : TcpSocket) : Endpoint :=
  n.world.log.current (.descriptor s.handle)

/-- The system accepts the first bytes of `src`, one at least if there is one. -/
def transmit (n : Network ι κ) (d : Endpoint) (src : List UInt8) :
    Option Nat → Option (Endpoint → List UInt8)
  | none => some n.queue
  | some count =>
    if count ≤ src.length ∧ (src ≠ [] → 0 < count) ∧ n.shut d = false ∧ n.lost d = false then
      some (Function.update n.queue d (n.queue d ++ src.take count))
    else none

/-- The system stores the first bytes of the queue in the span, and none only if the span is empty,
or if the queue is empty and the other end has ended. -/
def deliver (c : Wiring) (n : Network ι κ) (d : Endpoint) (dst : List UInt8) :
    Option Nat → Option (List UInt8 × (Endpoint → List UInt8))
  | none => some (dst, n.queue)
  | some count =>
    (c.peer d).bind fun d' =>
      if count ≤ dst.length ∧ count ≤ (n.queue d').length ∧
          (count = 0 → dst = [] ∨ n.queue d' = [] ∧ n.Ended d') then
        some ((n.queue d').take count ++ dst.drop count,
          Function.update n.queue d' ((n.queue d').drop count))
      else none

/-- The caller notes the bytes under the connection that it holds the object for. -/
def note (history : Endpoint → List UInt8) (bytes : List UInt8) :
    Option Endpoint → Endpoint → List UInt8
  | none => history
  | some d => Function.update history d (history d ++ bytes)

def noteEnd (sawEnd : Endpoint → Bool) : Option Endpoint → Endpoint → Bool
  | none => sawEnd
  | some d => Function.update sawEnd d true

/-- A call on the object leaves it as `s`. -/
def put (n : Network ι κ) (i : ι) (s : TcpSocket) : Network ι κ :=
  { n with world := n.world.putSocket i (some s) n.world.log }

def step (e : Errno) (c : Wiring) (n : Network ι κ) : NetworkAction ι κ → Option (Network ι κ)
  | .manage a => (n.world.step e a).map fun w =>
      { n with world := w, line := w.nextLine n.line a }
  | .waitConnected i answers soError => (n.world.sockets i).bind fun s =>
      (s.waitConnected e answers soError).map fun r => n.put i r.2
  | .waitReadable i answers => (n.world.sockets i).bind fun s =>
      (s.waitReadable e answers).map fun r => n.put i r.2
  | .waitWritable i answers soError => (n.world.sockets i).bind fun s =>
      (s.waitWritable e answers soError).map fun r => n.put i r.2
  | .send i src answers => (n.world.sockets i).bind fun s =>
      (s.send e answers).bind fun (result, s') =>
        (n.transmit (n.endOf s) src (transferred e s answers)).map fun queue =>
          { n.put i s' with
            queue := queue
            sent := if result.status = .ok then note n.sent (src.take result.bytes) (n.line i)
              else n.sent }
  | .recv i dst answers => (n.world.sockets i).bind fun s =>
      (s.recv e answers).bind fun (result, s') =>
        (n.deliver c (n.endOf s) dst (transferred e s answers)).map fun (dst', queue) =>
          { n.put i s' with
            queue := queue
            received := if result.status = .ok then
                note n.received (dst'.take result.bytes) (n.line i)
              else n.received
            sawEnd := if result.status = .closed ∧ dst ≠ [] then noteEnd n.sawEnd (n.line i)
              else n.sawEnd }
  | .shutdownWrite i answer => (n.world.sockets i).map fun s =>
      let (done, s') := s.shutdownWrite answer
      { n.put i s' with
        shut := if done then Function.update n.shut (n.endOf s) true else n.shut }
  | .reset d => some
      { n with queue := Function.update n.queue d [], lost := Function.update n.lost d true }

/-! ## One call -/

variable {n n' : Network ι κ} {c : Wiring} {i : ι} {s : TcpSocket}

omit [DecidableEq ι] [DecidableEq κ] in
/-- `send` reports what the system has transferred. -/
theorem send_spec {answers : List TransferAnswer} {r : IoResult × TcpSocket}
    (h : s.send e answers = some r) :
    r.2.handle = s.handle ∧
      (transferred e s answers = none ∧ r.1.status ≠ .ok ∨
        s.isOpen = true ∧ ∃ count, transferred e s answers = some count ∧ r.1 = ⟨.ok, count⟩) := by
  unfold TcpSocket.send at h
  unfold transferred
  by_cases hopen : s.isOpen = true
  · rw [hopen, if_neg (by decide)] at h
    obtain ⟨answer, hanswer, rfl⟩ := Option.map_eq_some_iff.1 h
    rw [if_pos hopen, hanswer]
    cases answer with
    | error err =>
      by_cases hblock : e.isWouldBlock err = true
      · simp [hblock]
      · simp [hblock]
    | ok count => exact ⟨rfl, .inr ⟨hopen, count, rfl, rfl⟩⟩
  · rw [Bool.not_eq_true] at hopen
    rw [hopen, if_pos (by decide)] at h
    cases h
    simp [hopen]

omit [DecidableEq ι] [DecidableEq κ] in
/-- `recv` reports what the system has transferred, and the end of the stream for nothing. -/
theorem recv_spec {answers : List TransferAnswer} {r : IoResult × TcpSocket}
    (h : s.recv e answers = some r) :
    r.2.handle = s.handle ∧
      (transferred e s answers = none ∧ r.1.status ≠ .ok ∧ r.1.status ≠ .closed ∨
        s.isOpen = true ∧ ∃ count, transferred e s answers = some count ∧
          r.1 = if count = 0 then ⟨.closed, 0⟩ else ⟨.ok, count⟩) := by
  unfold TcpSocket.recv at h
  unfold transferred
  by_cases hopen : s.isOpen = true
  · rw [hopen, if_neg (by decide)] at h
    obtain ⟨answer, hanswer, rfl⟩ := Option.map_eq_some_iff.1 h
    rw [if_pos hopen, hanswer]
    cases answer with
    | error err =>
      by_cases hblock : e.isWouldBlock err = true
      · simp [hblock]
      · simp [hblock]
    | ok count =>
      by_cases hzero : count = 0
      · simp [hzero, hopen]
      · simp [hzero, hopen]
  · rw [Bool.not_eq_true] at hopen
    rw [hopen, if_pos (by decide)] at h
    cases h
    simp [hopen]

omit [DecidableEq ι] [DecidableEq κ] in
theorem note_self (history : Endpoint → List UInt8) (bytes : List UInt8) (d : Endpoint) :
    note history bytes (some d) d = history d ++ bytes := Function.update_self d _ history

omit [DecidableEq ι] [DecidableEq κ] in
theorem note_of_ne {history : Endpoint → List UInt8} {bytes : List UInt8} {d d' : Endpoint}
    (hne : d' ≠ d) : note history bytes (some d) d' = history d' :=
  Function.update_of_ne hne _ history

omit [DecidableEq ι] [DecidableEq κ] in
theorem handle_waitConnected {answers : List SelectAnswer} {soError : Int}
    {r : WaitResult × TcpSocket} (h : s.waitConnected e answers soError = some r) :
    r.2.handle = s.handle := by
  unfold TcpSocket.waitConnected at h
  by_cases hclosed : (!s.isOpen) = true
  · rw [if_pos hclosed] at h
    cases h
    rfl
  · rw [if_neg hclosed] at h
    obtain ⟨⟨result, err⟩, -, rfl⟩ := Option.map_eq_some_iff.1 h
    dsimp only
    split_ifs <;> rfl

omit [DecidableEq ι] [DecidableEq κ] in
theorem handle_waitReadable {answers : List PollAnswer} {r : WaitResult × TcpSocket}
    (h : s.waitReadable e answers = some r) : r.2.handle = s.handle := by
  unfold TcpSocket.waitReadable at h
  by_cases hclosed : (!s.isOpen) = true
  · rw [if_pos hclosed] at h
    cases h
    rfl
  · rw [if_neg hclosed] at h
    obtain ⟨⟨result, revents, err⟩, -, rfl⟩ := Option.map_eq_some_iff.1 h
    dsimp only
    split_ifs <;> rfl

omit [DecidableEq ι] [DecidableEq κ] in
theorem handle_waitWritable {answers : List PollAnswer} {soError : Int}
    {r : WaitResult × TcpSocket} (h : s.waitWritable e answers soError = some r) :
    r.2.handle = s.handle := by
  unfold TcpSocket.waitWritable at h
  by_cases hclosed : (!s.isOpen) = true
  · rw [if_pos hclosed] at h
    cases h
    rfl
  · rw [if_neg hclosed] at h
    obtain ⟨⟨result, revents, err⟩, -, rfl⟩ := Option.map_eq_some_iff.1 h
    dsimp only
    split_ifs <;> rfl

omit [DecidableEq ι] [DecidableEq κ] in
theorem handle_shutdownWrite (s : TcpSocket) (answer : StatusAnswer) :
    (s.shutdownWrite answer).2.handle = s.handle := by
  unfold TcpSocket.shutdownWrite
  split_ifs
  · rfl
  · cases answer <;> rfl

/-! ## The invariant -/

structure Inv (c : Wiring) (n : Network ι κ) : Prop where
  owned : n.world.Owned
  /-- An object has hold of the end that it was made for. -/
  line : n.line = n.world.lines
  dropped : ∀ d, n.lost d = true → n.queue d = []
  inOrder : ∀ d d', c.peer d = some d' → n.received d' <+: n.sent d
  complete : ∀ d d', c.peer d = some d' → n.lost d = false →
    n.sent d = n.received d' ++ n.queue d
  ended : ∀ d', n.sawEnd d' = true → ∃ d, c.peer d' = some d ∧ n.Ended d ∧ n.queue d = []

/-- A call that keeps the handle. -/
theorem Inv.put (h : Inv c n) (hi : n.world.sockets i = some s) {s' : TcpSocket}
    (hhandle : s'.handle = s.handle) : Inv c (n.put i s') := by
  have hheld : (some s').bind TcpSocket.held = n.world.held (.inl i) := by
    rw [held_inl hi]
    show heldBy s'.handle = heldBy s.handle
    rw [hhandle]
  refine ⟨h.owned.putSocket hheld, ?_, h.dropped, h.inOrder, h.complete, h.ended⟩
  show n.line = (n.world.putSocket i (some s') n.world.log).lines
  rw [h.line, World.lines, World.lines, sessions_putSocket hheld]

omit [DecidableEq ι] [DecidableEq κ] in
/-- The line of an open socket is the session of its handle, and not over. -/
theorem Inv.line_of_open (h : Inv c n) (hi : n.world.sockets i = some s) (hopen : s.isOpen = true) :
    n.line i = some (n.endOf s) ∧ ¬ n.world.log.Over (n.endOf s) := by
  have hheld : n.world.held (.inl i) = some (.descriptor s.handle) := by
    rw [held_inl hi]
    exact if_pos hopen
  refine ⟨?_, Log.not_over_current ((h.owned.out_iff _).2 ⟨_, hheld⟩)⟩
  rw [h.line]
  show (n.world.held (.inl i)).map _ = _
  rw [hheld]
  rfl

omit [DecidableEq ι] [DecidableEq κ] in
/-- The system accepts bytes from an end that is open. -/
theorem Inv.transmit (h : Inv c n) {d : Endpoint} (hopen : ¬ n.world.log.Over d) {src : List UInt8}
    {count : Nat} {queue : Endpoint → List UInt8}
    (hqueue : n.transmit d src (some count) = some queue) :
    Inv c { n with queue := queue, sent := note n.sent (src.take count) (some d) } := by
  simp only [Network.transmit] at hqueue
  split_ifs at hqueue with haccepts
  cases hqueue
  obtain ⟨-, -, hshut, hlost⟩ := haccepts
  have hended : ¬ n.Ended d := by
    rintro (hyes | hyes | hyes)
    · rw [hshut] at hyes
      cases hyes
    · rw [hlost] at hyes
      cases hyes
    · exact hopen hyes
  refine ⟨h.owned, h.line, fun d₁ hlost₁ => ?_, fun d₁ d' hpeer => ?_, fun d₁ d' hpeer hlost₁ => ?_,
    fun d' hsaw => ?_⟩
  · have hne : d₁ ≠ d := by
      rintro rfl
      rw [hlost] at hlost₁
      cases hlost₁
    exact (Function.update_of_ne hne _ n.queue).trans (h.dropped d₁ hlost₁)
  · show n.received d' <+: note n.sent (src.take count) (some d) d₁
    by_cases hd : d₁ = d
    · subst hd
      rw [note_self]
      exact (h.inOrder _ _ hpeer).trans (List.prefix_append _ _)
    · rw [note_of_ne hd]
      exact h.inOrder d₁ d' hpeer
  · show note n.sent (src.take count) (some d) d₁ =
      n.received d' ++ Function.update n.queue d (n.queue d ++ src.take count) d₁
    by_cases hd : d₁ = d
    · subst hd
      rw [note_self, Function.update_self, h.complete _ _ hpeer hlost₁, List.append_assoc]
    · rw [note_of_ne hd, Function.update_of_ne hd]
      exact h.complete d₁ d' hpeer hlost₁
  · obtain ⟨d₁, hpeer, hover, hempty⟩ := h.ended d' hsaw
    have hne : d₁ ≠ d := by
      rintro rfl
      exact hended hover
    exact ⟨d₁, hpeer, hover, (Function.update_of_ne hne _ n.queue).trans hempty⟩

omit [DecidableEq ι] [DecidableEq κ] in
/-- The system hands bytes over, or the end of the stream. -/
theorem Inv.deliver (h : Inv c n) {d : Endpoint} {dst dst' : List UInt8} {count : Nat}
    {queue : Endpoint → List UInt8}
    (hqueue : n.deliver c d dst (some count) = some (dst', queue)) :
    Inv c { n with queue := queue, received := note n.received (dst'.take count) (some d) } ∧
      (count = 0 → dst ≠ [] → ∃ d', c.peer d = some d' ∧ n.Ended d' ∧ queue d' = []) := by
  obtain ⟨d', hpeer, hqueue⟩ := Option.bind_eq_some_iff.1 hqueue
  split_ifs at hqueue with hgives
  cases hqueue
  obtain ⟨-, hcount, hnothing⟩ := hgives
  have hstored : ((n.queue d').take count ++ dst.drop count).take count =
      (n.queue d').take count := by
    rw [List.take_append_of_le_length (by rw [List.length_take]; omega), List.take_take,
      Nat.min_self]
  have hback := c.symmetric d d' hpeer
  have hempty : ∀ d₁, n.queue d₁ = [] →
      Function.update n.queue d' ((n.queue d').drop count) d₁ = [] := by
    intro d₁ hd₁
    by_cases hd : d₁ = d'
    · subst hd
      rw [Function.update_self, hd₁, List.drop_nil]
    · rw [Function.update_of_ne hd, hd₁]
  rw [hstored]
  refine ⟨⟨h.owned, h.line, fun d₁ hlost => hempty d₁ (h.dropped d₁ hlost),
    fun d₁ d₂ hpeer₁ => ?_, fun d₁ d₂ hpeer₁ hlost => ?_, fun d₂ hsaw => ?_⟩, fun hzero hdst => ?_⟩
  · show note n.received ((n.queue d').take count) (some d) d₂ <+: n.sent d₁
    by_cases hd : d₂ = d
    · subst hd
      cases (c.symmetric _ _ hpeer₁).symm.trans hpeer
      rw [note_self]
      by_cases hlost : n.lost d' = true
      · rw [h.dropped d' hlost, List.take_nil, List.append_nil]
        exact h.inOrder _ _ hpeer₁
      · rw [h.complete _ _ hpeer₁ (Bool.not_eq_true _ ▸ hlost)]
        exact (List.prefix_append_right_inj _).2 (List.take_prefix _ _)
    · rw [note_of_ne hd]
      exact h.inOrder d₁ d₂ hpeer₁
  · show n.sent d₁ = note n.received ((n.queue d').take count) (some d) d₂ ++
      Function.update n.queue d' ((n.queue d').drop count) d₁
    by_cases hd : d₂ = d
    · subst hd
      cases (c.symmetric _ _ hpeer₁).symm.trans hpeer
      rw [note_self, Function.update_self, h.complete _ _ hpeer₁ hlost, List.append_assoc,
        List.take_append_drop]
    · have hne : d₁ ≠ d' := by
        rintro rfl
        exact hd (Option.some.inj (hpeer₁.symm.trans hback))
      rw [note_of_ne hd, Function.update_of_ne hne]
      exact h.complete d₁ d₂ hpeer₁ hlost
  · obtain ⟨d₁, hpeer₁, hover, hnone⟩ := h.ended d₂ hsaw
    exact ⟨d₁, hpeer₁, hover, hempty d₁ hnone⟩
  · obtain ⟨hnone, hended⟩ := (hnothing hzero).resolve_left hdst
    exact ⟨d', hpeer, hended, hempty d' hnone⟩

omit [DecidableEq ι] [DecidableEq κ] in
theorem inv_initial (c : Wiring) : Inv c (initial ι κ) where
  owned := owned_initial
  line := rfl
  dropped := fun _ _ => rfl
  inOrder := fun _ _ _ => List.prefix_refl _
  complete := fun _ _ _ _ => rfl
  ended := nofun

/-- **One step.** -/
theorem inv_step {a : NetworkAction ι κ} (h : Inv c n) (hstep : n.step e c a = some n') :
    Inv c n' := by
  cases a with
  | manage a =>
    obtain ⟨w, hw, rfl⟩ := Option.map_eq_some_iff.1 hstep
    obtain ⟨hgrows, hlines⟩ := lines_step h.owned hw
    refine ⟨owned_step h.owned hw, ?_, h.dropped, h.inOrder, h.complete, fun d' hsaw => ?_⟩
    · show w.nextLine n.line a = w.lines
      rw [h.line, hlines]
    · obtain ⟨d, hpeer, hover, hempty⟩ := h.ended d' hsaw
      exact ⟨d, hpeer, hover.imp_right (Or.imp_right (Log.over_mono hgrows)), hempty⟩
  | waitConnected i answers soError =>
    obtain ⟨s, hi, hwait⟩ := Option.bind_eq_some_iff.1 hstep
    obtain ⟨r, hr, rfl⟩ := Option.map_eq_some_iff.1 hwait
    exact h.put hi (handle_waitConnected hr)
  | waitReadable i answers =>
    obtain ⟨s, hi, hwait⟩ := Option.bind_eq_some_iff.1 hstep
    obtain ⟨r, hr, rfl⟩ := Option.map_eq_some_iff.1 hwait
    exact h.put hi (handle_waitReadable hr)
  | waitWritable i answers soError =>
    obtain ⟨s, hi, hwait⟩ := Option.bind_eq_some_iff.1 hstep
    obtain ⟨r, hr, rfl⟩ := Option.map_eq_some_iff.1 hwait
    exact h.put hi (handle_waitWritable hr)
  | send i src answers =>
    obtain ⟨s, hi, hsend⟩ := Option.bind_eq_some_iff.1 hstep
    obtain ⟨⟨result, s'⟩, hr, hkernel⟩ := Option.bind_eq_some_iff.1 hsend
    obtain ⟨queue, hqueue, rfl⟩ := Option.map_eq_some_iff.1 hkernel
    obtain ⟨hhandle, ⟨hnothing, hstatus⟩ | ⟨hopen, count, hcount, hresult⟩⟩ := send_spec hr
    · rw [hnothing] at hqueue
      cases hqueue
      dsimp only at hstatus ⊢
      rw [if_neg hstatus]
      exact h.put hi hhandle
    · rw [hcount] at hqueue
      dsimp only at hresult
      subst hresult
      obtain ⟨hline, hlive⟩ := h.line_of_open hi hopen
      have hsent := (h.put hi hhandle).transmit (d := n.endOf s) hlive hqueue
      dsimp only
      rw [if_pos rfl, hline]
      exact hsent
  | recv i dst answers =>
    obtain ⟨s, hi, hrecv⟩ := Option.bind_eq_some_iff.1 hstep
    obtain ⟨⟨result, s'⟩, hr, hkernel⟩ := Option.bind_eq_some_iff.1 hrecv
    obtain ⟨⟨dst', queue⟩, hqueue, rfl⟩ := Option.map_eq_some_iff.1 hkernel
    obtain ⟨hhandle, ⟨hnothing, hstatus, hend⟩ | ⟨hopen, count, hcount, hresult⟩⟩ := recv_spec hr
    · rw [hnothing] at hqueue
      cases hqueue
      dsimp only at hstatus hend ⊢
      rw [if_neg hstatus, if_neg (fun hboth => hend hboth.1)]
      exact h.put hi hhandle
    · rw [hcount] at hqueue
      obtain ⟨hline, -⟩ := h.line_of_open hi hopen
      obtain ⟨hreceived, hover⟩ := (h.put hi hhandle).deliver (d := n.endOf s) hqueue
      dsimp only at hresult ⊢
      rw [hline]
      by_cases hzero : count = 0
      · rw [if_pos hzero] at hresult
        subst hresult
        rw [if_neg (by decide)]
        have hsame : note n.received (dst'.take count) (some (n.endOf s)) = n.received := by
          rw [hzero, note, List.take_zero, List.append_nil, Function.update_eq_self]
        refine ⟨hreceived.owned, hreceived.line, hreceived.dropped, ?_, ?_, fun d' hsaw => ?_⟩
        · rw [← hsame]
          exact hreceived.inOrder
        · rw [← hsame]
          exact hreceived.complete
        · -- The end is noted for a span that is not empty.
          by_cases hdst : dst ≠ []
          · rw [if_pos ⟨rfl, hdst⟩, noteEnd] at hsaw
            by_cases hd : d' = n.endOf s
            · subst hd
              exact hover hzero hdst
            · exact hreceived.ended d' ((Function.update_of_ne hd _ n.sawEnd).symm.trans hsaw)
          · rw [if_neg (fun hboth => hdst hboth.2)] at hsaw
            exact hreceived.ended d' hsaw
      · rw [if_neg hzero] at hresult
        subst hresult
        rw [if_pos rfl, if_neg (by simp)]
        exact hreceived
  | shutdownWrite i answer =>
    obtain ⟨s, hi, rfl⟩ := Option.map_eq_some_iff.1 hstep
    have hput := h.put hi (handle_shutdownWrite s answer)
    refine ⟨hput.owned, hput.line, hput.dropped, hput.inOrder, hput.complete, fun d' hsaw => ?_⟩
    obtain ⟨d, hpeer, hover, hempty⟩ := hput.ended d' hsaw
    refine ⟨d, hpeer, hover.imp_left fun hshut => ?_, hempty⟩
    show (if (s.shutdownWrite answer).1 then Function.update n.shut (n.endOf s) true else n.shut) d
      = true
    by_cases hd : d = n.endOf s
    · subst hd
      split_ifs
      · exact Function.update_self _ _ n.shut
      · exact hshut
    · split_ifs
      · exact (Function.update_of_ne hd _ n.shut).trans hshut
      · exact hshut
  | reset d =>
    cases hstep
    refine ⟨h.owned, h.line, fun d₁ hlost => ?_, h.inOrder, fun d₁ d' hpeer hlost => ?_,
      fun d' hsaw => ?_⟩
    · by_cases hd : d₁ = d
      · subst hd
        exact Function.update_self _ _ n.queue
      · have hlost₁ : n.lost d₁ = true := (Function.update_of_ne hd _ n.lost).symm.trans hlost
        exact (Function.update_of_ne hd _ n.queue).trans (h.dropped d₁ hlost₁)
    · have hd : d₁ ≠ d := by
        rintro rfl
        exact Bool.noConfusion ((Function.update_self _ _ n.lost).symm.trans hlost)
      have hlost₁ : n.lost d₁ = false := (Function.update_of_ne hd _ n.lost).symm.trans hlost
      show n.sent d₁ = n.received d' ++ Function.update n.queue d [] d₁
      rw [Function.update_of_ne hd]
      exact h.complete d₁ d' hpeer hlost₁
    · obtain ⟨d₁, hpeer, hover, hempty⟩ := h.ended d' hsaw
      by_cases hd : d₁ = d
      · subst hd
        exact ⟨_, hpeer, .inr (.inl (Function.update_self _ _ n.lost)),
          Function.update_self _ _ n.queue⟩
      · refine ⟨d₁, hpeer, ?_, (Function.update_of_ne hd _ n.queue).trans hempty⟩
        exact hover.imp_right (Or.imp_left fun hlost =>
          (Function.update_of_ne hd _ n.lost).trans hlost)

/-! ## Every run -/

/-- What the objects make of their connections. -/
structure Streams (c : Wiring) (n : Network ι κ) : Prop where
  /-- An open socket talks over the connection that it was made for, a closed one over none. -/
  line : ∀ i s, n.world.sockets i = some s → n.line i = if s.isOpen then some (n.endOf s) else none
  alone : Exclusive n.line
  inOrder : ∀ d d', c.peer d = some d' → n.received d' <+: n.sent d
  complete : ∀ d d', c.peer d = some d' → n.lost d = false →
    n.sent d = n.received d' ++ n.queue d
  /-- Behind the end of the stream there is nothing. -/
  ended : ∀ d', n.sawEnd d' = true → ∃ d, c.peer d' = some d ∧ n.Ended d ∧
    (n.lost d = false → n.received d' = n.sent d)

/-- **The bytes of a connection arrive in order, and with the objects that hold it.** -/
theorem reachable_streams {c : Wiring} {n : Network ι κ}
    (h : Reachable (step e c) (initial ι κ) n) : Streams c n := by
  have hinv : Inv c n := Reachable.invariant (step e c) h (inv_initial c)
    fun _ _ _ hn hstep => inv_step hn hstep
  refine ⟨fun i s hi => ?_, ?_, hinv.inOrder, hinv.complete, fun d' hsaw => ?_⟩
  · rw [hinv.line]
    show (n.world.held (.inl i)).map _ = _
    rw [held_inl hi]
    show (if s.handle != invalidHandle then some (Resource.descriptor s.handle) else none).map _ =
      if s.handle != invalidHandle then _ else _
    split_ifs <;> rfl
  · rw [hinv.line]
    intro i j d hi hj
    exact Sum.inl.inj (exclusive_sessions hinv.owned.exclusive _ _ d hi hj)
  · obtain ⟨d, hpeer, hover, hempty⟩ := hinv.ended d' hsaw
    refine ⟨d, hpeer, hover, fun hlost => ?_⟩
    rw [hinv.complete d d' (c.symmetric _ _ hpeer) hlost, hempty, List.append_nil]

/-- Descriptors 4 and 5 are the ends of one connection, 4 and 6 of the next. -/
def twoConnections : Wiring where
  peer d :=
    if d = (.descriptor 4, 1) then some (.descriptor 5, 1)
    else if d = (.descriptor 5, 1) then some (.descriptor 4, 1)
    else if d = (.descriptor 4, 2) then some (.descriptor 6, 1)
    else if d = (.descriptor 6, 1) then some (.descriptor 4, 2)
    else none
  symmetric := by
    intro d d' h
    split_ifs at h <;> cases h <;> subst_vars <;> rfl

/-- Two bytes are sent through a socket that is moved, shut down by closing it, and its descriptor
is used again by another connection, before the other end reads them. -/
def reusedDescriptor : List (NetworkAction (Nat) Unit) :=
  [.manage (.listen () 80 true ⟨.ok 3, ⟨.ok (), .ok ()⟩, .ok (), .ok (), some 80⟩),
    .manage (.connect 0 false (.resolved 7 [⟨.ok 4, ⟨.ok (), .ok ()⟩, .ok ()⟩])),
    .manage (.accept () 1 ⟨.ok (), .ok ()⟩ [.ok 5]),
    .send 0 [10, 20, 30] [.error 4, .ok 2],
    .manage (.moveSocket 2 0),
    .manage (.closeSocket 2),
    .manage (.connect 3 false (.resolved 7 [⟨.ok 4, ⟨.ok (), .ok ()⟩, .ok ()⟩])),
    .manage (.destroySocket 2),
    .manage (.accept () 2 ⟨.ok (), .ok ()⟩ [.ok 6]),
    .send 3 [40] [.ok 1],
    .recv 1 [0, 0, 0, 0] [.ok 2],
    .recv 1 [0, 0] [.ok 0],
    .recv 2 [0] [.ok 1]]

theorem reachable_streams_reusedDescriptor :
    ∃ n, run (step linuxErrno twoConnections) (initial (Nat) Unit) reusedDescriptor = some n ∧
      n.received (.descriptor 5, 1) = [10, 20] ∧ n.received (.descriptor 6, 1) = [40] ∧
      n.sawEnd (.descriptor 5, 1) = true ∧ Streams twoConnections n := by
  have hrun : ((run (step linuxErrno twoConnections) (initial (Nat) Unit) reusedDescriptor).map
      fun n => (n.received (.descriptor 5, 1), n.received (.descriptor 6, 1),
        n.sawEnd (.descriptor 5, 1))) = some ([10, 20], [40], true) := by
    decide +kernel
  obtain ⟨n, hn, hseen⟩ := Option.map_eq_some_iff.1 hrun
  obtain ⟨hfirst, hrest⟩ := Prod.mk.inj hseen
  obtain ⟨hsecond, hsaw⟩ := Prod.mk.inj hrest
  exact ⟨n, hn, hfirst, hsecond, hsaw, reachable_streams ⟨_, hn⟩⟩

end Network

end EglUtil.Tcp
