import EglUtil.Json.Decoding
import EglUtil.Json.Events

/-!
# `JsonParser` terminates and latches

**One call** (`Advance`). From a position inside the source `next` answers with a position inside
the source, behind the one it started from if the event is neither `end` nor `error`. The depth
changes by the one frame that the event opens or closes, and the state says which kind of event it
was. There is one lemma for each function of the parser; what a scanner leaves behind (`Within`)
is read off its specification.

**Every run** (`terminates`). The position is a measure, so a source of `n` bytes yields at most
`n` events before the first `end` or `error`; from there on nothing changes (`next_of_done`).
-/

namespace EglUtil

namespace Json

variable {maxDepth : Nat} {s before rest : Bytes} {p : JsonParser} {pos depth : Nat}

/-! ## Scanners -/

/-- A scanner that starts at `pos` ends behind it, or gives up, inside the source. -/
def Within (s : Bytes) (pos : Nat) : Except Failure (Bytes × Nat) → Prop
  | .ok (_, pos') => pos < pos' ∧ pos' ≤ s.length
  | .error f => f.offset ≤ s.length

theorem Scans.within {T : Bytes → Bytes → Prop} (hT : ∀ text tok, T text tok → 0 < tok.length)
    (h : At s pos before rest) {r : Except Failure (Bytes × Nat)} (hr : Scans T rest pos r) :
    Within s pos r := by
  cases r with
  | error f =>
    obtain ⟨text, part, fin, tail, rfl, hoff, -⟩ := hr
    rw [Within, hoff]
    exact h.advance.le
  | ok answer =>
    obtain ⟨text, pos'⟩ := answer
    obtain ⟨tok, tail, rfl, htok, rfl⟩ := hr
    have hpos := hT text tok htok
    exact ⟨Nat.lt_add_of_pos_right hpos, h.advance.le⟩

theorem within_string (h : At s pos before (quote :: rest)) : Within s pos (scanString s pos) := by
  refine Scans.within ?_ h (scanString_spec h)
  intro text tok htok
  rw [htok.length]
  exact Nat.succ_pos _

theorem within_literal (h : At s p.pos before rest) {literal : Bytes} (hpos : 0 < literal.length) :
    Within s p.pos ((scanLiteral s p.pos literal).map fun e => (literal, e)) := by
  refine Scans.within ?_ h (scans_literal literal h)
  intro text tok htok
  rw [htok.2]
  exact hpos

theorem within_number (h : At s p.pos before rest) :
    Within s p.pos
      ((scanNumber s p.pos).map fun e => ((s.drop p.pos).take (e - p.pos), e)) := by
  refine Scans.within ?_ h (scans_number h)
  intro text tok htok
  rw [htok.2]
  exact Number.length_pos htok.1

/-- Any position inside the source splits it. -/
theorem at_of_le (h : pos ≤ s.length) : At s pos (s.take pos) (s.drop pos) :=
  ⟨(List.take_append_drop pos s).symm, (List.length_take_of_le h).symm⟩

theorem skipWhitespace_le (h : pos ≤ s.length) :
    pos ≤ skipWhitespace s pos ∧ skipWhitespace s pos ≤ s.length := by
  obtain ⟨w, rest, -, -, -, hat⟩ := (at_of_le h).skip isWhitespace
  exact ⟨Nat.le_add_right _ _, hat.le⟩

/-- A byte other than the one that `peek` invents is inside the source. -/
theorem lt_of_peek {c : UInt8} (hp : peek s pos = c) (hc : c ≠ 0) : pos < s.length := by
  by_contra hle
  rw [peek, List.getElem?_eq_none (Nat.le_of_not_lt hle)] at hp
  exact hc hp.symm

/-! ## One call -/

/-- How the depth changes with an event of type `token`. -/
def DepthMove (maxDepth depth : Nat) (token : JsonToken) (depth' : Nat) : Prop :=
  match token with
  | .beginObject | .beginArray => depth < maxDepth ∧ depth' = depth + 1
  | .endObject | .endArray => depth = depth' + 1
  | _ => depth' = depth

/-- The state after an event of type `token`. -/
def stateAfter : JsonToken → State
  | .error => .errored
  | .end => .finished
  | _ => .running

/-- What a call does that starts at `pos`, at depth `depth`. -/
structure Advance (maxDepth : Nat) (s : Bytes) (pos depth : Nat) (r : JsonEvent × JsonParser) :
    Prop where
  source : r.2.source = s
  le : r.2.pos ≤ s.length
  lt : r.1.proceeds = true → pos < r.2.pos
  depth : DepthMove maxDepth depth r.1.type r.2.stack.length
  state : r.2.state = stateAfter r.1.type
  text : r.1.proceeds = false → r.1.text = []

/-- The parser is in the middle of a call that started at `pos`, at depth `depth`. -/
structure InCall (s : Bytes) (pos depth : Nat) (p : JsonParser) : Prop where
  source : p.source = s
  running : p.state = .running
  depth : p.stack.length = depth
  ge : pos ≤ p.pos
  le : p.pos ≤ s.length

theorem InCall.skip (h : InCall s pos depth p) :
    InCall s pos depth { p with pos := skipWhitespace p.source p.pos } := by
  have hskip := skipWhitespace_le h.le
  refine ⟨h.source, h.running, h.depth, ?_, ?_⟩
  · rw [h.source]
    exact h.ge.trans hskip.1
  · rw [h.source]
    exact hskip.2

/-- The byte at the cursor is consumed. -/
theorem InCall.consume (h : InCall s pos depth p) {c : UInt8} (hp : peek p.source p.pos = c)
    (hc : c ≠ 0) : InCall s pos depth { p with pos := p.pos + 1 } := by
  rw [h.source] at hp
  exact ⟨h.source, h.running, h.depth, Nat.le_succ_of_le h.ge, lt_of_peek hp hc⟩

/-- The top frame is replaced. -/
theorem InCall.replace {frame frame' : Frame} {outer : List Frame} (h : InCall s pos depth p)
    (hstack : p.stack = frame :: outer) :
    InCall s pos depth { p with stack := frame' :: outer } := by
  have hdepth := h.depth
  rw [hstack] at hdepth
  exact ⟨h.source, h.running, hdepth, h.ge, h.le⟩

theorem InCall.split (h : InCall s pos depth p) : At s p.pos (s.take p.pos) (s.drop p.pos) :=
  at_of_le h.le

theorem advance_makeError {f : Failure} (h : InCall s pos depth p) (hoff : f.offset ≤ s.length) :
    Advance maxDepth s pos depth (p.makeError f) := by
  unfold JsonParser.makeError
  rw [if_neg (by rw [h.running]; decide)]
  exact ⟨h.source, hoff, nofun, h.depth, rfl, fun _ => rfl⟩

theorem advance_finishScalar {token : JsonToken} {r : Except Failure (Bytes × Nat)}
    (hmove : DepthMove maxDepth depth token depth) (hstate : stateAfter token = .running)
    (h : InCall s pos depth p) (hr : Within s p.pos r) :
    Advance maxDepth s pos depth (p.finishScalar token r) := by
  cases r with
  | error f => exact advance_makeError h hr
  | ok answer =>
    have hproceeds : (⟨token, answer.1⟩ : JsonEvent).proceeds = true := by
      cases token with
      | «end» | error => cases hstate
      | _ => rfl
    refine ⟨h.source, hr.2, fun _ => Nat.lt_of_le_of_lt h.ge hr.1, ?_, ?_, ?_⟩
    · rw [JsonParser.finishScalar, h.depth]
      exact hmove
    · rw [JsonParser.finishScalar, hstate]
      exact h.running
    · intro hstops
      rw [JsonParser.finishScalar, hproceeds] at hstops
      cases hstops

theorem advance_openFrame {isObject : Bool} {token : JsonToken}
    (htoken : token = .beginObject ∨ token = .beginArray) (h : InCall s pos depth p)
    (hlt : p.pos < s.length) :
    Advance maxDepth s pos depth (p.openFrame maxDepth isObject token) := by
  unfold JsonParser.openFrame
  split_ifs with hfull
  · exact advance_makeError h h.le
  · rw [h.depth] at hfull
    have hmove : depth < maxDepth ∧ p.stack.length + 1 = depth + 1 :=
      ⟨Nat.lt_of_not_le hfull, by rw [h.depth]⟩
    have hpos := Nat.lt_succ_of_le h.ge
    rcases htoken with rfl | rfl
    · exact ⟨h.source, hlt, fun _ => hpos, hmove, h.running, nofun⟩
    · exact ⟨h.source, hlt, fun _ => hpos, hmove, h.running, nofun⟩

theorem advance_dispatch {c : UInt8} (h : InCall s pos depth p) (hc : p.source[p.pos]? = some c) :
    Advance maxDepth s pos depth (p.dispatch maxDepth c) := by
  have hsplit := h.split
  rw [h.source] at hc
  obtain ⟨hlt, hbyte⟩ := List.getElem?_eq_some_iff.1 hc
  unfold JsonParser.dispatch
  rw [h.source]
  split_ifs with _ _ hquote
  · exact advance_openFrame (.inl rfl) h hlt
  · exact advance_openFrame (.inr rfl) h hlt
  · refine advance_finishScalar rfl rfl h ?_
    rw [List.drop_eq_getElem_cons hlt, hbyte, hquote] at hsplit
    exact within_string hsplit
  · exact advance_finishScalar rfl rfl h (within_literal hsplit (by decide))
  · exact advance_finishScalar rfl rfl h (within_literal hsplit (by decide))
  · exact advance_finishScalar rfl rfl h (within_literal hsplit (by decide))
  · exact advance_finishScalar rfl rfl h (within_number hsplit)
  · exact advance_makeError h h.le

theorem advance_startValue (h : InCall s pos depth p) :
    Advance maxDepth s pos depth (p.startValue maxDepth) := by
  unfold JsonParser.startValue
  dsimp only
  split
  · exact advance_makeError h.skip h.skip.le
  · next hc => exact advance_dispatch h.skip hc

/-- `close_frame`, with a frame to close. -/
theorem advance_closeFrame {token : JsonToken} {frame : Frame} {outer : List Frame}
    (htoken : token = .endObject ∨ token = .endArray) (h : InCall s pos depth p) (hlt : pos < p.pos)
    (hstack : p.stack = frame :: outer) : Advance maxDepth s pos depth (p.closeFrame token) := by
  have hmove : depth = p.stack.tail.length + 1 := by
    rw [← h.depth, hstack]
    rfl
  rcases htoken with rfl | rfl
  · exact ⟨h.source, h.le, fun _ => hlt, hmove, h.running, nofun⟩
  · exact ⟨h.source, h.le, fun _ => hlt, hmove, h.running, nofun⟩

theorem advance_readKey {frame : Frame} {outer : List Frame} (h : InCall s pos depth p)
    (hstack : p.stack = frame :: outer) : Advance maxDepth s pos depth (p.readKey outer) := by
  have hframe : InCall s pos depth { p with stack := ⟨true, true, false⟩ :: outer } :=
    h.replace hstack
  have hsource := h.source
  subst hsource
  unfold JsonParser.readKey
  dsimp only
  split_ifs with hquote
  · exact advance_makeError hframe h.le
  · rw [not_not] at hquote
    obtain ⟨rest, hrest⟩ := h.split.of_peek hquote (by decide)
    have hscan := within_string (hrest ▸ h.split)
    split
    · next hfail =>
      rw [hfail] at hscan
      exact advance_makeError hframe hscan
    · next raw pos' hraw =>
      rw [hraw] at hscan
      have hskip := skipWhitespace_le hscan.2
      split_ifs with hcolon
      · exact advance_makeError hframe hskip.2
      · rw [not_not] at hcolon
        have hlt := lt_of_peek hcolon (by decide)
        have hpos := h.ge
        have hscanned := hscan.1
        refine ⟨rfl, hlt, fun _ => ?_, hframe.depth, h.running, nofun⟩
        dsimp only
        omega

theorem advance_nextInObject {frame : Frame} {outer : List Frame} (h : InCall s pos depth p)
    (hstack : p.stack = frame :: outer) :
    Advance maxDepth s pos depth (p.nextInObject maxDepth frame outer) := by
  unfold JsonParser.nextInObject
  dsimp only
  split_ifs with _ hclose hseen hcomma htrailing
  · exact advance_startValue (h.replace hstack)
  · exact advance_closeFrame (.inl rfl) (h.skip.consume hclose (by decide))
      (Nat.lt_succ_of_le h.skip.ge) hstack
  · exact advance_makeError h.skip h.skip.le
  · rw [not_not] at hcomma
    have hskip := (h.skip.consume hcomma (by decide)).skip
    exact advance_makeError hskip hskip.le
  · rw [not_not] at hcomma
    exact advance_readKey (h.skip.consume hcomma (by decide)).skip hstack
  · exact advance_readKey h.skip hstack

theorem advance_nextInArray {frame : Frame} {outer : List Frame} (h : InCall s pos depth p)
    (hstack : p.stack = frame :: outer) :
    Advance maxDepth s pos depth (p.nextInArray maxDepth frame outer) := by
  unfold JsonParser.nextInArray
  dsimp only
  split_ifs with hclose hseen hcomma htrailing
  · exact advance_closeFrame (.inr rfl) (h.skip.consume hclose (by decide))
      (Nat.lt_succ_of_le h.skip.ge) hstack
  · exact advance_makeError h.skip h.skip.le
  · rw [not_not] at hcomma
    have hskip := (h.skip.consume hcomma (by decide)).skip
    exact advance_makeError hskip hskip.le
  · rw [not_not] at hcomma
    exact advance_startValue (h.skip.consume hcomma (by decide)).skip
  · exact advance_startValue (h.skip.replace hstack)

/-- **One call** while the parser is running. -/
theorem advance_next (hsource : p.source = s) (hrun : p.state = .running)
    (hle : p.pos ≤ s.length) : Advance maxDepth s p.pos p.stack.length (p.next maxDepth) := by
  have h : InCall s p.pos p.stack.length p := ⟨hsource, hrun, rfl, Nat.le_refl _, hle⟩
  unfold JsonParser.next
  obtain ⟨source, pos, stack, started, state, message, offset⟩ := p
  cases hrun
  cases stack with
  | nil =>
    dsimp only
    split_ifs with _ htrailing
    · exact advance_makeError h.skip h.skip.le
    · exact ⟨h.skip.source, h.skip.le, nofun, rfl, rfl, fun _ => rfl⟩
    · exact advance_startValue ⟨h.source, h.running, h.depth, h.ge, h.le⟩
  | cons frame outer =>
    dsimp only
    split_ifs
    · exact advance_nextInObject h rfl
    · exact advance_nextInArray h rfl

/-! ## Every run -/

namespace JsonParser

/-- Whether parsing has stopped. -/
def done (p : JsonParser) : Bool := p.state != .running

/-- Whether an error has latched. -/
def failed (p : JsonParser) : Bool := p.state == .errored

end JsonParser

theorem proceeds_eq_false {e : JsonEvent} (h : e.proceeds = false) :
    e.type = .end ∨ e.type = .error := by
  cases he : e.type with
  | «end» => exact .inl rfl
  | error => exact .inr rfl
  | _ =>
    rw [JsonEvent.proceeds, he] at h
    cases h

/-- What a parser that has stopped answers. -/
def terminal : State → JsonEvent
  | .errored => ⟨.error, []⟩
  | .running | .finished => ⟨.end, []⟩

/-- **The latch.** A parser that has stopped does not move. -/
theorem next_of_done (h : p.state ≠ .running) : p.next maxDepth = (terminal p.state, p) := by
  unfold JsonParser.next
  split
  · next hstate => rw [hstate, terminal]
  · next hstate => rw [hstate, terminal]
  · next hstate => exact absurd hstate h

/-- What is true between two calls. -/
structure Sane (maxDepth : Nat) (s : Bytes) (p : JsonParser) : Prop where
  source : p.source = s
  le : p.pos ≤ s.length
  depth : p.stack.length ≤ maxDepth

theorem DepthMove.le {depth' : Nat} {token : JsonToken}
    (h : DepthMove maxDepth depth token depth') (hle : depth ≤ maxDepth) : depth' ≤ maxDepth := by
  cases token with
  | beginObject | beginArray =>
    obtain ⟨hlt, rfl⟩ := h
    exact hlt
  | endObject | endArray =>
    rw [show depth = depth' + 1 from h] at hle
    exact Nat.le_of_succ_le hle
  | _ => exact (show depth' = depth from h) ▸ hle

theorem sane_next (h : Sane maxDepth s p) : Sane maxDepth s (p.next maxDepth).2 := by
  by_cases hrun : p.state = .running
  · have hnext : Advance maxDepth s p.pos p.stack.length (p.next maxDepth) :=
      advance_next h.source hrun h.le
    exact ⟨hnext.source, hnext.le, hnext.depth.le h.depth⟩
  · rw [next_of_done hrun]
    exact h

theorem sane_after (maxDepth : Nat) (s : Bytes) (n : Nat) :
    Sane maxDepth s (afterCalls maxDepth s n) := by
  induction n with
  | zero => exact ⟨rfl, Nat.zero_le _, Nat.zero_le _⟩
  | succ n ih => exact sane_next ih

theorem running_of_proceeds {n : Nat} (h : (emitted maxDepth s n).proceeds = true) :
    (afterCalls maxDepth s n).state = .running := by
  by_contra hrun
  rw [emitted, next_of_done hrun] at h
  cases hstate : (afterCalls maxDepth s n).state with
  | running => exact hrun hstate
  | finished | errored =>
    rw [hstate] at h
    cases h

theorem advance_after {n : Nat} (hrun : (afterCalls maxDepth s n).state = .running) :
    Advance maxDepth s (afterCalls maxDepth s n).pos (afterCalls maxDepth s n).stack.length
      (emitted maxDepth s n, afterCalls maxDepth s (n + 1)) :=
  advance_next (sane_after maxDepth s n).source hrun (sane_after maxDepth s n).le

/-- A parser that is running was running before. -/
theorem running_of_succ {n : Nat} (h : (afterCalls maxDepth s (n + 1)).state = .running) :
    (afterCalls maxDepth s n).state = .running := by
  by_contra hrun
  rw [afterCalls, next_of_done hrun] at h
  exact hrun h

/-- Each call that leaves the parser running has consumed a byte. -/
theorem le_pos {n : Nat} (h : (afterCalls maxDepth s n).state = .running) :
    n ≤ (afterCalls maxDepth s n).pos := by
  induction n with
  | zero => exact Nat.zero_le _
  | succ n ih =>
    have hrun := running_of_succ h
    have hnext := advance_after hrun
    have hproceeds : (emitted maxDepth s n).proceeds = true := by
      by_contra hstops
      rw [Bool.not_eq_true] at hstops
      have hstate := hnext.state
      rw [h] at hstate
      rcases proceeds_eq_false hstops with htype | htype
      · rw [htype] at hstate
        cases hstate
      · rw [htype] at hstate
        cases hstate
    exact Nat.succ_le_of_lt (Nat.lt_of_le_of_lt (ih hrun) (hnext.lt hproceeds))

theorem lt_length_of_proceeds {n : Nat} (h : (emitted maxDepth s n).proceeds = true) :
    n < s.length := by
  have hrun := running_of_proceeds h
  have hnext := advance_after hrun
  exact Nat.lt_of_le_of_lt (le_pos hrun) (Nat.lt_of_lt_of_le (hnext.lt h) hnext.le)

/-- Once a call has returned `end` or `error`, the parser answers the same ever after. -/
theorem next_after_terminal {n : Nat} (h : (emitted maxDepth s n).proceeds = false) :
    (afterCalls maxDepth s (n + 1)).next maxDepth =
      (emitted maxDepth s n, afterCalls maxDepth s (n + 1)) := by
  by_cases hrun : (afterCalls maxDepth s n).state = .running
  · have hnext := advance_after hrun
    have hstate := hnext.state
    have htext := hnext.text h
    have hevent : emitted maxDepth s n = ⟨(emitted maxDepth s n).type, []⟩ := by
      rw [← htext]
    rcases proceeds_eq_false h with htype | htype
    · rw [htype] at hstate hevent
      rw [next_of_done (by rw [hstate]; nofun), hstate, hevent]
      rfl
    · rw [htype] at hstate hevent
      rw [next_of_done (by rw [hstate]; nofun), hstate, hevent]
      rfl
  · have hsame : (afterCalls maxDepth s n).next maxDepth =
        (terminal (afterCalls maxDepth s n).state, afterCalls maxDepth s n) := next_of_done hrun
    rw [emitted, afterCalls, hsame]
    exact hsame

theorem latched {n m : Nat} (h : (emitted maxDepth s n).proceeds = false) (hle : n ≤ m) :
    emitted maxDepth s m = emitted maxDepth s n ∧
      afterCalls maxDepth s (m + 1) = afterCalls maxDepth s (n + 1) := by
  induction m, hle using Nat.le_induction with
  | base => exact ⟨rfl, rfl⟩
  | succ m _ ih =>
    obtain ⟨hevent, hafter⟩ := ih
    have hnext := next_after_terminal h
    rw [← hafter] at hnext
    constructor
    · show ((afterCalls maxDepth s (m + 1)).next maxDepth).1 = emitted maxDepth s n
      rw [hnext]
    · show ((afterCalls maxDepth s (m + 1)).next maxDepth).2 = afterCalls maxDepth s (n + 1)
      rw [hnext, hafter]

theorem countP_proceeds_le (n : Nat) :
    (List.range n).countP (fun i => (emitted maxDepth s i).proceeds) ≤ s.length := by
  induction n with
  | zero => exact Nat.zero_le _
  | succ n ih =>
    rw [List.range_succ, List.countP_append, List.countP_singleton]
    by_cases hproceeds : (emitted maxDepth s n).proceeds = true
    · rw [if_pos hproceeds]
      have hcount := List.countP_le_length (l := List.range n)
        (p := fun i => (emitted maxDepth s i).proceeds)
      rw [List.length_range] at hcount
      exact Nat.le_trans (Nat.succ_le_succ hcount) (lt_length_of_proceeds hproceeds)
    · rw [if_neg hproceeds]
      exact ih

/-- What holds of any number of calls of `next`. -/
structure Terminates (maxDepth : Nat) (s : Bytes) : Prop where
  pos_le : ∀ n, (afterCalls maxDepth s n).pos ≤ s.length
  pos_lt : ∀ n, (emitted maxDepth s n).proceeds = true →
    (afterCalls maxDepth s n).pos < (afterCalls maxDepth s (n + 1)).pos
  depth_le : ∀ n, (afterCalls maxDepth s n).stack.length ≤ maxDepth
  /-- A frame is opened only below `MaxDepth`, and only an open one is closed. -/
  depth : ∀ n, DepthMove maxDepth (afterCalls maxDepth s n).stack.length (emitted maxDepth s n).type
    (afterCalls maxDepth s (n + 1)).stack.length
  events_le : ∀ n, (List.range n).countP (fun i => (emitted maxDepth s i).proceeds) ≤ s.length
  stops : ∃ n ≤ s.length, (emitted maxDepth s n).proceeds = false
  done : ∀ n, (afterCalls maxDepth s (n + 1)).done = !(emitted maxDepth s n).proceeds
  failed : ∀ n, (afterCalls maxDepth s (n + 1)).failed = ((emitted maxDepth s n).type == .error)
  /-- The same token, and the whole parser unchanged. -/
  latches : ∀ n m, (emitted maxDepth s n).proceeds = false → n ≤ m →
    emitted maxDepth s m = emitted maxDepth s n ∧
      afterCalls maxDepth s (m + 1) = afterCalls maxDepth s (n + 1)

theorem depth_move (maxDepth : Nat) (s : Bytes) (n : Nat) :
    DepthMove maxDepth (afterCalls maxDepth s n).stack.length (emitted maxDepth s n).type
      (afterCalls maxDepth s (n + 1)).stack.length := by
  by_cases hrun : (afterCalls maxDepth s n).state = .running
  · exact (advance_after hrun).depth
  · rw [emitted, afterCalls, next_of_done hrun]
    cases (afterCalls maxDepth s n).state <;> rfl

theorem state_eq (maxDepth : Nat) (s : Bytes) (n : Nat) :
    (afterCalls maxDepth s (n + 1)).state = stateAfter (emitted maxDepth s n).type := by
  by_cases hrun : (afterCalls maxDepth s n).state = .running
  · exact (advance_after hrun).state
  · rw [emitted, afterCalls, next_of_done hrun]
    dsimp only
    cases hstate : (afterCalls maxDepth s n).state with
    | running => exact absurd hstate hrun
    | finished | errored => rfl

/-- **`JsonParser` always terminates and latches.** -/
theorem terminates (maxDepth : Nat) (s : Bytes) : Terminates maxDepth s where
  pos_le := fun n => (sane_after maxDepth s n).le
  pos_lt := fun n h => (advance_after (running_of_proceeds h)).lt h
  depth_le := fun n => (sane_after maxDepth s n).depth
  depth := depth_move maxDepth s
  events_le := countP_proceeds_le
  stops := by
    refine ⟨s.length, Nat.le_refl _, ?_⟩
    by_contra hproceeds
    rw [Bool.not_eq_false] at hproceeds
    exact absurd (lt_length_of_proceeds hproceeds) (Nat.lt_irrefl _)
  done := by
    intro n
    rw [JsonParser.done, state_eq, JsonEvent.proceeds]
    cases (emitted maxDepth s n).type <;> rfl
  failed := by
    intro n
    rw [JsonParser.failed, state_eq]
    cases (emitted maxDepth s n).type <;> rfl
  latches := fun _ _ h hle => latched h hle

/-- The digit after the point is missing. -/
example : (afterCalls 1 [openBracket, zero, point] 2).errorOffset = 3 := by decide

end Json

end EglUtil
