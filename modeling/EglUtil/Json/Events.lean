import EglUtil.Lib.Runs
import EglUtil.Json.Reading

/-!
# What a consumer can tell from the events

A consumer can build the tree again while the events come in (`feed`), so the events of a tree
determine it (`events_injective`). What it needs to know at each event is only what is open, so
the events of a tree, and their first events, are well nested (`WellNested`): brackets match, and
a key comes right before the value of each member and nowhere else.
-/

namespace EglUtil

namespace Json

open Transition

/-! ## Each event costs a byte -/

def Phrase.events : Phrase → List JsonEvent
  | .value v => v.events
  | .element v => v.events
  | .elements els => els.events
  | .members ms => ms.events

theorem KeyColon.length_pos {k a : Bytes} (hk : KeyColon k a) : 0 < a.length := by
  obtain ⟨w, w', -, -, -, rfl⟩ := hk
  simp only [List.length_append, List.length_cons]
  omega

theorem Number.length_pos {l : Bytes} (hl : Number l) : 0 < l.length := by
  obtain ⟨sign, int, frac, exp, rfl, -, hint, -⟩ := hl
  simp only [List.length_append]
  rcases hint with rfl | ⟨d, ds, rfl, -⟩
  · simp only [List.length_singleton]
    omega
  · simp only [List.length_cons]
    omega

theorem Derives.length_events_le {ph : Phrase} {b : Bytes} (h : Derives ph b) :
    ph.events.length ≤ b.length := by
  induction h with
  | null => decide
  | boolean b => cases b <;> decide
  | number hl => exact hl.length_pos
  | string _ => simp [Phrase.events, Value.events]
  | array _ ih => simpa [Phrase.events, Value.events] using ih
  | object _ ih => simpa [Phrase.events, Value.events] using ih
  | element _ _ _ ih =>
    simp only [Phrase.events, List.length_append] at ih ⊢
    omega
  | noElements _ => exact Nat.zero_le _
  | firstElement _ ih => simpa [Phrase.events, Elements.events] using ih
  | nextElement _ _ ihs ih =>
    simp only [Phrase.events, Elements.events, List.length_append, List.length_cons] at ihs ih ⊢
    omega
  | noMembers _ => exact Nat.zero_le _
  | firstMember hk _ ih =>
    have := hk.length_pos
    simp only [Phrase.events, Members.events, List.length_append, List.length_cons,
      List.length_nil] at ih ⊢
    omega
  | nextMember _ hk _ ihs ih =>
    have := hk.length_pos
    simp only [Phrase.events, Members.events, List.length_append, List.length_cons] at ihs ih ⊢
    omega

theorem Reads.length_events_le {maxDepth : Nat} {q : Point} {b : Bytes} (h : Reads maxDepth q b) :
    q.events.length ≤ b.length := by
  induction h with
  | start => exact Nat.le_refl _
  | space _ _ ih => exact Nat.le_trans ih (by simp)
  | value _ hv _ ih =>
    rw [events_plug, List.length_append, List.length_append]
    exact Nat.add_le_add ih hv.length_events_le
  | openArray _ _ ih => simpa [Point.events, Elements.events] using ih
  | openObject _ _ ih => simpa [Point.events, Members.events] using ih
  | element _ ih =>
    refine Nat.le_trans ih ?_
    simp
  | member _ hk ih =>
    have hpos := hk.length_pos
    simp only [events_member, List.length_append, List.length_singleton]
    omega
  | closeArray _ ih =>
    rw [events_closeArray, List.length_append, List.length_append]
    exact Nat.add_le_add_right ih 1
  | closeObject _ ih =>
    rw [events_closeObject, List.length_append, List.length_append]
    exact Nat.add_le_add_right ih 1

/-! ## Building the tree again -/

/-- The holes around the next value, where one may come. -/
def Point.wants : Point → Option (List Hole)
  | .slot holes => some holes
  | .array els holes => some (.array els :: holes)
  | _ => none

/-- What is known of the tree after one more event. -/
def feed (q : Point) (e : JsonEvent) : Option Point :=
  match e.type with
  | .nullValue => q.wants.map (plug .null)
  | .boolean => q.wants.map (plug (.boolean (e.text == booleanBytes true)))
  | .number => q.wants.map (plug (.number e.text))
  | .string => q.wants.map (plug (.string e.text))
  | .beginArray => q.wants.map (.array .nil)
  | .beginObject => q.wants.map (.object .nil)
  | .key =>
    match q with
    | .object ms holes => some (.slot (.member ms e.text :: holes))
    | _ => none
  | .endArray =>
    match q with
    | .array els holes => some (plug (.array els) holes)
    | _ => none
  | .endObject =>
    match q with
    | .object ms holes => some (plug (.object ms) holes)
    | _ => none
  | .end => none
  | .error => none

mutual

theorem run_feed_value (v : Value) {q : Point} {holes : List Hole} (hq : q.wants = some holes) :
    run feed q v.events = some (plug v holes) := by
  match v with
  | .null => simp [Value.events, run_cons, feed, hq]
  | .boolean true => simp [Value.events, run_cons, feed, hq]
  | .boolean false => simp [Value.events, run_cons, feed, hq, booleanBytes]
  | .number l => simp [Value.events, run_cons, feed, hq]
  | .string raw => simp [Value.events, run_cons, feed, hq]
  | .array els =>
    simp [Value.events, run_cons, feed, hq, run_append, run_feed_elements els holes]
  | .object ms =>
    simp [Value.events, run_cons, feed, hq, run_append, run_feed_members ms holes]

theorem run_feed_elements (els : Elements) (holes : List Hole) :
    run feed (.array .nil holes) els.events = some (.array els holes) := by
  match els with
  | .nil => rfl
  | .snoc els v =>
    rw [Elements.events, run_append, run_feed_elements els holes]
    exact run_feed_value v (q := .array els holes) rfl

theorem run_feed_members (ms : Members) (holes : List Hole) :
    run feed (.object .nil holes) ms.events = some (.object ms holes) := by
  match ms with
  | .nil => rfl
  | .snoc ms k v =>
    rw [Members.events, run_append, run_feed_members ms holes]
    exact run_feed_value v (q := .slot (.member ms k :: holes)) rfl

end

/-- **The events determine the tree.** -/
theorem events_injective {v v' : Value} (h : v.events = v'.events) : v = v' := by
  have hv := run_feed_value v (q := .slot []) rfl
  rw [h, run_feed_value v' (q := .slot []) rfl] at hv
  cases hv
  rfl

/-! ## Nesting -/

/-- What is open: the document that still lacks its value, an array, an object, or an object whose
last event was a key. -/
inductive Open where
  | document
  | array
  | object
  | member
deriving Repr, DecidableEq

/-- A value comes. It is wanted in the document, in an array, and right behind a key. -/
def fill : List Open → Option (List Open)
  | .document :: opens => some opens
  | .array :: opens => some (.array :: opens)
  | .member :: opens => some (.object :: opens)
  | _ => none

/-- The brackets and keys of an event stream, innermost first. -/
def nest (opens : List Open) : JsonToken → Option (List Open)
  | .nullValue | .boolean | .number | .string => fill opens
  | .beginArray => (fill opens).map (.array :: ·)
  | .beginObject => (fill opens).map (.object :: ·)
  | .key =>
    match opens with
    | .object :: opens => some (.member :: opens)
    | _ => none
  | .endArray =>
    match opens with
    | .array :: opens => some opens
    | _ => none
  | .endObject =>
    match opens with
    | .object :: opens => some opens
    | _ => none
  | .end | .error => none

/-- The first events of a well-bracketed stream with one key before the value of each member. -/
def WellNested (es : List JsonEvent) : Prop :=
  ∃ opens, run nest [.document] (es.map (·.type)) = some opens

def Hole.opens : Hole → Open
  | .array _ => .array
  | .member _ _ => .object

def Point.opens : Point → List Open
  | .slot [] => [.document]
  | .slot (.array _ :: holes) => .array :: holes.map Hole.opens
  | .slot (.member _ _ :: holes) => .member :: holes.map Hole.opens
  | .array _ holes => .array :: holes.map Hole.opens
  | .object _ holes => .object :: holes.map Hole.opens
  | .done _ => []

theorem opens_plug (v : Value) (holes : List Hole) :
    (plug v holes).opens = holes.map Hole.opens := by
  match holes with
  | [] => rfl
  | .array _ :: _ => rfl
  | .member _ _ :: _ => rfl

theorem fill_opens {q : Point} {holes : List Hole} (h : q.wants = some holes) :
    fill q.opens = some (holes.map Hole.opens) := by
  match q, h with
  | .slot [], h => cases h; rfl
  | .slot (.array _ :: _), h => cases h; rfl
  | .slot (.member _ _ :: _), h => cases h; rfl
  | .array _ _, h => cases h; rfl

/-- Where the tree can be built on, the brackets match. -/
theorem nest_opens {q q' : Point} {e : JsonEvent} (h : feed q e = some q') :
    nest q.opens e.type = some q'.opens := by
  obtain ⟨token, text⟩ := e
  have scalar {v : Value} (hv : q.wants.map (plug v) = some q') : fill q.opens = some q'.opens := by
    obtain ⟨holes, hq, rfl⟩ := Option.map_eq_some_iff.1 hv
    rw [fill_opens hq, opens_plug]
  cases token with
  | nullValue => exact scalar h
  | boolean => exact scalar h
  | number => exact scalar h
  | string => exact scalar h
  | beginArray =>
    obtain ⟨holes, hq, rfl⟩ := Option.map_eq_some_iff.1 h
    rw [nest, fill_opens hq]
    rfl
  | beginObject =>
    obtain ⟨holes, hq, rfl⟩ := Option.map_eq_some_iff.1 h
    rw [nest, fill_opens hq]
    rfl
  | key =>
    match q, h with
    | .object ms holes, h => cases h; rfl
  | endArray =>
    match q, h with
    | .array els holes, h =>
      cases h
      rw [opens_plug]
      rfl
  | endObject =>
    match q, h with
    | .object ms holes, h =>
      cases h
      rw [opens_plug]
      rfl
  | «end» => cases h
  | error => cases h

theorem run_nest_opens {q q' : Point} {es : List JsonEvent} (h : run feed q es = some q') :
    run nest q.opens (es.map (·.type)) = some q'.opens := by
  induction es generalizing q with
  | nil =>
    cases h
    rfl
  | cons e es ih =>
    obtain ⟨q₁, hq₁, hrun⟩ := (run_cons_eq_some feed).1 h
    exact (run_cons_eq_some nest).2 ⟨_, nest_opens hq₁, ih hrun⟩

/-- **Nesting.** The first events of a tree are well nested. -/
theorem wellNested_of_prefix {v : Value} {es : List JsonEvent} (h : es <+: v.events) :
    WellNested es := by
  obtain ⟨fs, hfs⟩ := h
  have hv := run_feed_value v (q := .slot []) rfl
  rw [← hfs, run_append] at hv
  obtain ⟨q, hq, -⟩ := Option.bind_eq_some_iff.1 hv
  exact ⟨_, run_nest_opens hq⟩

end Json

end EglUtil
