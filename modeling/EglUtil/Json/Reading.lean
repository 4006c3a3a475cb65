import EglUtil.Json.Grammar

/-!
# Reading a document from left to right

A reader of JSON that has come as far as some prefix of the text stands at a `Point`: in a slot
where a value is wanted, inside an array or an object, or behind the whole value. The containers
around it are holes, innermost first, and hold what was read of them so far. `Reads maxDepth p b`
says that the bytes `b` can be read up to `p`, never with more than `maxDepth` containers open.

* `Reads.document`: what has been read up to the end is a document;
* `Reads.viable`: from every point the text can be completed to a document, and the events of the
  point are the first events of that document.
-/

namespace EglUtil

namespace Json

/-! ## Points -/

/-- A container that is open around a value. -/
inductive Hole where
  | array (es : Elements)
  | member (ms : Members) (key : Bytes)

inductive Point where
  /-- A value is wanted here. -/
  | slot (holes : List Hole)
  | array (es : Elements) (holes : List Hole)
  | object (ms : Members) (holes : List Hole)
  | done (v : Value)

/-- Put the value where it was wanted. -/
def plug (v : Value) : List Hole → Point
  | [] => .done v
  | .array es :: holes => .array (.snoc es v) holes
  | .member ms key :: holes => .object (.snoc ms key v) holes

def Elements.nonempty : Elements → Bool
  | .nil => false
  | .snoc _ _ => true

def Members.nonempty : Members → Bool
  | .nil => false
  | .snoc _ _ _ => true

/-- What stands between two elements or members. -/
def separator (seen : Bool) : Bytes := if seen then [comma] else []

inductive Reads (maxDepth : Nat) : Point → Bytes → Prop where
  | start : Reads maxDepth (.slot []) []
  | space {p : Point} {b w : Bytes} (h : Reads maxDepth p b) (hw : Whitespace w) :
      Reads maxDepth p (b ++ w)
  | value {holes : List Hole} {v : Value} {b c : Bytes} (h : Reads maxDepth (.slot holes) b)
      (hv : Derives (.value v) c) (hd : v.depth + holes.length ≤ maxDepth) :
      Reads maxDepth (plug v holes) (b ++ c)
  | openArray {holes : List Hole} {b : Bytes} (h : Reads maxDepth (.slot holes) b)
      (hd : holes.length < maxDepth) : Reads maxDepth (.array .nil holes) (b ++ [openBracket])
  | openObject {holes : List Hole} {b : Bytes} (h : Reads maxDepth (.slot holes) b)
      (hd : holes.length < maxDepth) : Reads maxDepth (.object .nil holes) (b ++ [openBrace])
  | element {es : Elements} {holes : List Hole} {b : Bytes}
      (h : Reads maxDepth (.array es holes) b) :
      Reads maxDepth (.slot (.array es :: holes)) (b ++ separator es.nonempty)
  | member {ms : Members} {holes : List Hole} {k b a : Bytes}
      (h : Reads maxDepth (.object ms holes) b) (hk : KeyColon k a) :
      Reads maxDepth (.slot (.member ms k :: holes)) (b ++ (separator ms.nonempty ++ a))
  | closeArray {es : Elements} {holes : List Hole} {b : Bytes}
      (h : Reads maxDepth (.array es holes) b) :
      Reads maxDepth (plug (.array es) holes) (b ++ [closeBracket])
  | closeObject {ms : Members} {holes : List Hole} {b : Bytes}
      (h : Reads maxDepth (.object ms holes) b) :
      Reads maxDepth (plug (.object ms) holes) (b ++ [closeBrace])

/-! ## Whitespace -/

theorem Whitespace.append {w w' : Bytes} (hw : Whitespace w) (hw' : Whitespace w') :
    Whitespace (w ++ w') := by
  intro c hc
  rcases List.mem_append.1 hc with hc | hc
  · exact hw c hc
  · exact hw' c hc

theorem whitespace_nil : Whitespace [] := nofun

theorem Derives.element_of_value {v : Value} {b : Bytes} (hv : Derives (.value v) b) :
    Derives (.element v) b := by
  simpa using Derives.element whitespace_nil hv whitespace_nil

theorem Derives.element_space {v : Value} {w b w' : Bytes} (hw : Whitespace w)
    (h : Derives (.element v) b) (hw' : Whitespace w') : Derives (.element v) (w ++ (b ++ w')) := by
  cases h with
  | @element _ w₁ c w₂ hw₁ hv hw₂ =>
    simpa using Derives.element (hw.append hw₁) hv (hw₂.append hw')

theorem Derives.elements_space {es : Elements} {b w : Bytes} (h : Derives (.elements es) b)
    (hw : Whitespace w) : Derives (.elements es) (b ++ w) := by
  cases h with
  | noElements hb => exact .noElements (hb.append hw)
  | firstElement hv => exact .firstElement (hv.element_space whitespace_nil hw)
  | @nextElement es u v b b' hes hv =>
    rw [List.append_assoc]
    exact .nextElement hes (hv.element_space whitespace_nil hw)

theorem Derives.members_space {ms : Members} {b w : Bytes} (h : Derives (.members ms) b)
    (hw : Whitespace w) : Derives (.members ms) (b ++ w) := by
  cases h with
  | noMembers hb => exact .noMembers (hb.append hw)
  | firstMember hk hv =>
    rw [List.append_assoc]
    exact .firstMember hk (hv.element_space whitespace_nil hw)
  | @nextMember ms j k u v b a b' hms hk hv =>
    rw [List.append_assoc, List.cons_append, List.append_assoc]
    exact .nextMember hms hk (hv.element_space whitespace_nil hw)

theorem KeyColon.space {k w a : Bytes} (hw : Whitespace w) (hk : KeyColon k a) :
    KeyColon k (w ++ a) := by
  obtain ⟨w₁, w₂, hw₁, hchars, hw₂, rfl⟩ := hk
  exact ⟨w ++ w₁, w₂, hw.append hw₁, hchars, hw₂, (List.append_assoc _ _ _).symm⟩

/-! ## What was read is a document -/

/-- Any value after `b` makes one more element. -/
def WantsElement (es : Elements) (b : Bytes) : Prop :=
  ∀ v c, Derives (.element v) c → Derives (.elements (.snoc es v)) (b ++ c)

def WantsMember (ms : Members) (k b : Bytes) : Prop :=
  ∀ v c, Derives (.element v) c → Derives (.members (.snoc ms k v)) (b ++ c)

/-- The bytes of the holes: for each of them the opening byte and what was read of it. -/
def HolesSpell : List Hole → Bytes → Prop
  | [], b => Whitespace b
  | .array es :: holes, b =>
    ∃ a c, b = a ++ openBracket :: c ∧ HolesSpell holes a ∧ WantsElement es c
  | .member ms k :: holes, b =>
    ∃ a c, b = a ++ openBrace :: c ∧ HolesSpell holes a ∧ WantsMember ms k c

def PointSpells : Point → Bytes → Prop
  | .slot holes, b => HolesSpell holes b
  | .array es holes, b =>
    ∃ a c, b = a ++ openBracket :: c ∧ HolesSpell holes a ∧ Derives (.elements es) c
  | .object ms holes, b =>
    ∃ a c, b = a ++ openBrace :: c ∧ HolesSpell holes a ∧ Derives (.members ms) c
  | .done v, b => Document v b

theorem HolesSpell.space {holes : List Hole} {b w : Bytes} (h : HolesSpell holes b)
    (hw : Whitespace w) : HolesSpell holes (b ++ w) := by
  match holes, h with
  | [], h => exact Whitespace.append h hw
  | .array es :: holes, ⟨a, c, hb, ha, hc⟩ =>
    refine ⟨a, c ++ w, by rw [hb, List.append_assoc, List.cons_append], ha, ?_⟩
    intro v d hd
    rw [List.append_assoc]
    exact hc v _ (by simpa using hd.element_space hw whitespace_nil)
  | .member ms k :: holes, ⟨a, c, hb, ha, hc⟩ =>
    refine ⟨a, c ++ w, by rw [hb, List.append_assoc, List.cons_append], ha, ?_⟩
    intro v d hd
    rw [List.append_assoc]
    exact hc v _ (by simpa using hd.element_space hw whitespace_nil)

theorem PointSpells.space {p : Point} {b w : Bytes} (h : PointSpells p b) (hw : Whitespace w) :
    PointSpells p (b ++ w) := by
  match p, h with
  | .slot holes, h => exact HolesSpell.space h hw
  | .array es holes, ⟨a, c, hb, ha, hc⟩ =>
    exact ⟨a, c ++ w, by rw [hb, List.append_assoc, List.cons_append], ha, hc.elements_space hw⟩
  | .object ms holes, ⟨a, c, hb, ha, hc⟩ =>
    exact ⟨a, c ++ w, by rw [hb, List.append_assoc, List.cons_append], ha, hc.members_space hw⟩
  | .done v, h => exact Derives.element_space whitespace_nil h hw

/-- A value closes the innermost hole. -/
theorem HolesSpell.plug {holes : List Hole} {v : Value} {b c : Bytes} (h : HolesSpell holes b)
    (hv : Derives (.value v) c) : PointSpells (plug v holes) (b ++ c) := by
  match holes, h with
  | [], h =>
    have hdoc := Derives.element h hv whitespace_nil
    rwa [List.append_nil] at hdoc
  | .array es :: holes, ⟨a, d, hb, ha, hd⟩ =>
    refine ⟨a, d ++ c, by rw [hb, List.append_assoc, List.cons_append], ha, ?_⟩
    exact hd v c hv.element_of_value
  | .member ms k :: holes, ⟨a, d, hb, ha, hd⟩ =>
    refine ⟨a, d ++ c, by rw [hb, List.append_assoc, List.cons_append], ha, ?_⟩
    exact hd v c hv.element_of_value

theorem Derives.wantsElement {es : Elements} {b : Bytes} (h : Derives (.elements es) b) :
    WantsElement es (b ++ separator es.nonempty) := by
  intro v c hv
  cases h with
  | noElements hw =>
    rw [separator, Elements.nonempty, if_neg (by decide), List.append_nil]
    exact .firstElement (by simpa using hv.element_space hw whitespace_nil)
  | firstElement hu =>
    rw [List.append_assoc]
    exact .nextElement (.firstElement hu) hv
  | nextElement hes hu =>
    rw [List.append_assoc]
    exact .nextElement (.nextElement hes hu) hv

theorem Derives.wantsMember {ms : Members} {k b a : Bytes} (h : Derives (.members ms) b)
    (hk : KeyColon k a) : WantsMember ms k (b ++ (separator ms.nonempty ++ a)) := by
  intro v c hv
  rw [List.append_assoc, List.append_assoc]
  cases h with
  | noMembers hw =>
    rw [separator, Members.nonempty, if_neg (by decide), List.nil_append, ← List.append_assoc]
    exact .firstMember (hk.space hw) hv
  | firstMember hj hu =>
    show Derives _ (_ ++ comma :: (a ++ c))
    exact .nextMember (.firstMember hj hu) hk hv
  | nextMember hms hj hu =>
    show Derives _ (_ ++ comma :: (a ++ c))
    exact .nextMember (.nextMember hms hj hu) hk hv

theorem Reads.spells {maxDepth : Nat} {p : Point} {b : Bytes} (h : Reads maxDepth p b) :
    PointSpells p b := by
  induction h with
  | start => exact whitespace_nil
  | space _ hw ih => exact ih.space hw
  | value _ hv _ ih => exact HolesSpell.plug ih hv
  | openArray _ _ ih => exact ⟨_, [], rfl, ih, .noElements whitespace_nil⟩
  | openObject _ _ ih => exact ⟨_, [], rfl, ih, .noMembers whitespace_nil⟩
  | element _ ih =>
    obtain ⟨a, c, rfl, ha, hc⟩ := ih
    exact ⟨a, _, by rw [List.append_assoc, List.cons_append], ha, hc.wantsElement⟩
  | member _ hk ih =>
    obtain ⟨a, c, rfl, ha, hc⟩ := ih
    exact ⟨a, _, by rw [List.append_assoc, List.cons_append], ha, hc.wantsMember hk⟩
  | closeArray _ ih =>
    obtain ⟨a, c, rfl, ha, hc⟩ := ih
    rw [List.append_assoc, List.cons_append]
    exact HolesSpell.plug ha (.array hc)
  | closeObject _ ih =>
    obtain ⟨a, c, rfl, ha, hc⟩ := ih
    rw [List.append_assoc, List.cons_append]
    exact HolesSpell.plug ha (.object hc)

/-- **Soundness.** What has been read up to the end is a document. -/
theorem Reads.document {maxDepth : Nat} {v : Value} {b : Bytes} (h : Reads maxDepth (.done v) b) :
    Document v b :=
  h.spells

/-! ## Nesting -/

/-- What is in the holes is nested no deeper than allowed. -/
def HolesFit (maxDepth : Nat) : List Hole → Prop
  | [] => True
  | .array es :: holes => es.depth + holes.length < maxDepth ∧ HolesFit maxDepth holes
  | .member ms _ :: holes => ms.depth + holes.length < maxDepth ∧ HolesFit maxDepth holes

def PointFits (maxDepth : Nat) : Point → Prop
  | .slot holes => HolesFit maxDepth holes
  | .array es holes => es.depth + holes.length < maxDepth ∧ HolesFit maxDepth holes
  | .object ms holes => ms.depth + holes.length < maxDepth ∧ HolesFit maxDepth holes
  | .done v => v.depth ≤ maxDepth

theorem HolesFit.plug {maxDepth : Nat} {holes : List Hole} {v : Value}
    (h : HolesFit maxDepth holes) (hv : v.depth + holes.length ≤ maxDepth) :
    PointFits maxDepth (plug v holes) := by
  match holes, h with
  | [], _ => exact hv
  | .array es :: holes, ⟨hes, hholes⟩ =>
    refine ⟨?_, hholes⟩
    rw [Elements.depth, Nat.add_comm, ← Nat.lt_sub_iff_add_lt', Nat.max_lt]
    simp only [List.length_cons] at hv
    omega
  | .member ms k :: holes, ⟨hms, hholes⟩ =>
    refine ⟨?_, hholes⟩
    rw [Members.depth, Nat.add_comm, ← Nat.lt_sub_iff_add_lt', Nat.max_lt]
    simp only [List.length_cons] at hv
    omega

theorem HolesFit.length_le {maxDepth : Nat} {holes : List Hole} (h : HolesFit maxDepth holes) :
    holes.length ≤ maxDepth := by
  match holes, h with
  | [], _ => exact Nat.zero_le _
  | .array es :: holes, ⟨hes, _⟩ => exact Nat.lt_of_le_of_lt (Nat.le_add_left _ _) hes
  | .member ms k :: holes, ⟨hms, _⟩ => exact Nat.lt_of_le_of_lt (Nat.le_add_left _ _) hms

theorem Reads.fits {maxDepth : Nat} {p : Point} {b : Bytes} (h : Reads maxDepth p b) :
    PointFits maxDepth p := by
  induction h with
  | start => exact trivial
  | space _ _ ih => exact ih
  | value _ _ hd ih => exact HolesFit.plug ih hd
  | openArray _ hd ih => exact ⟨by rwa [Elements.depth, Nat.zero_add], ih⟩
  | openObject _ hd ih => exact ⟨by rwa [Members.depth, Nat.zero_add], ih⟩
  | element _ ih => exact ih
  | member _ _ ih => exact ih
  | closeArray _ ih => exact HolesFit.plug ih.2 (by rw [Value.depth]; have := ih.1; omega)
  | closeObject _ ih => exact HolesFit.plug ih.2 (by rw [Value.depth]; have := ih.1; omega)

/-! ## Events -/

def Hole.events : Hole → List JsonEvent
  | .array es => ⟨.beginArray, []⟩ :: es.events
  | .member ms k => ⟨.beginObject, []⟩ :: (ms.events ++ [⟨.key, k⟩])

def holesEvents : List Hole → List JsonEvent
  | [] => []
  | hole :: holes => holesEvents holes ++ hole.events

/-- What has been announced of the tree so far. -/
def Point.events : Point → List JsonEvent
  | .slot holes => holesEvents holes
  | .array es holes => holesEvents holes ++ ⟨.beginArray, []⟩ :: es.events
  | .object ms holes => holesEvents holes ++ ⟨.beginObject, []⟩ :: ms.events
  | .done v => v.events

theorem events_plug (v : Value) (holes : List Hole) :
    (plug v holes).events = holesEvents holes ++ v.events := by
  match holes with
  | [] => rfl
  | .array es :: holes =>
    simp [plug, Point.events, holesEvents, Hole.events, Elements.events]
  | .member ms k :: holes =>
    simp [plug, Point.events, holesEvents, Hole.events, Members.events]

theorem events_closeArray (es : Elements) (holes : List Hole) :
    (plug (.array es) holes).events = (Point.array es holes).events ++ [⟨.endArray, []⟩] := by
  rw [events_plug]
  simp [Point.events, Value.events]

theorem events_closeObject (ms : Members) (holes : List Hole) :
    (plug (.object ms) holes).events = (Point.object ms holes).events ++ [⟨.endObject, []⟩] := by
  rw [events_plug]
  simp [Point.events, Value.events]

theorem events_member (ms : Members) (k : Bytes) (holes : List Hole) :
    (Point.slot (.member ms k :: holes)).events =
      (Point.object ms holes).events ++ [⟨.key, k⟩] := by
  simp [Point.events, holesEvents, Hole.events]

/-! ## Every point can be completed -/

/-- A document that starts with the bytes `b` and whose events start with `es`. -/
def Completable (maxDepth : Nat) (b : Bytes) (es : List JsonEvent) : Prop :=
  ∃ t v, Document v (b ++ t) ∧ v.depth ≤ maxDepth ∧ es <+: v.events

theorem Completable.of_append {maxDepth : Nat} {b c : Bytes} {es fs : List JsonEvent}
    (h : Completable maxDepth (b ++ c) (es ++ fs)) : Completable maxDepth b es := by
  obtain ⟨t, v, hdoc, hd, hes⟩ := h
  exact ⟨c ++ t, v, by rwa [← List.append_assoc], hd, (List.prefix_append _ _).trans hes⟩

/-- A reader that has just read a value closes one container after the other. -/
theorem Reads.plug_completable {maxDepth : Nat} {holes : List Hole} {v : Value} {b : Bytes}
    (h : Reads maxDepth (plug v holes) b) : Completable maxDepth b (plug v holes).events := by
  induction holes generalizing v b with
  | nil => exact ⟨[], v, by simpa using h.document, h.fits, List.prefix_rfl⟩
  | cons hole holes ih =>
    cases hole with
    | array es =>
      have hclose := ih h.closeArray
      rw [events_closeArray] at hclose
      exact hclose.of_append
    | member ms k =>
      have hclose := ih h.closeObject
      rw [events_closeObject] at hclose
      exact hclose.of_append

/-- **Viability.** From every point the text can be completed. -/
theorem Reads.viable {maxDepth : Nat} {p : Point} {b : Bytes} (h : Reads maxDepth p b) :
    Completable maxDepth b p.events := by
  match p, h with
  | .slot holes, h =>
    -- a scalar does for any value that is wanted
    have hd : Value.null.depth + holes.length ≤ maxDepth := by
      simpa [Value.depth] using HolesFit.length_le h.fits
    have hnull := (h.value .null hd).plug_completable
    rw [events_plug] at hnull
    exact hnull.of_append
  | .array es holes, h =>
    have hclose := h.closeArray.plug_completable
    rw [events_closeArray] at hclose
    exact hclose.of_append
  | .object ms holes, h =>
    have hclose := h.closeObject.plug_completable
    rw [events_closeObject] at hclose
    exact hclose.of_append
  | .done v, h => exact ⟨[], v, by simpa using h.document, h.fits, List.prefix_rfl⟩

end Json

end EglUtil
