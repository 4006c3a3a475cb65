import EglUtil.Json.Numbers
import EglUtil.Json.Texts

/-!
# A document as data

A consumer calls `next` until it ends, converts each event with `to_bool`, `to_number` and
`decode_string`, and puts what it gets into the innermost container that is open (`read`).

**Theorem (`read_eq_some_iff`).** For every integer type and nesting limit, the consumer ends with
the data `d` exactly if the source is a document that spells `d` and `d` is nested no deeper than
allowed: any whitespace, any spelling of the strings and keys. It ends with nothing where the
source is no document, or a number is no integer of the type, or a string has an unpaired
surrogate. All data whose integers the type holds can be written and are read back.

The consumer loads what a walk over the tree would load (`run_consume_value`), and the walk loads
what the tree means (`Derives.loads`).
-/

namespace EglUtil

namespace Json

open Transition

/-! ## Data -/

inductive Data where
  | null
  | boolean (b : Bool)
  | integer (value : Int)
  | string (text : Bytes)
  | array (items : List Data)
  /-- The members in the order of the text; a key may come twice. -/
  | object (members : List (Bytes × Data))

mutual

def Data.depth : Data → Nat
  | .array items => depthItems items + 1
  | .object members => depthMembers members + 1
  | .null | .boolean _ | .integer _ | .string _ => 0

def depthItems : List Data → Nat
  | [] => 0
  | d :: items => max d.depth (depthItems items)

def depthMembers : List (Bytes × Data) → Nat
  | [] => 0
  | (_, d) :: members => max d.depth (depthMembers members)

end

mutual

/-- The type has all the integers. -/
def Data.Held (I : IntegerType) : Data → Prop
  | .integer value => I.Holds value
  | .array items => heldItems I items
  | .object members => heldMembers I members
  | .null | .boolean _ | .string _ => True

def heldItems (I : IntegerType) : List Data → Prop
  | [] => True
  | d :: items => d.Held I ∧ heldItems I items

def heldMembers (I : IntegerType) : List (Bytes × Data) → Prop
  | [] => True
  | (_, d) :: members => d.Held I ∧ heldMembers I members

end

/-! ## What a tree means -/

/-- The literal spells the value of the type. -/
def Numeral (I : IntegerType) (value : Int) (literal : Bytes) : Prop :=
  I.Holds value ∧
    (literal = numberText value ∨ literal = [minus, zero] ∧ value = 0 ∧ I.signed = true)

mutual

inductive Means (I : IntegerType) : Value → Data → Prop where
  | null : Means I .null .null
  | boolean (b : Bool) : Means I (.boolean b) (.boolean b)
  | integer {value : Int} {l : Bytes} (h : Numeral I value l) : Means I (.number l) (.integer value)
  | string {text raw : Bytes} (h : Text text raw) : Means I (.string raw) (.string text)
  | array {es : Elements} {items : List Data} (h : MeansItems I es items) :
      Means I (.array es) (.array items)
  | object {ms : Members} {members : List (Bytes × Data)} (h : MeansMembers I ms members) :
      Means I (.object ms) (.object members)

inductive MeansItems (I : IntegerType) : Elements → List Data → Prop where
  | nil : MeansItems I .nil []
  | snoc {es : Elements} {v : Value} {items : List Data} {d : Data} (h : MeansItems I es items)
      (hv : Means I v d) : MeansItems I (.snoc es v) (items ++ [d])

inductive MeansMembers (I : IntegerType) : Members → List (Bytes × Data) → Prop where
  | nil : MeansMembers I .nil []
  | snoc {ms : Members} {k : Bytes} {v : Value} {members : List (Bytes × Data)} {key : Bytes}
      {d : Data} (h : MeansMembers I ms members) (hk : Text key k) (hv : Means I v d) :
      MeansMembers I (.snoc ms k v) (members ++ [(key, d)])

end

/-- The document spells the data. -/
def Data.Spelled (I : IntegerType) (d : Data) (s : Bytes) : Prop :=
  ∃ v, Document v s ∧ Means I v d

/-! ## The consumer -/

def toBool (literal : Bytes) : Bool := literal == booleanBytes true

/-- A container that is open: what was read of it, and the key whose value comes next. -/
inductive Building where
  | array (items : List Data)
  | object (members : List (Bytes × Data))
  | member (members : List (Bytes × Data)) (key : Bytes)

/-- The containers that are open, innermost first, until the document has its value. -/
inductive Consumer where
  | wanting (outer : List Building)
  | done (d : Data)

def put (d : Data) : List Building → Option Consumer
  | [] => some (.done d)
  | .array items :: outer => some (.wanting (.array (items ++ [d]) :: outer))
  | .member members key :: outer => some (.wanting (.object (members ++ [(key, d)]) :: outer))
  | .object _ :: _ => none

def close (bracket : JsonToken) : List Building → Option Consumer
  | .array items :: outer => if bracket = .endArray then put (.array items) outer else none
  | .object members :: outer => if bracket = .endObject then put (.object members) outer else none
  | _ => none

def openMember (key : Bytes) : List Building → Option Consumer
  | .object members :: outer => some (.wanting (.member members key :: outer))
  | _ => none

def consume (I : IntegerType) (c : Consumer) (e : JsonEvent) : Option Consumer :=
  match c with
  | .done _ => none
  | .wanting outer =>
    match e.type with
    | .nullValue => put .null outer
    | .boolean => put (.boolean (toBool e.text)) outer
    | .number => (toNumber I e.text).bind fun value => put (.integer value) outer
    | .string => (decodeString e.text).toOption.bind fun text => put (.string text) outer
    | .key => (decodeString e.text).toOption.bind fun key => openMember key outer
    | .beginArray => some (.wanting (.array [] :: outer))
    | .beginObject => some (.wanting (.object [] :: outer))
    | .endArray => close .endArray outer
    | .endObject => close .endObject outer
    | .end | .error => none

def Consumer.data? : Consumer → Option Data
  | .done d => some d
  | .wanting _ => none

/-- So many calls of `next`, up to the end of the document or the first error. -/
def readFrom (I : IntegerType) (maxDepth : Nat) : Nat → JsonParser → Consumer → Option Data
  | 0, _, _ => none
  | calls + 1, p, c =>
    let (e, p') := p.next maxDepth
    match e.type with
    | .end => c.data?
    | .error => none
    | _ => (consume I c e).bind (readFrom I maxDepth calls p')

/-- A document has fewer events than bytes, and then ends. -/
def read (I : IntegerType) (maxDepth : Nat) (s : Bytes) : Option Data :=
  readFrom I maxDepth (s.length + 1) (.create s) (.wanting [])

/-! ## A walk over the tree -/

mutual

def Value.load (I : IntegerType) : Value → Option Data
  | .null => some .null
  | .boolean b => some (.boolean b)
  | .number l => (toNumber I l).map .integer
  | .string raw => (decodeString raw).toOption.map .string
  | .array es => (es.load I).map .array
  | .object ms => (ms.load I).map .object

def Elements.load (I : IntegerType) : Elements → Option (List Data)
  | .nil => some []
  | .snoc es v => (es.load I).bind fun items => (v.load I).map fun d => items ++ [d]

def Members.load (I : IntegerType) : Members → Option (List (Bytes × Data))
  | .nil => some []
  | .snoc ms k v => (ms.load I).bind fun members =>
      (decodeString k).toOption.bind fun key => (v.load I).map fun d => members ++ [(key, d)]

end

section Loading

variable {I : IntegerType} {maxDepth : Nat}

theorem toBool_booleanBytes (b : Bool) : toBool (booleanBytes b) = b := by
  cases b <;> rfl

mutual

/-- **The consumer loads the tree.** -/
theorem run_consume_value (v : Value) (outer : List Building) :
    run (consume I) (.wanting outer) v.events = (v.load I).bind fun d => put d outer := by
  match v with
  | .null => simp [Value.events, Value.load, run_cons, consume]
  | .boolean b => simp [Value.events, Value.load, run_cons, consume, toBool_booleanBytes]
  | .number l => simp [Value.events, Value.load, run_cons, consume, Option.bind_map]
  | .string raw => simp [Value.events, Value.load, run_cons, consume, Option.bind_map]
  | .array es =>
    rw [Value.events, run_cons]
    show (run (consume I) (.wanting (.array [] :: outer)) (es.events ++ [⟨.endArray, []⟩])) = _
    rw [run_append, run_consume_elements es outer, Value.load]
    cases es.load I with
    | none => rfl
    | some items => exact Option.bind_fun_some (put (.array items) outer)
  | .object ms =>
    rw [Value.events, run_cons]
    show (run (consume I) (.wanting (.object [] :: outer)) (ms.events ++ [⟨.endObject, []⟩])) = _
    rw [run_append, run_consume_members ms outer, Value.load]
    cases ms.load I with
    | none => rfl
    | some members => exact Option.bind_fun_some (put (.object members) outer)

theorem run_consume_elements (es : Elements) (outer : List Building) :
    run (consume I) (.wanting (.array [] :: outer)) es.events =
      (es.load I).map fun items => .wanting (.array items :: outer) := by
  match es with
  | .nil => rfl
  | .snoc es v =>
    rw [Elements.events, run_append, run_consume_elements es outer, Elements.load]
    cases es.load I with
    | none => rfl
    | some items =>
      show run (consume I) (.wanting (.array items :: outer)) v.events = _
      rw [run_consume_value v]
      cases v.load I <;> rfl

theorem run_consume_members (ms : Members) (outer : List Building) :
    run (consume I) (.wanting (.object [] :: outer)) ms.events =
      (ms.load I).map fun members => .wanting (.object members :: outer) := by
  match ms with
  | .nil => rfl
  | .snoc ms k v =>
    rw [Members.events, run_append, run_consume_members ms outer, Members.load]
    cases ms.load I with
    | none => rfl
    | some members =>
      show run (consume I) (.wanting (.object members :: outer)) (⟨.key, k⟩ :: v.events) = _
      rw [run_cons]
      show ((decodeString k).toOption.bind fun key =>
        openMember key (.object members :: outer)).bind _ = _
      cases (decodeString k).toOption with
      | none => rfl
      | some key =>
        show run (consume I) (.wanting (.member members key :: outer)) v.events = _
        rw [run_consume_value v]
        cases v.load I <;> rfl

end

/-! ## The walk loads what the tree means -/

def Phrase.Loads (I : IntegerType) : Phrase → Prop
  | .value v => ∀ d, v.load I = some d ↔ Means I v d
  | .element v => ∀ d, v.load I = some d ↔ Means I v d
  | .elements es => ∀ items, es.load I = some items ↔ MeansItems I es items
  | .members ms => ∀ members, ms.load I = some members ↔ MeansMembers I ms members

theorem toOption_eq_some_iff {text raw : Bytes} (h : Chars raw) :
    (decodeString raw).toOption = some text ↔ Text text raw := by
  rw [← decodeString_eq_ok_iff h]
  cases decodeString raw with
  | ok text' => simp [Except.toOption]
  | error f => simp [Except.toOption]

theorem loads_snocElement {es : Elements} {v : Value} (hes : Phrase.Loads I (.elements es))
    (hv : Phrase.Loads I (.element v)) : Phrase.Loads I (.elements (.snoc es v)) := by
  intro items
  simp only [Elements.load, Option.bind_eq_some_iff, Option.map_eq_some_iff]
  constructor
  · rintro ⟨items', hitems, d, hd, rfl⟩
    exact .snoc ((hes _).1 hitems) ((hv _).1 hd)
  · rintro (_ | ⟨hitems, hd⟩)
    exact ⟨_, (hes _).2 hitems, _, (hv _).2 hd, rfl⟩

theorem loads_snocMember {ms : Members} {k a : Bytes} {v : Value}
    (hms : Phrase.Loads I (.members ms)) (hk : KeyColon k a) (hv : Phrase.Loads I (.element v)) :
    Phrase.Loads I (.members (.snoc ms k v)) := by
  obtain ⟨-, -, -, hchars, -⟩ := hk
  intro members
  simp only [Members.load, Option.bind_eq_some_iff, Option.map_eq_some_iff,
    toOption_eq_some_iff hchars]
  constructor
  · rintro ⟨members', hmembers, key, hkey, d, hd, rfl⟩
    exact .snoc ((hms _).1 hmembers) hkey ((hv _).1 hd)
  · rintro (_ | ⟨hmembers, hkey, hd⟩)
    exact ⟨_, (hms _).2 hmembers, _, hkey, _, (hv _).2 hd, rfl⟩

theorem loads_noElements : Phrase.Loads I (.elements .nil) := by
  intro items
  simp only [Elements.load, Option.some.injEq]
  constructor
  · rintro rfl
    exact .nil
  · rintro ⟨⟩
    rfl

theorem loads_noMembers : Phrase.Loads I (.members .nil) := by
  intro members
  simp only [Members.load, Option.some.injEq]
  constructor
  · rintro rfl
    exact .nil
  · rintro ⟨⟩
    rfl

theorem Derives.loads {ph : Phrase} {b : Bytes} (h : Derives ph b) : ph.Loads I := by
  induction h with
  | null =>
    intro d
    simp only [Value.load, Option.some.injEq]
    constructor
    · rintro rfl
      exact .null
    · rintro ⟨⟩
      rfl
  | boolean b =>
    intro d
    simp only [Value.load, Option.some.injEq]
    constructor
    · rintro rfl
      exact .boolean b
    · rintro ⟨⟩
      rfl
  | number hl =>
    intro d
    simp only [Value.load, Option.map_eq_some_iff, hl.toNumber_iff]
    constructor
    · rintro ⟨value, hvalue, rfl⟩
      exact .integer hvalue
    · rintro (_ | _ | hvalue)
      exact ⟨_, hvalue, rfl⟩
  | string hraw =>
    intro d
    simp only [Value.load, Option.map_eq_some_iff, toOption_eq_some_iff hraw]
    constructor
    · rintro ⟨text, htext, rfl⟩
      exact .string htext
    · rintro (_ | _ | _ | htext)
      exact ⟨_, htext, rfl⟩
  | array _ ih =>
    intro d
    simp only [Value.load, Option.map_eq_some_iff]
    constructor
    · rintro ⟨items, hitems, rfl⟩
      exact .array ((ih _).1 hitems)
    · rintro (_ | _ | _ | _ | hitems)
      exact ⟨_, (ih _).2 hitems, rfl⟩
  | object _ ih =>
    intro d
    simp only [Value.load, Option.map_eq_some_iff]
    constructor
    · rintro ⟨members, hmembers, rfl⟩
      exact .object ((ih _).1 hmembers)
    · rintro (_ | _ | _ | _ | _ | hmembers)
      exact ⟨_, (ih _).2 hmembers, rfl⟩
  | element _ _ _ ih => exact ih
  | noElements _ => exact loads_noElements
  | firstElement _ ih => exact loads_snocElement loads_noElements ih
  | nextElement _ _ ihs ih => exact loads_snocElement ihs ih
  | noMembers _ => exact loads_noMembers
  | firstMember hk _ ih => exact loads_snocMember loads_noMembers hk ih
  | nextMember _ hk _ ihs ih => exact loads_snocMember ihs hk ih

/-! ## The depth of a tree and of its data -/

theorem depthItems_append (items items' : List Data) :
    depthItems (items ++ items') = max (depthItems items) (depthItems items') := by
  induction items with
  | nil => simp [depthItems]
  | cons d items ih =>
    rw [List.cons_append, depthItems, depthItems, ih]
    omega

theorem depthMembers_append (members members' : List (Bytes × Data)) :
    depthMembers (members ++ members') = max (depthMembers members) (depthMembers members') := by
  induction members with
  | nil => simp [depthMembers]
  | cons m members ih =>
    rw [List.cons_append, depthMembers, depthMembers, ih]
    omega

mutual

theorem depth_value {v : Value} {d : Data} (h : Means I v d) : v.depth = d.depth := by
  match v, h with
  | .null, .null => rfl
  | .boolean _, .boolean _ => rfl
  | .number _, .integer _ => rfl
  | .string _, .string _ => rfl
  | .array es, .array hes => rw [Value.depth, Data.depth, depth_elements hes]
  | .object ms, .object hms => rw [Value.depth, Data.depth, depth_members hms]

theorem depth_elements {es : Elements} {items : List Data} (h : MeansItems I es items) :
    es.depth = depthItems items := by
  match es, h with
  | .nil, .nil => rfl
  | .snoc es v, .snoc hes hv =>
    rw [Elements.depth, depthItems_append, depth_elements hes, depth_value hv]
    simp [depthItems]

theorem depth_members {ms : Members} {members : List (Bytes × Data)}
    (h : MeansMembers I ms members) : ms.depth = depthMembers members := by
  match ms, h with
  | .nil, .nil => rfl
  | .snoc ms k v, .snoc hms _ hv =>
    rw [Members.depth, depthMembers_append, depth_members hms, depth_value hv]
    simp [depthMembers]

end

/-! ## The consumer on a source -/

theorem readFrom_pull {calls : Nat} {p p' : JsonParser} {c : Consumer} {e : JsonEvent}
    (h : pull maxDepth p e = some p') :
    readFrom I maxDepth (calls + 1) p c =
      (consume I c e).bind (readFrom I maxDepth calls p') := by
  obtain ⟨hnext, he⟩ := pull_eq_some.1 h
  rw [readFrom, hnext]
  unfold JsonEvent.proceeds at he
  cases htype : e.type <;> simp [htype] at he ⊢

theorem readFrom_run {calls : Nat} {p p' : JsonParser} {es : List JsonEvent} (c : Consumer)
    (h : run (pull maxDepth) p es = some p') :
    readFrom I maxDepth (calls + es.length) p c =
      (run (consume I) c es).bind (readFrom I maxDepth calls p') := by
  induction es generalizing p c with
  | nil =>
    cases h
    rfl
  | cons e es ih =>
    obtain ⟨p₁, hpull, hrest⟩ := (run_cons_eq_some _).1 h
    rw [List.length_cons, ← Nat.add_assoc, readFrom_pull hpull, run_cons, Option.bind_assoc]
    congr 1
    funext c'
    exact ih c' hrest

theorem readFrom_end {calls : Nat} {p : JsonParser} {c : Consumer}
    (h : (p.next maxDepth).1.type = .end) : readFrom I maxDepth (calls + 1) p c = c.data? := by
  rw [readFrom]
  simp only [h]

theorem readFrom_error {calls : Nat} {p : JsonParser} {c : Consumer}
    (h : (p.next maxDepth).1.type = .error) : readFrom I maxDepth (calls + 1) p c = none := by
  rw [readFrom]
  simp only [h]

theorem length_le_of_run {s : Bytes} {es : List JsonEvent} {p : JsonParser}
    (h : run (pull maxDepth) (.create s) es = some p) : es.length ≤ s.length := by
  obtain ⟨q, hstands⟩ := stands_of_run h
  exact hstands.length_le

theorem read_of_accepts {s : Bytes} {v : Value} (h : Accepts maxDepth s v.events) :
    read I maxDepth s = v.load I := by
  obtain ⟨p, hrun, hend⟩ := h
  have hle := length_le_of_run hrun
  obtain ⟨calls, hcalls⟩ : ∃ k, s.length + 1 = k + 1 + v.events.length :=
    ⟨s.length - v.events.length, by omega⟩
  rw [read, hcalls, readFrom_run _ hrun, run_consume_value]
  cases v.load I with
  | none => rfl
  | some d => exact readFrom_end hend

theorem read_of_rejects {s : Bytes} {es : List JsonEvent} {offset : Nat}
    (h : Rejects maxDepth s es offset) : read I maxDepth s = none := by
  obtain ⟨p, hrun, herror, -⟩ := h
  have hle := length_le_of_run hrun
  obtain ⟨calls, hcalls⟩ : ∃ k, s.length + 1 = k + 1 + es.length := ⟨s.length - es.length, by omega⟩
  rw [read, hcalls, readFrom_run _ hrun]
  cases run (consume I) (.wanting []) es with
  | none => rfl
  | some c => exact readFrom_error herror

theorem read_iff {s : Bytes} {d : Data} :
    read I maxDepth s = some d ↔ d.depth ≤ maxDepth ∧ d.Spelled I s := by
  constructor
  · intro h
    rcases accepts_or_rejects maxDepth s with ⟨es, haccepts⟩ | ⟨es, offset, hrejects⟩
    · obtain ⟨v, hdoc, hdepth, rfl⟩ := haccepts.document
      rw [read_of_accepts haccepts] at h
      have hmeans : Means I v d := (Derives.loads hdoc d).1 h
      rw [depth_value hmeans] at hdepth
      exact ⟨hdepth, v, hdoc, hmeans⟩
    · rw [read_of_rejects hrejects] at h
      cases h
  · rintro ⟨hdepth, v, hdoc, hmeans⟩
    rw [← depth_value hmeans] at hdepth
    rw [read_of_accepts (hdoc.accepts hdepth)]
    exact (Derives.loads hdoc d).2 hmeans

end Loading

/-! ## Writing data -/

/-- A string with its quotes. -/
def writeText (text : Bytes) : Bytes := quote :: (text.flatMap escapeByte ++ [quote])

mutual

def Data.write : Data → Bytes
  | .null => nullBytes
  | .boolean b => booleanBytes b
  | .integer value => numberText value
  | .string text => writeText text
  | .array items => openBracket :: (writeItems false items ++ [closeBracket])
  | .object members => openBrace :: (writeMembers false members ++ [closeBrace])

/-- The items behind others, or the first ones. -/
def writeItems (seen : Bool) : List Data → Bytes
  | [] => []
  | d :: items => separator seen ++ (d.write ++ writeItems true items)

def writeMembers (seen : Bool) : List (Bytes × Data) → Bytes
  | [] => []
  | (key, d) :: members =>
    separator seen ++ (writeText key ++ colon :: (d.write ++ writeMembers true members))

end

section Writing

variable {I : IntegerType}

theorem keyColon_writeText (key : Bytes) :
    KeyColon (key.flatMap escapeByte) (writeText key ++ [colon]) :=
  ⟨[], [], whitespace_nil, (text_escape key).chars, whitespace_nil, by simp [writeText]⟩

mutual

/-- **What is written spells the data.** -/
theorem write_data (d : Data) (h : d.Held I) :
    ∃ v, Derives (.value v) d.write ∧ Means I v d := by
  match d with
  | .null => exact ⟨_, .null, .null⟩
  | .boolean b => exact ⟨_, .boolean b, .boolean b⟩
  | .integer value => exact ⟨_, .number (number_numberText value), .integer ⟨h, .inl rfl⟩⟩
  | .string text => exact ⟨_, .string (text_escape text).chars, .string (text_escape text)⟩
  | .array items =>
    obtain ⟨es, hes, hmeans⟩ := write_items items (.noElements whitespace_nil) .nil h
    exact ⟨_, .array hes, .array hmeans⟩
  | .object members =>
    obtain ⟨ms, hms, hmeans⟩ := write_members members (.noMembers whitespace_nil) .nil h
    exact ⟨_, .object hms, .object hmeans⟩

theorem write_items (items : List Data) {es : Elements} {b : Bytes} {before : List Data}
    (hes : Derives (.elements es) b) (hmeans : MeansItems I es before) (h : heldItems I items) :
    ∃ es', Derives (.elements es') (b ++ writeItems es.nonempty items) ∧
      MeansItems I es' (before ++ items) := by
  match items with
  | [] => exact ⟨es, by rwa [writeItems, List.append_nil], by rwa [List.append_nil]⟩
  | d :: items =>
    obtain ⟨v, hv, hd⟩ := write_data d h.1
    have hsnoc := hes.wantsElement v _ hv.element_of_value
    obtain ⟨es', hes', hmeans'⟩ := write_items items hsnoc (hmeans.snoc hd) h.2
    refine ⟨es', ?_, by rwa [List.append_assoc] at hmeans'⟩
    simpa [writeItems, Elements.nonempty] using hes'

theorem write_members (members : List (Bytes × Data)) {ms : Members} {b : Bytes}
    {before : List (Bytes × Data)} (hms : Derives (.members ms) b)
    (hmeans : MeansMembers I ms before) (h : heldMembers I members) :
    ∃ ms', Derives (.members ms') (b ++ writeMembers ms.nonempty members) ∧
      MeansMembers I ms' (before ++ members) := by
  match members with
  | [] => exact ⟨ms, by rwa [writeMembers, List.append_nil], by rwa [List.append_nil]⟩
  | (key, d) :: members =>
    obtain ⟨v, hv, hd⟩ := write_data d h.1
    have hsnoc := hms.wantsMember (keyColon_writeText key) v _ hv.element_of_value
    obtain ⟨ms', hms', hmeans'⟩ :=
      write_members members hsnoc (hmeans.snoc (text_escape key) hd) h.2
    refine ⟨ms', ?_, by rwa [List.append_assoc] at hmeans'⟩
    simpa [writeMembers, Members.nonempty] using hms'

end

theorem spelled_write {d : Data} (h : d.Held I) : d.Spelled I d.write := by
  obtain ⟨v, hv, hmeans⟩ := write_data d h
  have hdoc := hv.element_of_value
  exact ⟨v, hdoc, hmeans⟩

/-- **Documents as data.** -/
theorem read_eq_some_iff (I : IntegerType) (maxDepth : Nat) :
    (∀ s d, read I maxDepth s = some d ↔ d.depth ≤ maxDepth ∧ d.Spelled I s) ∧
      ∀ d : Data, d.Held I → d.depth ≤ maxDepth → read I maxDepth d.write = some d :=
  ⟨fun _ _ => read_iff, fun _ hheld hdepth => read_iff.2 ⟨hdepth, spelled_write hheld⟩⟩

end Writing

/-- `{"k":[7,true]}` -/
def smallData : Data := .object [([0x6B], .array [.integer 7, .boolean true])]

theorem read_eq_some_iff_smallData : read int64 2 smallData.write = some smallData ∧
    (smallData.depth ≤ 2 ∧ smallData.Spelled int64 smallData.write) := by
  obtain ⟨hiff, hwrite⟩ := read_eq_some_iff int64 2
  have hseven : int64.Holds 7 := by decide
  have hheld : smallData.Held int64 := ⟨⟨hseven, trivial, trivial⟩, trivial⟩
  have hread := hwrite smallData hheld (by decide)
  exact ⟨hread, (hiff _ _).1 hread⟩

end Json

end EglUtil
