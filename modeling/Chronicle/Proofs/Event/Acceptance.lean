import Chronicle.Proofs.Event.Stability
import Chronicle.Proofs.Json.Acceptance
import Chronicle.Proofs.Text.Utf8

/-!
# Which texts are events

An object is read as some event just if it is `Acceptable`, which speaks of each name on its own, except that a string
under `data_base64` leaves the name `data` to the extensions (`exists_readFrom_iff`). Together with the grammar of JSON
this says which bytes are read, and as what (`deserialize_grammar`).

The form of a text is not enough. A number may be beyond the range of doubles, or half of a surrogate pair may stand
alone, and such a text is refused even where nothing would be made of it, since the name is repeated; and `-0` is no
integer (`deserialize_lenient`).
-/

namespace Chronicle.Event

open Fields (get? Distinct)

variable {ms : List (String × Json)}

/-! ## Objects that are read as some event -/

/-- What may stand under the name of an optional string. -/
def Optional (found : Option Json) : Prop := found = none ∨ found = some .null ∨ ∃ s, found = some (.string s)

/-- A string, a boolean or a signed 64-bit integer. -/
def IsScalar : Json → Prop
  | .string _ => True
  | .bool _ => True
  | .integer n => n.val < 0x8000000000000000
  | _ => False

/-- Whether the payload is bytes. -/
def HoldsBytes (ms : List (String × Json)) : Prop := ∃ s, get? "data_base64" ms = some (.string s)

/-- The members of an object that is read as some event. -/
structure Acceptable (ms : List (String × Json)) : Prop where
  specVersion : get? "specversion" ms = none ∨ get? "specversion" ms = some (.string "1.0")
  id : ∃ s, get? "id" ms = some (.string s)
  source : ∃ s, get? "source" ms = some (.string s)
  type : ∃ s, get? "type" ms = some (.string s)
  time : Optional (get? "time" ms)
  timeText : ∀ text, get? "time" ms = some (.string text) → ∃ t, Timestamp.ofRfc3339 text = .ok t
  subject : Optional (get? "subject" ms)
  contentType : Optional (get? "datacontenttype" ms)
  bytes : Optional (get? "data_base64" ms)
  bytesText : ∀ text, get? "data_base64" ms = some (.string text) → ∃ bs, text = String.ofList (Base64.encode bs)
  extension : ∀ name v, get? name ms = some v → name ∉ attributeNames ∨ (name = "data" ∧ HoldsBytes ms) → IsScalar v

theorem isScalar_iff {v : Json} : IsScalar v ↔ ∃ x, v = extensionToJson x := by
  constructor
  · intro h
    cases v with
    | string s => exact ⟨.string s, rfl⟩
    | bool b => exact ⟨.boolean b, rfl⟩
    | integer n =>
      have hn : n.toInt64? = some (Int64.ofInt n.val) := if_pos h
      have hx : extensionOfJson "" (.integer n) = .ok (.integer (Int64.ofInt n.val)) := by
        simp only [extensionOfJson, hn]
      exact ⟨_, extensionOfJson_eq_ok_iff.1 hx⟩
    | _ => cases h
  · rintro ⟨x, rfl⟩
    cases x with
    | integer n => exact n.toInt_lt
    | _ => trivial

theorem exists_extensionMembers_iff {left : List (String × Json)} :
    (∃ xs, left = extensionMembers xs) ↔ ∀ f ∈ left, IsScalar f.2 := by
  induction left with
  | nil => exact ⟨nofun, fun _ => ⟨[], rfl⟩⟩
  | cons f left ih =>
    rw [List.forall_mem_cons, ← ih, isScalar_iff]
    constructor
    · rintro ⟨_ | ⟨x, xs⟩, h⟩
      · cases h
      · cases h
        exact ⟨⟨x.2, rfl⟩, xs, rfl⟩
    · rintro ⟨⟨x, hx⟩, xs, rfl⟩
      exact ⟨(f.1, x) :: xs, congrArg (· :: _) (Prod.ext rfl hx)⟩

theorem exists_stringAt_iff {found : Option Json} : (∃ o, StringAt found o) ↔ Optional found := by
  constructor
  · rintro ⟨_ | s, h⟩
    · exact h.imp_right .inl
    · exact .inr (.inr ⟨s, h⟩)
  · rintro (h | h | ⟨s, h⟩)
    · exact ⟨none, .inl h⟩
    · exact ⟨none, .inr h⟩
    · exact ⟨some s, h⟩

theorem not_stringAt_none (s : String) : ¬StringAt (some (.string s)) none := by
  rintro (h | h) <;> cases h

theorem exists_timeAt_iff {found : Option Json} :
    (∃ time, TimeAt found time) ↔
      Optional found ∧ ∀ text, found = some (.string text) → ∃ t, Timestamp.ofRfc3339 text = .ok t := by
  constructor
  · rintro ⟨_ | t, h⟩
    · refine ⟨exists_stringAt_iff.1 ⟨none, h⟩, fun text ht => ?_⟩
      exact absurd (ht ▸ h) (not_stringAt_none text)
    · obtain ⟨text, rfl, hread⟩ := h
      refine ⟨.inr (.inr ⟨text, rfl⟩), fun text' ht => ?_⟩
      cases ht
      exact ⟨t, hread⟩
  · rintro ⟨h, hread⟩
    obtain ⟨_ | text, h⟩ := exists_stringAt_iff.2 h
    · exact ⟨none, h⟩
    · obtain ⟨t, ht⟩ := hread text h
      exact ⟨some t, text, h, ht⟩

/-- What stands under `data` stands for a payload, if there are no bytes. -/
theorem exists_payloadAt_data (contentType : Option String) {bytes : Option Json} (hb : StringAt bytes none)
    (data : Option Json) : ∃ payload, PayloadAt contentType bytes data payload := by
  cases data with
  | none => exact ⟨none, hb, .inl rfl⟩
  | some v =>
    by_cases hv : v = .null
    · exact ⟨none, hb, .inr (hv ▸ rfl)⟩
    · cases hj : isJsonContentType contentType with
      | true => exact ⟨some (.json v), hb, rfl, hv, fun _ _ => hj⟩
      | false =>
        by_cases hs : ∃ s, v = .string s
        · obtain ⟨s, rfl⟩ := hs
          exact ⟨some (.text s), hb, rfl, hj⟩
        · exact ⟨some (.json v), hb, rfl, hv, fun s h => absurd ⟨s, h⟩ hs⟩

theorem exists_payloadAt_iff (contentType : Option String) {bytes : Option Json} (data : Option Json) :
    (∃ payload, PayloadAt contentType bytes data payload) ↔
      Optional bytes ∧ ∀ text, bytes = some (.string text) → ∃ bs, text = String.ofList (Base64.encode bs) := by
  constructor
  · rintro ⟨payload, h⟩
    -- either no bytes are given, or they are decoded
    have hor : StringAt bytes none ∨
        ∃ text bs, bytes = some (.string text) ∧ text = String.ofList (Base64.encode bs) := by
      match payload, h with
      | none, h => exact .inl h.1
      | some (.json _), h => exact .inl h.1
      | some (.text _), h => exact .inl h.1
      | some (.binary bs), ⟨text, ht, hread⟩ => exact .inr ⟨text, bs, ht, Base64.decode_utf8_eq_ok_iff.1 hread⟩
    rcases hor with hb | ⟨text, bs, rfl, he⟩
    · refine ⟨exists_stringAt_iff.1 ⟨none, hb⟩, fun text ht => ?_⟩
      exact absurd (ht ▸ hb) (not_stringAt_none text)
    · refine ⟨.inr (.inr ⟨text, rfl⟩), fun text' ht => ?_⟩
      cases ht
      exact ⟨bs, he⟩
  · rintro ⟨hb, htext⟩
    obtain ⟨_ | text, hb⟩ := exists_stringAt_iff.2 hb
    · exact exists_payloadAt_data contentType hb data
    · obtain ⟨bs, rfl⟩ := htext text hb
      exact ⟨some (.binary bs), _, hb, Base64.decode_encode bs⟩

/-- The payload is bytes just if there is a string that says which. -/
theorem PayloadAt.holdsBytes_iff {contentType : Option String} {payload : Option Payload} {data : Option Json}
    (h : PayloadAt contentType (get? "data_base64" ms) data payload) :
    HoldsBytes ms ↔ ∃ bs, payload = some (.binary bs) := by
  constructor
  · rintro ⟨s, hs⟩
    rw [hs] at h
    match payload, h with
    | some (.binary bs), _ => exact ⟨bs, rfl⟩
    | some (.text _), h => exact absurd h.1 (not_stringAt_none s)
    | some (.json _), h => exact absurd h.1 (not_stringAt_none s)
    | none, h => exact absurd h.1 (not_stringAt_none s)
  · rintro ⟨bs, rfl⟩
    obtain ⟨text, ht, -⟩ := h
    exact ⟨text, ht⟩

/-- The names that are taken out are the attributes' names, but for `data` beside bytes. -/
theorem mem_takenNames_iff {payload : Option Payload} {name : String} :
    name ∈ takenNames payload ↔ name ∈ attributeNames ∧ ¬(name = "data" ∧ ∃ bs, payload = some (.binary bs)) := by
  constructor
  · refine fun h => ⟨(takenNames_sublist payload).subset h, ?_⟩
    rintro ⟨rfl, bs, rfl⟩
    simp [takenNames, payloadNames] at h
  · rintro ⟨hn, hb⟩
    by_contra ht
    exact hb (eq_data_of_not_mem hn ht)

/-- What is left are the extensions of an event just if it is scalar, each member by itself. -/
theorem exists_extensions_iff (hd : Distinct ms) (taken : List String) :
    (∃ m : NameMap Extension, ∀ name, (if name ∈ taken then none else get? name ms) =
        (m.get? name).map extensionToJson) ↔
      ∀ name v, get? name ms = some v → name ∉ taken → IsScalar v := by
  constructor
  · rintro ⟨m, h⟩ name v hv hn
    have hx := h name
    rw [if_neg hn, hv] at hx
    obtain ⟨x, -, hx⟩ := Option.map_eq_some_iff.1 hx.symm
    exact isScalar_iff.2 ⟨x, hx.symm⟩
  · intro h
    have hleft := distinct_without taken hd
    obtain ⟨xs, hxs⟩ := exists_extensionMembers_iff.2 fun f hf => by
      have hg := Fields.get?_of_mem hleft hf
      rw [get?_without taken hd] at hg
      obtain ⟨hn, hg⟩ := Option.ite_none_left_eq_some.1 hg
      exact h f.1 f.2 hg hn
    refine ⟨NameMap.ofList xs, fun name => ?_⟩
    rw [← get?_without taken hd]
    exact (ofList_extensionsOfMembers_iff hleft).1 ⟨xs, extensionsOfMembers_eq_ok_iff.2 hxs, rfl⟩ name

/-- **Acceptance**: an object is read as some event just if what stands under each name will do. -/
theorem exists_readFrom_iff (hd : Distinct ms) : (∃ e : Event, e.ReadFrom ms) ↔ Acceptable ms := by
  constructor
  · rintro ⟨e, h⟩
    have htime := exists_timeAt_iff.1 ⟨_, h.time⟩
    have hbytes := (exists_payloadAt_iff _ _).1 ⟨_, h.payload⟩
    constructor
    case specVersion =>
      cases hv : get? "specversion" ms with
      | none => exact .inl rfl
      | some v => exact .inr (congrArg some (h.specVersion v hv))
    case id => exact ⟨_, h.id⟩
    case source => exact ⟨_, h.source⟩
    case type => exact ⟨_, h.type⟩
    case time => exact htime.1
    case timeText => exact htime.2
    case subject => exact exists_stringAt_iff.1 ⟨_, h.subject⟩
    case contentType => exact exists_stringAt_iff.1 ⟨_, h.contentType⟩
    case bytes => exact hbytes.1
    case bytesText => exact hbytes.2
    case extension =>
      intro name v hv hn
      refine (exists_extensions_iff hd _).1 ⟨_, h.extension⟩ name v hv ?_
      rw [mem_takenNames_iff, ← h.payload.holdsBytes_iff]
      tauto
  · intro h
    obtain ⟨id, hid⟩ := h.id
    obtain ⟨source, hsource⟩ := h.source
    obtain ⟨type, htype⟩ := h.type
    obtain ⟨time, htime⟩ := exists_timeAt_iff.2 ⟨h.time, h.timeText⟩
    obtain ⟨subject, hsubject⟩ := exists_stringAt_iff.2 h.subject
    obtain ⟨contentType, hct⟩ := exists_stringAt_iff.2 h.contentType
    obtain ⟨payload, hpayload⟩ := (exists_payloadAt_iff contentType (get? "data" ms)).2 ⟨h.bytes, h.bytesText⟩
    obtain ⟨extensions, hextensions⟩ := (exists_extensions_iff hd (takenNames payload)).2 fun name v hv hn => by
      refine h.extension name v hv ?_
      rw [mem_takenNames_iff, ← hpayload.holdsBytes_iff] at hn
      tauto
    refine ⟨⟨id, source, type, time, subject, contentType, payload, extensions⟩, ?_, hid, hsource, htype, htime,
      hsubject, hct, hpayload, hextensions⟩
    intro v hv
    rcases h.specVersion with hs | hs
    · rw [hs] at hv
      cases hv
    · rw [hs] at hv
      cases hv
      rfl

/-! ## Bytes that are read -/

/-- Bytes are read as a value just if they are a JSON text for it, nested at most 127 deep. -/
theorem read_symbols_eq_ok_iff {bytes : ByteArray} {v : Json} :
    Json.read (Text.symbols bytes) = .ok v ↔
      ∃ text, bytes = (String.ofList text).toUTF8 ∧ Json.TextOf .standard 127 text v := by
  rw [Json.read, Json.readWithin_eq_ok_iff]
  simp only [Text.symbols_eq_iff]
  rfl

/-- **The grammar of events**: bytes are read as an event just if they are a JSON text, nested at most 127 deep, for an
object that the event is read from; and they are read as some event just if the object is acceptable. -/
theorem deserialize_grammar (bytes : ByteArray) :
    (∀ e, Format.json.deserialize bytes = .ok e ↔
      ∃ text ms, bytes = (String.ofList text).toUTF8 ∧ Json.TextOf .standard 127 text (.object ms) ∧ e.ReadFrom ms) ∧
    ((∃ e, Format.json.deserialize bytes = .ok e) ↔
      ∃ text ms, bytes = (String.ofList text).toUTF8 ∧ Json.TextOf .standard 127 text (.object ms) ∧ Acceptable ms) := by
  have hread (e : Event) : Format.json.deserialize bytes = .ok e ↔
      ∃ text ms, bytes = (String.ofList text).toUTF8 ∧ Json.TextOf .standard 127 text (.object ms) ∧ e.ReadFrom ms := by
    show deserialize bytes = .ok e ↔ _
    rw [deserialize_eq_ok_iff]
    constructor
    · rintro ⟨ms, hr, he⟩
      obtain ⟨text, hb, ht⟩ := read_symbols_eq_ok_iff.1 hr
      exact ⟨text, ms, hb, ht, he⟩
    · rintro ⟨text, ms, hb, ht, he⟩
      exact ⟨ms, read_symbols_eq_ok_iff.2 ⟨text, hb, ht⟩, he⟩
  refine ⟨hread, ?_⟩
  constructor
  · rintro ⟨e, he⟩
    obtain ⟨text, ms, hb, ht, he⟩ := (hread e).1 he
    have hd : Distinct ms := (Json.of_readWithin (read_symbols_eq_ok_iff.2 ⟨text, hb, ht⟩)).1.1
    exact ⟨text, ms, hb, ht, (exists_readFrom_iff hd).1 ⟨e, he⟩⟩
  · rintro ⟨text, ms, hb, ht, ha⟩
    have hd : Distinct ms := (Json.of_readWithin (read_symbols_eq_ok_iff.2 ⟨text, hb, ht⟩)).1.1
    obtain ⟨e, he⟩ := (exists_readFrom_iff hd).2 ha
    exact ⟨e, (hread e).2 ⟨text, ms, hb, ht, he⟩⟩

/-! ## The form of a text is not enough -/

/-- An object with a number beyond the range of doubles under a repeated name. -/
def hugeText : String := "\x7b\"id\":\"1\",\"source\":\"/\",\"type\":\"x\",\"data\":1e400,\"data\":1\x7d"

/-- An object with half of a surrogate pair under a repeated name. -/
def loneText : String := "\x7b\"id\":\"1\",\"source\":\"/\",\"type\":\"x\",\"data\":\"\\ud800\",\"data\":1\x7d"

/-- An object with the extension `-0`. -/
def zeroText : String := "\x7b\"id\":\"1\",\"source\":\"/\",\"type\":\"x\",\"n\":-0\x7d"

/-- The members that have to be there, and an integer. -/
def requiredMembers (name : String) (n : Json.Integer) : List (String × Json) :=
  [("id", .string "1"), ("source", .string "/"), ("type", .string "x"), (name, .integer n)]

theorem acceptable_requiredMembers {name : String} (hn : name = "data" ∨ name = "n") {n : Json.Integer}
    (hlt : n.val < 0x8000000000000000) : Acceptable (requiredMembers name n) := by
  have hscalar : ∀ f ∈ requiredMembers name n, IsScalar f.2 := by
    simp only [requiredMembers, List.forall_mem_cons]
    exact ⟨trivial, trivial, trivial, hlt, nofun⟩
  have habsent (other : String) (ho : other ∉ ["id", "source", "type", "data", "n"]) :
      get? other (requiredMembers name n) = none := by
    refine Fields.get?_eq_none_iff.2 fun hm => ho ?_
    simp only [requiredMembers, Fields.names, List.map_cons, List.map_nil, List.mem_cons] at hm
    simp only [List.mem_cons]
    rcases hn with rfl | rfl <;> tauto
  have hno (other : String) (ho : other ∉ ["id", "source", "type", "data", "n"]) (text : String) (P : Prop)
      (h : get? other (requiredMembers name n) = some (.string text)) : P := by
    rw [habsent other ho] at h
    cases h
  exact
    { specVersion := .inl (habsent _ (by decide))
      id := ⟨_, rfl⟩
      source := ⟨_, rfl⟩
      type := ⟨_, rfl⟩
      time := .inl (habsent _ (by decide))
      timeText := fun text h => hno _ (by decide) text _ h
      subject := .inl (habsent _ (by decide))
      contentType := .inl (habsent _ (by decide))
      bytes := .inl (habsent _ (by decide))
      bytesText := fun text h => hno _ (by decide) text _ h
      extension := fun _ _ h _ => hscalar _ (Fields.mem_of_get? h) }

/-- The integer one. -/
def one : Json.Integer := ⟨1, by decide, by decide⟩

/-- The texts of the members that have to be there. -/
def requiredTexts : List (List Char × List Char × Json) :=
  [(['i', 'd'], ['"', '1', '"'], .string "1"), (['s', 'o', 'u', 'r', 'c', 'e'], ['"', '/', '"'], .string "/"),
    (['t', 'y', 'p', 'e'], ['"', 'x', '"'], .string "x")]

theorem spells_lenient {us : List (Char ⊕ Nat)} {cs : List Char} (h : Json.Spells us cs) :
    Json.Meaning.lenient.string us cs := .inl h

theorem requiredTexts_spec {levels : Nat} :
    ∀ f ∈ requiredTexts, Json.IsPlain f.1 ∧ Json.ValueText .lenient levels f.2.1 f.2.2 := by
  have hplain (c : Char) (hc : Json.IsPlain [c]) :
      Json.ValueText .lenient levels ['"', c, '"'] (.string (String.ofList [c])) := hc.valueText spells_lenient
  simp only [requiredTexts, List.forall_mem_cons]
  exact ⟨⟨by decide +kernel, hplain '1' (by decide +kernel)⟩, ⟨by decide +kernel, hplain '/' (by decide +kernel)⟩,
    ⟨by decide +kernel, hplain 'x' (by decide +kernel)⟩, nofun⟩

/-- Half of a surrogate pair alone. -/
theorem not_spells_high (cs : List Char) : ¬Json.Spells [.inr 0xD800] cs := by
  intro h
  cases h with
  | unit hn _ => omega

theorem valueText_one {levels : Nat} : Json.ValueText .lenient levels ['1'] (.integer one) := by
  have hi : (⟨false, ['1'], [], none⟩ : Json.Numeral).integer? = some one := by decide +kernel
  refine .number (n := ⟨false, ['1'], [], none⟩) (Json.numeralText_of_readNumeral (by decide +kernel)) (.inl ?_)
  rw [Json.Numeral.value?, hi]

theorem valueText_huge {levels : Nat} (v : Json) : Json.ValueText .lenient levels ['1', 'e', '4', '0', '0'] v :=
  .number (n := ⟨false, ['1'], [], some 400⟩) (Json.numeralText_of_readNumeral (by decide +kernel))
    (.inr (.inl (by decide +kernel)))

theorem valueText_lone {levels : Nat} (cs : List Char) :
    Json.ValueText .lenient levels ['"', '\\', 'u', 'd', '8', '0', '0', '"'] (.string (String.ofList cs)) :=
  .string (t := ['\\', 'u', 'd', '8', '0', '0']) (.unit (.mk rfl rfl rfl rfl) .nil) (.inr not_spells_high)

theorem valueText_zero {levels : Nat} : Json.ValueText .lenient levels ['-', '0'] (.integer .zero) :=
  .number (n := ⟨true, ['0'], [], none⟩) (Json.numeralText_of_readNumeral (by decide +kernel)) (.inr (.inr ⟨rfl, rfl⟩))

theorem ne_ok_of_isOk {text : String} (h : (ofSymbols (Text.symbolsOf text.toList)).isOk = false) (e : Event) :
    Format.json.deserialize text.toUTF8 ≠ .ok e := by
  intro he
  change deserialize text.toUTF8 = .ok e at he
  rw [← String.ofList_toList (s := text), deserialize, Text.symbols_toUTF8] at he
  rw [he] at h
  cases h

/-- Texts that the grammar admits, if any number and any escape will do, for objects that an event may be read from.
None of them is read. -/
theorem deserialize_lenient :
    (Json.TextOf .lenient 127 hugeText.toList (.object (requiredMembers "data" one)) ∧
      Json.TextOf .lenient 127 loneText.toList (.object (requiredMembers "data" one)) ∧
      Acceptable (requiredMembers "data" one)) ∧
    (Json.TextOf .lenient 127 zeroText.toList (.object (requiredMembers "n" .zero)) ∧
      Acceptable (requiredMembers "n" .zero)) ∧
    ∀ text ∈ [hugeText, loneText, zeroText], ∀ e, Format.json.deserialize text.toUTF8 ≠ .ok e := by
  have htext (fs : List (List Char × List Char × Json))
      (hf : ∀ f ∈ fs, Json.IsPlain f.1 ∧ Json.ValueText .lenient 126 f.2.1 f.2.2) :=
    Json.textOf_objectText spells_lenient (requiredTexts ++ fs) (by simp [requiredTexts])
      (List.forall_mem_append.2 ⟨requiredTexts_spec, hf⟩)
  have hdata : Json.IsPlain ['d', 'a', 't', 'a'] := by decide +kernel
  refine ⟨⟨?_, ?_, acceptable_requiredMembers (.inl rfl) (by decide)⟩, ⟨?_, acceptable_requiredMembers (.inr rfl) (by decide)⟩, ?_⟩
  · exact htext [(['d', 'a', 't', 'a'], _, .null), (['d', 'a', 't', 'a'], _, _)]
      (List.forall_mem_cons.2 ⟨⟨hdata, valueText_huge .null⟩, List.forall_mem_singleton.2 ⟨hdata, valueText_one⟩⟩)
  · exact htext [(['d', 'a', 't', 'a'], _, _), (['d', 'a', 't', 'a'], _, _)]
      (List.forall_mem_cons.2 ⟨⟨hdata, valueText_lone []⟩, List.forall_mem_singleton.2 ⟨hdata, valueText_one⟩⟩)
  · exact htext [(['n'], _, _)] (List.forall_mem_singleton.2 ⟨by decide +kernel, valueText_zero⟩)
  · simp only [List.forall_mem_cons]
    exact ⟨ne_ok_of_isOk (by decide +kernel), ne_ok_of_isOk (by decide +kernel), ne_ok_of_isOk (by decide +kernel),
      nofun⟩

end Chronicle.Event
