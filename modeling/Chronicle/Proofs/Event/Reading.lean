import Chronicle.Event.Envelope
import Chronicle.Proofs.Except
import Chronicle.Proofs.Fields

/-!
# What an event is read from

Each step of reading an envelope takes one name out of the object and leaves the others, so it succeeds just if the
right thing stands under its name (`run_takeString?_eq_ok_iff` and the lemmas behind it). All steps together say exactly
which objects an event is read from, whatever the order of their members (`ReadFrom`, `ofJson_eq_ok_iff`).
-/

namespace Chronicle.Event

open Fields (get? swapErase Distinct)

/-! ## Extensions -/

theorem extensionOfJson_toJson (name : String) (x : Extension) : extensionOfJson name (extensionToJson x) = .ok x := by
  cases x with
  | string s => rfl
  | boolean b => rfl
  | integer n =>
    have hn : (Json.Integer.ofInt64 n).val < 0x8000000000000000 := n.toInt_lt
    have hi : Int64.ofInt (Json.Integer.ofInt64 n).val = n := Int64.ofInt_toInt n
    simp only [extensionToJson, extensionOfJson, Json.Integer.toInt64?, if_pos hn, hi]

theorem extensionToJson_injective : Function.Injective extensionToJson := by
  intro x y h
  have hx := extensionOfJson_toJson "" x
  rw [h, extensionOfJson_toJson] at hx
  cases hx
  rfl

/-- Only what an extension is written as is read as one. -/
theorem extensionOfJson_eq_ok_iff {name : String} {v : Json} {x : Extension} :
    extensionOfJson name v = .ok x ↔ v = extensionToJson x := by
  refine ⟨fun h => ?_, fun h => h ▸ extensionOfJson_toJson name x⟩
  cases v with
  | string s =>
    cases h
    rfl
  | bool b =>
    cases h
    rfl
  | integer n =>
    simp only [extensionOfJson, Json.Integer.toInt64?] at h
    split at h
    · rename_i i hi
      obtain ⟨hlt, hi⟩ := Option.ite_none_right_eq_some.1 hi
      cases hi
      cases h
      have hn : (Int64.ofInt n.val).toInt = n.val := Int64.toInt_ofInt_of_le n.ge hlt
      obtain ⟨n, hge, hle⟩ := n
      simp only [extensionToJson, Json.Integer.ofInt64, Json.integer.injEq, Json.Integer.mk.injEq]
      exact hn.symm
    · cases h
  | _ => cases h

/-- The member of an extension. -/
def extensionMembers (xs : List (String × Extension)) : List (String × Json) :=
  xs.map fun x => (x.1, extensionToJson x.2)

theorem extensionsOfMembers_eq_ok_iff {ms : List (String × Json)} {xs : List (String × Extension)} :
    extensionsOfMembers ms = .ok xs ↔ ms = extensionMembers xs := by
  induction ms generalizing xs with
  | nil =>
    cases xs with
    | nil => exact ⟨fun _ => rfl, fun _ => rfl⟩
    | cons x xs => exact ⟨nofun, nofun⟩
  | cons m ms ih =>
    obtain ⟨name, v⟩ := m
    simp only [extensionsOfMembers, Except.bind_eq_ok_iff, extensionOfJson_eq_ok_iff, ih, Except.pure_eq_ok,
      Except.ok.injEq]
    constructor
    · rintro ⟨x, rfl, ys, rfl, rfl⟩
      rfl
    · intro h
      cases xs with
      | nil => cases h
      | cons x xs =>
        cases h
        exact ⟨x.2, rfl, xs, rfl, rfl⟩

/-- Members are read as the map whose extensions they are, in any order. -/
theorem ofList_extensionsOfMembers_iff {ms : List (String × Json)} (hd : Distinct ms) {m : NameMap Extension} :
    (∃ xs, extensionsOfMembers ms = .ok xs ∧ NameMap.ofList xs = m) ↔
      ∀ name, get? name ms = (m.get? name).map extensionToJson := by
  -- what the members of some extensions say of a name
  have hget {xs : List (String × Extension)} (h : ms = extensionMembers xs) (name : String) :
      get? name ms = ((NameMap.ofList xs).get? name).map extensionToJson := by
    have hxs : Distinct xs := by
      rw [h, Distinct, extensionMembers, Fields.names_map] at hd
      exact hd
    rw [h, extensionMembers, Fields.get?_map, NameMap.get?_ofList hxs]
  simp only [extensionsOfMembers_eq_ok_iff]
  constructor
  · rintro ⟨xs, hxs, rfl⟩ name
    exact hget hxs name
  · intro h
    have hmember : ∀ f ∈ ms, ∃ x, (f.1, extensionToJson x) = f := by
      intro f hf
      have hg := Fields.get?_of_mem hd hf
      rw [h] at hg
      obtain ⟨x, -, hx⟩ := Option.map_eq_some_iff.1 hg
      exact ⟨x, Prod.ext rfl hx⟩
    obtain ⟨xs, hxs⟩ : ∃ xs, ms = extensionMembers xs := by
      clear h hget hd
      induction ms with
      | nil => exact ⟨[], rfl⟩
      | cons f rest ih =>
        obtain ⟨⟨x, hx⟩, hr⟩ := List.forall_mem_cons.1 hmember
        obtain ⟨xs, rfl⟩ := ih hr
        exact ⟨(f.1, x) :: xs, by rw [← hx]; rfl⟩
    refine ⟨xs, hxs, NameMap.ext_get? fun name => ?_⟩
    exact Option.map_injective extensionToJson_injective ((hget hxs name).symm.trans (h name))

/-! ## Taking members out -/

/-- The members that are left once these names have been taken out. -/
def without (names : List String) (ms : List (String × Json)) : List (String × Json) :=
  names.foldl (fun ms name => swapErase name ms) ms

theorem distinct_without (names : List String) {ms : List (String × Json)} (hd : Distinct ms) :
    Distinct (without names ms) := by
  induction names generalizing ms with
  | nil => exact hd
  | cons name names ih => exact ih (hd.swapErase name)

theorem get?_without (names : List String) {ms : List (String × Json)} (hd : Distinct ms) (other : String) :
    get? other (without names ms) = if other ∈ names then none else get? other ms := by
  induction names generalizing ms with
  | nil => rfl
  | cons name names ih =>
    rw [without, List.foldl_cons, ← without, ih (hd.swapErase name), Fields.get?_swapErase hd]
    by_cases hn : other ∈ names
    · rw [if_pos hn, if_pos (List.mem_cons_of_mem _ hn)]
    · by_cases ho : name = other
      · subst ho
        rw [if_neg hn, if_pos rfl, if_pos List.mem_cons_self]
      · rw [if_neg hn, if_neg ho, if_neg (by simp [hn, Ne.symm ho])]

/-- What stands for an optional string: null stands for none. -/
def StringAt (found : Option Json) : Option String → Prop
  | some s => found = some (.string s)
  | none => found = none ∨ found = some .null

/-- What stands for an optional time. -/
def TimeAt (found : Option Json) : Option Timestamp → Prop
  | some t => ∃ text, found = some (.string text) ∧ Timestamp.ofRfc3339 text = .ok t
  | none => StringAt found none

/-- What stands for a payload under `data_base64` and under `data`. Beside bytes the latter does not count. A string is
JSON or text by the content type. -/
def PayloadAt (contentType : Option String) (bytes data : Option Json) : Option Payload → Prop
  | some (.binary bs) => ∃ text, bytes = some (.string text) ∧ Base64.decode (Text.utf8 text) = .ok bs
  | some (.text s) => StringAt bytes none ∧ data = some (.string s) ∧ isJsonContentType contentType = false
  | some (.json v) =>
    StringAt bytes none ∧ data = some v ∧ v ≠ .null ∧ ∀ s, v = .string s → isJsonContentType contentType = true
  | none => StringAt bytes none ∧ StringAt data none

/-- The names that are taken out for a payload. -/
def payloadNames : Option Payload → List String
  | some (.binary _) => ["data_base64"]
  | _ => ["data_base64", "data"]

variable {ms left : List (String × Json)} {name : String} {o : Option String}

/-- Two steps succeed just if the first one does and then the second one on what it leaves. -/
theorem run_bind_eq_ok_iff {α β : Type} {x : Taking α} {f : α → Taking β} {b : β} :
    (x >>= f).run ms = .ok (b, left) ↔ ∃ a ms', x.run ms = .ok (a, ms') ∧ (f a).run ms' = .ok (b, left) := by
  rw [StateT.run_bind, Except.bind_eq_ok_iff, Prod.exists]

theorem run_liftM_eq_ok_iff {α : Type} {x : Except FormatError α} {a : α} :
    (liftM x : Taking α).run ms = .ok (a, left) ↔ x = .ok a ∧ left = ms := by
  cases x with
  | error e => exact ⟨nofun, nofun⟩
  | ok b =>
    constructor
    · intro h
      cases h
      exact ⟨rfl, rfl⟩
    · rintro ⟨h, rfl⟩
      cases h
      rfl

theorem run_throw_ne_ok {α : Type} (e : FormatError) (ms : List (String × Json)) (x : α × List (String × Json)) :
    (throw e : Taking α).run ms ≠ .ok x := fun h => by cases h

theorem run_take? (name : String) (ms : List (String × Json)) :
    (take? name).run ms = .ok (get? name ms, swapErase name ms) := rfl

theorem run_takeString?_eq_ok_iff :
    (takeString? name).run ms = .ok (o, left) ↔ StringAt (get? name ms) o ∧ left = swapErase name ms := by
  rw [takeString?, StateT.run_bind, run_take?, Except.ok_bind]
  cases get? name ms with
  | none => cases o <;> simp [StringAt, eq_comm]
  | some v =>
    cases v with
    | null | string s => cases o <;> simp [StringAt, eq_comm]
    | _ =>
      refine iff_of_false (run_throw_ne_ok _ _ _) fun h => ?_
      cases o <;> simp [StringAt] at h

theorem run_takeRequired_eq_ok_iff {a : RequiredAttribute} {s : String} :
    (takeRequired a).run ms = .ok (s, left) ↔ get? a.name ms = some (.string s) ∧ left = swapErase a.name ms := by
  rw [takeRequired, run_bind_eq_ok_iff]
  simp only [run_takeString?_eq_ok_iff]
  constructor
  · rintro ⟨o, ms', ⟨hg, rfl⟩, h⟩
    cases o with
    | none => cases h
    | some s' =>
      cases h
      exact ⟨hg, rfl⟩
  · rintro ⟨hg, rfl⟩
    exact ⟨some s, _, ⟨hg, rfl⟩, rfl⟩

theorem run_takeSpecVersion_eq_ok_iff :
    takeSpecVersion.run ms = .ok ((), left) ↔
      (∀ v, get? "specversion" ms = some v → v = .string specVersion) ∧ left = swapErase "specversion" ms := by
  rw [takeSpecVersion, StateT.run_bind, run_take?, Except.ok_bind]
  cases get? "specversion" ms with
  | none => simp [eq_comm]
  | some v =>
    cases v with
    | string s =>
      by_cases hs : s = specVersion
      · simp [hs, eq_comm]
      · simp only [if_neg hs]
        exact iff_of_false (run_throw_ne_ok _ _ _) (by simp [hs])
    | _ => exact iff_of_false (run_throw_ne_ok _ _ _) (by simp)

theorem run_takeTime_eq_ok_iff {time : Option Timestamp} :
    takeTime.run ms = .ok (time, left) ↔ TimeAt (get? "time" ms) time ∧ left = swapErase "time" ms := by
  rw [takeTime, run_bind_eq_ok_iff]
  simp only [run_takeString?_eq_ok_iff]
  constructor
  · rintro ⟨o, ms', ⟨hg, rfl⟩, h⟩
    cases o with
    | none =>
      cases h
      exact ⟨hg, rfl⟩
    | some text =>
      dsimp only at h
      split at h
      · rename_i t ht
        cases h
        exact ⟨⟨text, hg, ht⟩, rfl⟩
      · cases h
  · rintro ⟨ht, rfl⟩
    cases time with
    | none => exact ⟨none, _, ⟨ht, rfl⟩, rfl⟩
    | some t =>
      obtain ⟨text, hg, ht⟩ := ht
      refine ⟨some text, _, ⟨hg, rfl⟩, ?_⟩
      simp only [ht]
      rfl

/-- The payload that the member `data` stands for. -/
def payloadOfData (contentType : Option String) : Option Json → Option Payload
  | none => none
  | some .null => none
  | some (.string s) => some (if isJsonContentType contentType then .json (.string s) else .text s)
  | some v => some (.json v)

theorem run_takeData (contentType : Option String) (ms : List (String × Json)) :
    StateT.run (do
      match ← take? "data" with
      | none => return none
      | some .null => return none
      | some (.string s) => return some (if isJsonContentType contentType then .json (.string s) else .text s)
      | some v => return some (.json v)) ms = .ok (payloadOfData contentType (get? "data" ms), swapErase "data" ms) := by
  rw [StateT.run_bind, run_take?, Except.ok_bind]
  cases get? "data" ms with
  | none => rfl
  | some v => cases v <;> rfl

section

variable {contentType : Option String} {bytes data : Option Json} {payload : Option Payload}

theorem payloadOfData_ne_binary (bs : List UInt8) : payloadOfData contentType data ≠ some (.binary bs) := by
  unfold payloadOfData
  split
  · exact nofun
  · exact nofun
  · split <;> exact nofun
  · exact nofun

/-- Without bytes the member `data` decides. -/
theorem payloadOfData_eq_iff (hb : StringAt bytes none) :
    payloadOfData contentType data = payload ↔
      PayloadAt contentType bytes data payload ∧ ∀ bs, payload ≠ some (.binary bs) := by
  constructor
  · rintro rfl
    refine ⟨?_, payloadOfData_ne_binary⟩
    cases data with
    | none => exact ⟨hb, .inl rfl⟩
    | some v =>
      cases v with
      | null => exact ⟨hb, .inr rfl⟩
      | string s =>
        cases hj : isJsonContentType contentType with
        | true =>
          rw [payloadOfData, hj]
          exact ⟨hb, rfl, nofun, fun _ _ => hj⟩
        | false =>
          rw [payloadOfData, hj]
          exact ⟨hb, rfl, hj⟩
      | _ => exact ⟨hb, rfl, nofun, nofun⟩
  · rintro ⟨hp, hn⟩
    cases payload with
    | none =>
      rcases hp.2 with rfl | rfl <;> rfl
    | some p =>
      cases p with
      | binary bs => exact absurd rfl (hn bs)
      | text s =>
        obtain ⟨-, rfl, hj⟩ := hp
        rw [payloadOfData, hj]
        rfl
      | json v =>
        obtain ⟨-, rfl, hnull, hj⟩ := hp
        cases v with
        | null => exact absurd rfl hnull
        | string s =>
          rw [payloadOfData, hj s rfl]
          rfl
        | _ => rfl

theorem PayloadAt.no_bytes (h : PayloadAt contentType bytes data payload) (hn : ∀ bs, payload ≠ some (.binary bs)) :
    StringAt bytes none := by
  cases payload with
  | none => exact h.1
  | some p =>
    cases p with
    | binary bs => exact absurd rfl (hn bs)
    | text s => exact h.1
    | json v => exact h.1

theorem payloadNames_of_ne_binary (hn : ∀ bs, payload ≠ some (.binary bs)) :
    payloadNames payload = ["data_base64", "data"] := by
  unfold payloadNames
  split
  · rename_i bs
    exact absurd rfl (hn bs)
  · rfl

theorem run_takePayload_eq_ok_iff :
    (takePayload contentType).run ms = .ok (payload, left) ↔
      PayloadAt contentType (get? "data_base64" ms) (get? "data" (swapErase "data_base64" ms)) payload ∧
        left = without (payloadNames payload) ms := by
  rw [takePayload, run_bind_eq_ok_iff]
  simp only [run_takeString?_eq_ok_iff]
  constructor
  · rintro ⟨o, ms', ⟨hb, rfl⟩, h⟩
    cases o with
    | some text =>
      dsimp only at h
      split at h
      · rename_i bs hbs
        cases h
        exact ⟨⟨text, hb, hbs⟩, rfl⟩
      · cases h
    | none =>
      cases (run_takeData contentType _).symm.trans h
      obtain ⟨hp, hn⟩ := (payloadOfData_eq_iff hb).1 rfl
      exact ⟨hp, by rw [payloadNames_of_ne_binary hn]; rfl⟩
  · rintro ⟨hp, rfl⟩
    by_cases hn : ∀ bs, payload ≠ some (.binary bs)
    · refine ⟨none, _, ⟨hp.no_bytes hn, rfl⟩, (run_takeData contentType _).trans ?_⟩
      rw [(payloadOfData_eq_iff (hp.no_bytes hn)).2 ⟨hp, hn⟩, payloadNames_of_ne_binary hn]
      rfl
    · obtain ⟨bs, rfl⟩ : ∃ bs, payload = some (.binary bs) := by simpa using hn
      obtain ⟨text, hb, hbs⟩ := hp
      refine ⟨some text, _, ⟨hb, rfl⟩, ?_⟩
      simp only [hbs]
      rfl

end

/-! ## Events -/

/-- The names that are taken out for attributes of an event with this payload. -/
def takenNames (payload : Option Payload) : List String :=
  ["specversion", "id", "source", "type", "time", "subject", "datacontenttype"] ++ payloadNames payload

/-- The members that an event is read from, in any order. -/
structure ReadFrom (e : Event) (ms : List (String × Json)) : Prop where
  specVersion : ∀ v, get? "specversion" ms = some v → v = .string specVersion
  id : get? "id" ms = some (.string e.id)
  source : get? "source" ms = some (.string e.source)
  type : get? "type" ms = some (.string e.type)
  time : TimeAt (get? "time" ms) e.time
  subject : StringAt (get? "subject" ms) e.subject
  contentType : StringAt (get? "datacontenttype" ms) e.contentType
  payload : PayloadAt e.contentType (get? "data_base64" ms) (get? "data" ms) e.payload
  extension : ∀ name, (if name ∈ takenNames e.payload then none else get? name ms) =
    (e.extensions.get? name).map extensionToJson

theorem run_takeEvent_eq_ok_iff (hd : Distinct ms) {e : Event} :
    takeEvent.run ms = .ok (e, left) ↔ e.ReadFrom ms ∧ left = without (takenNames e.payload) ms := by
  -- a name that has not been taken out yet says what it says in the whole object
  have found (names : List String) (name : String) (P : Option Json → Prop) (hn : name ∉ names) :
      P (get? name (without names ms)) ↔ P (get? name ms) := by
    rw [get?_without names hd, if_neg hn]
  have hid := found ["specversion"] "id"
  have hsource := found ["specversion", "id"] "source"
  have htype := found ["specversion", "id", "source"] "type"
  have htime := found ["specversion", "id", "source", "type"] "time"
  have hsubject := found ["specversion", "id", "source", "type", "time"] "subject"
  have hct := found ["specversion", "id", "source", "type", "time", "subject"] "datacontenttype"
  have hbytes := found ["specversion", "id", "source", "type", "time", "subject", "datacontenttype"] "data_base64"
  have hdata := found
    ["specversion", "id", "source", "type", "time", "subject", "datacontenttype", "data_base64"] "data"
  have hrest (p : Option Payload) (m : NameMap Extension) :=
    ofList_extensionsOfMembers_iff (distinct_without (takenNames p) hd) (m := m)
  simp only [get?_without _ hd] at hrest
  constructor
  · intro h
    obtain ⟨_, _, r0, h⟩ := run_bind_eq_ok_iff.1 h
    obtain ⟨h0, rfl⟩ := run_takeSpecVersion_eq_ok_iff.1 r0
    obtain ⟨id, _, r1, h⟩ := run_bind_eq_ok_iff.1 h
    obtain ⟨h1, rfl⟩ := run_takeRequired_eq_ok_iff.1 r1
    obtain ⟨source, _, r2, h⟩ := run_bind_eq_ok_iff.1 h
    obtain ⟨h2, rfl⟩ := run_takeRequired_eq_ok_iff.1 r2
    obtain ⟨type, _, r3, h⟩ := run_bind_eq_ok_iff.1 h
    obtain ⟨h3, rfl⟩ := run_takeRequired_eq_ok_iff.1 r3
    obtain ⟨time, _, r4, h⟩ := run_bind_eq_ok_iff.1 h
    obtain ⟨h4, rfl⟩ := run_takeTime_eq_ok_iff.1 r4
    obtain ⟨subject, _, r5, h⟩ := run_bind_eq_ok_iff.1 h
    obtain ⟨h5, rfl⟩ := run_takeString?_eq_ok_iff.1 r5
    obtain ⟨contentType, _, r6, h⟩ := run_bind_eq_ok_iff.1 h
    obtain ⟨h6, rfl⟩ := run_takeString?_eq_ok_iff.1 r6
    obtain ⟨payload, _, r7, h⟩ := run_bind_eq_ok_iff.1 h
    obtain ⟨h7, rfl⟩ := run_takePayload_eq_ok_iff.1 r7
    obtain ⟨rest, _, r8, h⟩ := run_bind_eq_ok_iff.1 h
    cases r8
    obtain ⟨xs, _, r9, h⟩ := run_bind_eq_ok_iff.1 h
    obtain ⟨hxs, rfl⟩ := run_liftM_eq_ok_iff.1 r9
    cases h
    refine ⟨?_, rfl⟩
    constructor
    case specVersion => exact h0
    case id => exact (hid (· = _) (by decide)).1 h1
    case source => exact (hsource (· = _) (by decide)).1 h2
    case type => exact (htype (· = _) (by decide)).1 h3
    case time => exact (htime (TimeAt · _) (by decide)).1 h4
    case subject => exact (hsubject (StringAt · _) (by decide)).1 h5
    case contentType => exact (hct (StringAt · _) (by decide)).1 h6
    case payload =>
      exact (hbytes (PayloadAt _ · _ _) (by decide)).1 ((hdata (PayloadAt _ _ · _) (by decide)).1 h7)
    case extension => exact (hrest payload _).1 ⟨xs, hxs, rfl⟩
  · rintro ⟨h, rfl⟩
    obtain ⟨xs, hxs, he⟩ := (hrest e.payload e.extensions).2 h.extension
    have h7 := (hdata (PayloadAt _ _ · _) (by decide)).2 ((hbytes (PayloadAt _ · _ _) (by decide)).2 h.payload)
    refine run_bind_eq_ok_iff.2 ⟨_, _, run_takeSpecVersion_eq_ok_iff.2 ⟨h.specVersion, rfl⟩, ?_⟩
    refine run_bind_eq_ok_iff.2 ⟨_, _, run_takeRequired_eq_ok_iff.2 ⟨(hid (· = _) (by decide)).2 h.id, rfl⟩, ?_⟩
    refine run_bind_eq_ok_iff.2 ⟨_, _, run_takeRequired_eq_ok_iff.2 ⟨(hsource (· = _) (by decide)).2 h.source, rfl⟩, ?_⟩
    refine run_bind_eq_ok_iff.2 ⟨_, _, run_takeRequired_eq_ok_iff.2 ⟨(htype (· = _) (by decide)).2 h.type, rfl⟩, ?_⟩
    refine run_bind_eq_ok_iff.2 ⟨_, _, run_takeTime_eq_ok_iff.2 ⟨(htime (TimeAt · _) (by decide)).2 h.time, rfl⟩, ?_⟩
    refine run_bind_eq_ok_iff.2
      ⟨_, _, run_takeString?_eq_ok_iff.2 ⟨(hsubject (StringAt · _) (by decide)).2 h.subject, rfl⟩, ?_⟩
    refine run_bind_eq_ok_iff.2
      ⟨_, _, run_takeString?_eq_ok_iff.2 ⟨(hct (StringAt · _) (by decide)).2 h.contentType, rfl⟩, ?_⟩
    refine run_bind_eq_ok_iff.2 ⟨_, _, run_takePayload_eq_ok_iff.2 ⟨h7, rfl⟩, ?_⟩
    refine run_bind_eq_ok_iff.2 ⟨_, _, rfl, ?_⟩
    refine run_bind_eq_ok_iff.2 ⟨xs, _, run_liftM_eq_ok_iff.2 ⟨hxs, rfl⟩, ?_⟩
    rw [he]
    rfl

/-- **Reading an event**: an object is read as an event just if these are the members of the event. -/
theorem ofJson_eq_ok_iff (hd : Distinct ms) {e : Event} : ofJson (.object ms) = .ok e ↔ e.ReadFrom ms := by
  have hrun : ofJson (.object ms) = .ok e ↔ ∃ left, takeEvent.run ms = .ok (e, left) := by
    rw [ofJson, StateT.run'_eq]
    cases takeEvent.run ms with
    | error problem => exact ⟨nofun, nofun⟩
    | ok a =>
      constructor
      · intro h
        cases h
        exact ⟨a.2, rfl⟩
      · rintro ⟨left, h⟩
        cases h
        rfl
  rw [hrun]
  simp only [run_takeEvent_eq_ok_iff hd, exists_and_left, exists_eq, and_true]

/-- The time and the JSON payload of an event that was read stand in the object that it was read from. -/
theorem ofJson_inv {e : Event} (hd : Distinct ms) (h : ofJson (.object ms) = .ok e) :
    (∀ t, e.time = some t → ∃ text, get? "time" ms = some (.string text) ∧ Timestamp.ofRfc3339 text = .ok t) ∧
      ∀ v, e.payload = some (.json v) → get? "data" ms = some v := by
  have hr := (ofJson_eq_ok_iff hd).1 h
  constructor
  · intro t ht
    have := hr.time
    rwa [ht] at this
  · intro v hv
    have := hr.payload
    rw [hv] at this
    exact this.2.1

end Chronicle.Event
