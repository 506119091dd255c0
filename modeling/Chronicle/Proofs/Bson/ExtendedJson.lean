import Chronicle.Bson.ExtendedJson.Printer
import Chronicle.Bson.ExtendedJson.Reader
import Chronicle.Proofs.Except
import Chronicle.Proofs.Json.Parts

/-!
# JSON kept in documents

A JSON value becomes a BSON value and comes back from it as extended JSON unchanged, if nothing in it is an integer that
only an unsigned type holds or an object that is read as a form of extended JSON (`keeps_of_formFree`). The latter is so
if no key might be claimed by a form (`toJson_ofJson`, for `Plain` values).
-/

namespace Chronicle

/-- Whether a key is free of the `$` that marks the forms of extended JSON. -/
def Json.PlainKey (key : String) : Prop := key.toList.head? ≠ some '$'

instance (key : String) : Decidable (Json.PlainKey key) := inferInstanceAs (Decidable (_ ≠ _))

/-- A value whose integers are signed and whose keys are free of `$`. -/
structure Json.Plain (v : Json) : Prop where
  integers : ∀ n, .integer n ∈ v.parts → n.val < 0x8000000000000000
  keys : ∀ ms, .object ms ∈ v.parts → ∀ m ∈ ms, Json.PlainKey m.1

namespace Json

theorem Plain.member {m : String × Json} {members : List (String × Json)} (h : Plain (.object members))
    (hm : m ∈ members) : m.2.Plain where
  integers n hn := h.integers n (mem_parts_object hm hn)
  keys ms hms := h.keys ms (mem_parts_object hm hms)

end Json

namespace Bson

open Json (Plain PlainKey)

theorem toJsonMembers_eq (fields : Document) : toJsonMembers fields = fields.map fun f => (f.1, toJson f.2) := by
  induction fields with
  | nil => rfl
  | cons f rest ih => rw [toJsonMembers, ih, List.map_cons]

/-! ## Keys -/

/-- No form of extended JSON has a key without `$`. -/
theorem ofForm?_eq_none {key : String} (hk : PlainKey key) (content : Bson) : ofForm? key content = none := by
  unfold ofForm?
  split
  all_goals first
    | exact absurd rfl hk
    | rfl

theorem ofDocument_eq {fields : Document} (h : ∀ f ∈ fields, PlainKey f.1) : ofDocument fields = .document fields := by
  unfold ofDocument
  split
  · rename_i key content
    rw [ofForm?_eq_none (h _ List.mem_cons_self)]
    rfl
  · have hk : PlainKey "$code" := h _ List.mem_cons_self
    exact absurd rfl hk
  · have hk : PlainKey "$scope" := h _ List.mem_cons_self
    exact absurd rfl hk
  · rfl

theorem names_ofJsonMembers {members : List (String × Json)} {fields : Document}
    (h : ofJsonMembers members = .ok fields) : Fields.names fields = Fields.names members := by
  induction members generalizing fields with
  | nil =>
    rw [ofJsonMembers] at h
    cases h
    rfl
  | cons m rest ih =>
    obtain ⟨b, -, h⟩ := Except.bind_eq_ok_iff.1 h
    obtain ⟨bs, hr, h⟩ := Except.bind_eq_ok_iff.1 h
    cases h
    exact congrArg (m.1 :: ·) (ih hr)

/-- An object of plain keys is stored as a document. -/
theorem ofDocument_of_plainKeys {members : List (String × Json)} (hk : ∀ m ∈ members, PlainKey m.1) {fields : Document}
    (h : ofJsonMembers members = .ok fields) : ofDocument fields = .document fields := by
  refine ofDocument_eq fun f hf => ?_
  have hn : f.1 ∈ Fields.names members := names_ofJsonMembers h ▸ List.mem_map_of_mem hf
  obtain ⟨m, hm, hf⟩ := List.mem_map.1 hn
  exact hf ▸ hk m hm

/-! ## Forms -/

end Bson

/-- No object in a value is read as a form of extended JSON. -/
def Json.FormFree (v : Json) : Prop :=
  ∀ members, .object members ∈ v.parts →
    ∀ fields, Bson.ofJsonMembers members = .ok fields → Bson.ofDocument fields = .document fields

namespace Json

theorem FormFree.item {v : Json} {items : List Json} (h : FormFree (.array items)) (hv : v ∈ items) : v.FormFree :=
  fun members hm => h members (mem_parts_array hv hm)

theorem FormFree.member {m : String × Json} {members : List (String × Json)} (h : FormFree (.object members))
    (hm : m ∈ members) : m.2.FormFree := fun members hms => h members (mem_parts_object hm hms)

theorem Plain.formFree {v : Json} (h : v.Plain) : v.FormFree :=
  fun members hm _ hf => Bson.ofDocument_of_plainKeys (h.keys members hm) hf

end Json

namespace Bson

open Json (Plain PlainKey)

/-! ## Values -/

/-- The BSON value of a JSON value exists and is written as that value. -/
def Keeps (v : Json) : Prop := ∃ b, ofJson v = .ok b ∧ toJson b = v

theorem ofJsonItems_keeps {items : List Json} (h : ∀ v ∈ items, Keeps v) :
    ∃ bs, ofJsonItems items = .ok bs ∧ toJsonItems bs = items := by
  induction items with
  | nil => exact ⟨[], rfl, rfl⟩
  | cons v rest ih =>
    obtain ⟨⟨b, hb, hbv⟩, hr⟩ := List.forall_mem_cons.1 h
    obtain ⟨bs, hbs, hbsv⟩ := ih hr
    refine ⟨b :: bs, ?_, ?_⟩
    · rw [ofJsonItems, hb, hbs]
      rfl
    · rw [toJsonItems, hbv, hbsv]

theorem ofJsonMembers_keeps {members : List (String × Json)} (h : ∀ m ∈ members, Keeps m.2) :
    ∃ fields, ofJsonMembers members = .ok fields ∧ toJsonMembers fields = members := by
  induction members with
  | nil => exact ⟨[], rfl, rfl⟩
  | cons m rest ih =>
    obtain ⟨k, v⟩ := m
    obtain ⟨⟨b, hb, hbv⟩, hr⟩ := List.forall_mem_cons.1 h
    obtain ⟨fields, hf, hfv⟩ := ih hr
    refine ⟨(k, b) :: fields, ?_, ?_⟩
    · rw [ofJsonMembers, hb, hf]
      rfl
    · rw [toJsonMembers, hbv, hfv]

theorem keeps_integer {n : Json.Integer} (h : n.val < 0x8000000000000000) : Keeps (.integer n) := by
  refine ⟨.int64 (Int64.ofInt n.val), ?_, ?_⟩
  · simp only [ofJson, Json.Integer.toInt64?, if_pos h]
  · have hn : (Int64.ofInt n.val).toInt = n.val := Int64.toInt_ofInt_of_le n.ge h
    cases n
    simp only [toJson, scalarToJson, Json.Integer.ofInt64, hn]

theorem keeps_double (x : Json.Double) : Keeps (.double x) := by
  refine ⟨.double x.val, rfl, ?_⟩
  simp only [toJson, doubleToJson, Json.Double.ofFloat?, x.finite, ↓reduceDIte]

theorem ofJson_object_of_keeps {members : List (String × Json)}
    (hf : ∀ fields, ofJsonMembers members = .ok fields → ofDocument fields = .document fields)
    (h : ∀ m ∈ members, Keeps m.2) :
    ∃ fields, ofJson (.object members) = .ok (.document fields) ∧ toJsonMembers fields = members := by
  obtain ⟨fields, hm, hv⟩ := ofJsonMembers_keeps h
  refine ⟨fields, ?_, hv⟩
  rw [ofJson, hm, Except.ok_bind, hf fields hm]
  rfl

/-- **Storing**: a value of signed integers comes back from BSON as it was, if it holds no form of extended JSON. -/
theorem keeps_of_formFree {v : Json} (hi : ∀ n, .integer n ∈ v.parts → n.val < 0x8000000000000000)
    (hf : v.FormFree) : Keeps v := by
  induction v using Json.induct with
  | null => exact ⟨.null, rfl, rfl⟩
  | bool b => exact ⟨.boolean b, rfl, rfl⟩
  | integer n => exact keeps_integer (hi n (Json.self_mem_parts _))
  | double x => exact keeps_double x
  | string s => exact ⟨.string s, rfl, rfl⟩
  | array items ih =>
    obtain ⟨bs, hbs, hv⟩ := ofJsonItems_keeps fun v hv =>
      ih v hv (fun n hn => hi n (Json.mem_parts_array hv hn)) (hf.item hv)
    refine ⟨.array bs, ?_, ?_⟩
    · rw [ofJson, hbs]
      rfl
    · rw [toJson, hv]
  | object members ih =>
    obtain ⟨fields, hfields, hv⟩ := ofJson_object_of_keeps (hf members (Json.self_mem_parts _)) fun m hm =>
      ih m hm (fun n hn => hi n (Json.mem_parts_object hm hn)) (hf.member hm)
    exact ⟨.document fields, hfields, by rw [toJson, hv]⟩

theorem toJson_ofJson {v : Json} (h : v.Plain) : Keeps v := keeps_of_formFree h.integers h.formFree

/-- A plain object is stored as a document, field by field. -/
theorem ofJson_object {members : List (String × Json)} (h : Plain (.object members)) :
    ∃ fields, ofJson (.object members) = .ok (.document fields) ∧ toJsonMembers fields = members :=
  ofJson_object_of_keeps (h.formFree members (Json.self_mem_parts _)) fun _ hm => toJson_ofJson (h.member hm)

end Bson

end Chronicle
