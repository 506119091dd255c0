import Chronicle.Proofs.Bson.ExtendedJson
import Chronicle.Proofs.Fields

/-!
# What becomes of a stored value

A value is stored part by part (`ofJsonItems_inv`, `ofJsonMembers_inv`), which fails only for unsigned integers
(`exists_ofJson_iff`). Whatever forms of extended JSON were found in it, it is written as a well-formed value again
(`writtenWell_of_ofJson`): a form becomes a value that is no container (`Atomic`), or a piece of code with its scope.
`Json.restored` is the value that is written.
-/

namespace Chronicle

namespace Bson

open Json (WellFormed)

variable {items : List Json} {members : List (String × Json)} {fields : Document}

/-! ## Part by part -/

theorem ofJsonItems_inv {bs : List Bson} (h : ofJsonItems items = .ok bs) :
    (∀ v ∈ items, ∃ b, ofJson v = .ok b) ∧ ∀ b ∈ bs, ∃ v ∈ items, ofJson v = .ok b := by
  induction items generalizing bs with
  | nil =>
    rw [ofJsonItems] at h
    cases h
    simp
  | cons v rest ih =>
    obtain ⟨b, hb, h⟩ := Except.bind_eq_ok_iff.1 h
    obtain ⟨bs, hr, h⟩ := Except.bind_eq_ok_iff.1 h
    cases h
    obtain ⟨hv, hbs⟩ := ih hr
    constructor
    · exact List.forall_mem_cons.2 ⟨⟨b, hb⟩, hv⟩
    · refine List.forall_mem_cons.2 ⟨⟨v, List.mem_cons_self, hb⟩, fun b hb => ?_⟩
      obtain ⟨v, hv, hb⟩ := hbs b hb
      exact ⟨v, List.mem_cons_of_mem _ hv, hb⟩

theorem ofJsonMembers_inv (h : ofJsonMembers members = .ok fields) :
    (∀ m ∈ members, ∃ b, ofJson m.2 = .ok b) ∧ ∀ f ∈ fields, ∃ m ∈ members, m.1 = f.1 ∧ ofJson m.2 = .ok f.2 := by
  induction members generalizing fields with
  | nil =>
    rw [ofJsonMembers] at h
    cases h
    simp
  | cons m rest ih =>
    obtain ⟨b, hb, h⟩ := Except.bind_eq_ok_iff.1 h
    obtain ⟨bs, hr, h⟩ := Except.bind_eq_ok_iff.1 h
    cases h
    obtain ⟨hm, hfs⟩ := ih hr
    constructor
    · exact List.forall_mem_cons.2 ⟨⟨b, hb⟩, hm⟩
    · refine List.forall_mem_cons.2 ⟨⟨m, List.mem_cons_self, rfl, hb⟩, fun f hf => ?_⟩
      obtain ⟨m, hm, hf⟩ := hfs f hf
      exact ⟨m, List.mem_cons_of_mem _ hm, hf⟩

theorem exists_ofJsonItems (h : ∀ v ∈ items, ∃ b, ofJson v = .ok b) : ∃ bs, ofJsonItems items = .ok bs := by
  induction items with
  | nil => exact ⟨[], rfl⟩
  | cons v rest ih =>
    obtain ⟨⟨b, hb⟩, hr⟩ := List.forall_mem_cons.1 h
    obtain ⟨bs, hbs⟩ := ih hr
    exact ⟨b :: bs, by rw [ofJsonItems, hb, hbs]; rfl⟩

theorem exists_ofJsonMembers (h : ∀ m ∈ members, ∃ b, ofJson m.2 = .ok b) :
    ∃ fields, ofJsonMembers members = .ok fields := by
  induction members with
  | nil => exact ⟨[], rfl⟩
  | cons m rest ih =>
    obtain ⟨⟨b, hb⟩, hr⟩ := List.forall_mem_cons.1 h
    obtain ⟨fields, hf⟩ := ih hr
    exact ⟨(m.1, b) :: fields, by rw [ofJsonMembers, hb, hf]; rfl⟩

/-- All integers of a stored value are signed. -/
theorem signed_of_ofJson {v : Json} {b : Bson} (h : ofJson v = .ok b) {n : Json.Integer} (hn : .integer n ∈ v.parts) :
    n.val < 0x8000000000000000 := by
  induction v using Json.induct generalizing b with
  | integer m =>
    cases List.mem_singleton.1 hn
    rw [ofJson, Json.Integer.toInt64?] at h
    split at h
    · rename_i i hi
      split at hi
      · assumption
      · cases hi
    · cases h
  | array items ih =>
    obtain ⟨bs, hbs, -⟩ := Except.bind_eq_ok_iff.1 h
    rcases Json.of_mem_parts_array hn with hn | ⟨v, hv, hn⟩
    · cases hn
    · obtain ⟨b, hb⟩ := (ofJsonItems_inv hbs).1 v hv
      exact ih v hv hb hn
  | object members ih =>
    obtain ⟨fields, hf, -⟩ := Except.bind_eq_ok_iff.1 h
    rcases Json.of_mem_parts_object hn with hn | ⟨m, hm, hn⟩
    · cases hn
    · obtain ⟨b, hb⟩ := (ofJsonMembers_inv hf).1 m hm
      exact ih m hm hb hn
  | _ => cases List.mem_singleton.1 hn

/-- A value can be stored just if all its integers are signed. -/
theorem exists_ofJson_iff {v : Json} :
    (∃ b, ofJson v = .ok b) ↔ ∀ n, .integer n ∈ v.parts → n.val < 0x8000000000000000 := by
  refine ⟨fun ⟨b, hb⟩ n hn => signed_of_ofJson hb hn, fun h => ?_⟩
  induction v using Json.induct with
  | null => exact ⟨.null, rfl⟩
  | bool b => exact ⟨.boolean b, rfl⟩
  | integer n =>
    obtain ⟨b, hb, -⟩ := keeps_integer (h n (Json.self_mem_parts _))
    exact ⟨b, hb⟩
  | double x => exact ⟨.double x.val, rfl⟩
  | string s => exact ⟨.string s, rfl⟩
  | array items ih =>
    obtain ⟨bs, hbs⟩ := exists_ofJsonItems fun v hv => ih v hv fun n hn => h n (Json.mem_parts_array hv hn)
    exact ⟨.array bs, by rw [ofJson, hbs]; rfl⟩
  | object members ih =>
    obtain ⟨fields, hf⟩ := exists_ofJsonMembers fun m hm => ih m hm fun n hn => h n (Json.mem_parts_object hm hn)
    exact ⟨ofDocument fields, by rw [ofJson, hf]; rfl⟩

/-! ## Well-formed again -/

/-- A value that a form with one key can stand for: no container, and not null. -/
def Atomic : Bson → Prop
  | .null | .array _ | .document _ | .codeWithScope .. => False
  | _ => True

theorem atomic_binaryParts? {b : Bson} (h : binaryParts? fields = some b) : b.Atomic := by
  unfold binaryParts? at h
  split at h
  · split at h
    · obtain ⟨bytes, -, h⟩ := Option.bind_eq_some_iff.1 h
      obtain ⟨codes, -, h⟩ := Option.bind_eq_some_iff.1 h
      split at h
      · cases h
        trivial
      · cases h
    · cases h
  · split at h
    · split at h
      · cases h
        trivial
      · cases h
    · cases h

theorem atomic_timestampParts? {b : Bson} (h : timestampParts? fields = some b) : b.Atomic := by
  unfold timestampParts? at h
  split at h
  · cases h
    trivial
  · split at h
    · cases h
      trivial
    · cases h
  · cases h

theorem atomic_doubleOfText? {s : String} {b : Bson} (h : doubleOfText? s = some b) : b.Atomic := by
  unfold doubleOfText? at h
  split at h
  · cases h
    trivial
  · obtain ⟨x, -, rfl⟩ := Option.map_eq_some_iff.1 h
    trivial

/-- The forms with one key stand for atomic values. -/
theorem atomic_ofForm? {key : String} {content b : Bson} (h : ofForm? key content = some b) : b.Atomic := by
  unfold ofForm? at h
  split at h
  case h_1 | h_3 | h_4 | h_6 | h_7 | h_14 =>
    obtain ⟨a, -, rfl⟩ := Option.map_eq_some_iff.1 h
    trivial
  case h_2 | h_9 | h_13 | h_19 =>
    cases h
    trivial
  case h_5 => exact atomic_doubleOfText? h
  case h_8 => exact atomic_binaryParts? h
  case h_10 => exact atomic_timestampParts? h
  -- forms whose content has to be of one shape
  case h_11 | h_12 | h_15 | h_16 | h_17 | h_18 =>
    split at h
    · cases h
      trivial
    · cases h
  case h_20 => cases h

/-- A value is written as a well-formed one, in a scope as well. -/
structure WrittenWell (b : Bson) : Prop where
  plain : (toJson b).WellFormed
  scope : (toScopeJson b).WellFormed

theorem wellFormed_form {key : String} {content : Json} (h : content.WellFormed) : (form key content).WellFormed :=
  ⟨List.nodup_cons.2 ⟨List.not_mem_nil, .nil⟩, h, trivial⟩

theorem wellFormed_pair {key key' : String} {content content' : Json} (hk : key ≠ key') (h : content.WellFormed)
    (h' : content'.WellFormed) : (Json.object [(key, content), (key', content')]).WellFormed :=
  ⟨by simpa [Fields.Distinct, Fields.names] using hk, h, h', trivial⟩

theorem wellFormed_number (n : Nat) : (number n).WellFormed := by
  unfold number
  cases Json.Integer.ofInt? n <;> trivial

-- the bounds of an integer are too large for Lean to look at whenever it compares two numbers
attribute [local irreducible] number

theorem wellFormed_bytesToJson (bytes : List UInt8) : (bytesToJson bytes).WellFormed := by
  refine Json.wellFormedItems_iff.2 fun v hv => ?_
  obtain ⟨b, -, rfl⟩ := List.mem_map.1 hv
  exact wellFormed_number b.toNat

theorem wellFormed_dateToNumber (millis : Int64) : (dateToNumber millis).WellFormed :=
  wellFormed_form (wellFormed_form trivial)

theorem wellFormed_dateToJson (millis : Int64) : (dateToJson millis).WellFormed := by
  unfold dateToJson
  dsimp only
  split
  · exact wellFormed_form trivial
  · exact wellFormed_dateToNumber millis

theorem wellFormed_binaryToJson (subtype : UInt8) (bytes : List UInt8) : (binaryToJson subtype bytes).WellFormed :=
  wellFormed_form (wellFormed_pair (by decide) trivial trivial)

theorem wellFormed_regexToJson (pattern options : String) : (regexToJson pattern options).WellFormed :=
  wellFormed_form (wellFormed_pair (by decide) trivial trivial)

theorem wellFormed_scalarToJson (b : Bson) : (scalarToJson b).WellFormed := by
  cases b with
  | code source => exact wellFormed_form trivial
  | timestamp t i =>
    exact wellFormed_form (wellFormed_pair (by decide) (wellFormed_number t.toNat) (wellFormed_number i.toNat))
  | objectId id => exact wellFormed_form trivial
  | symbol s => exact wellFormed_form trivial
  | undefined => exact wellFormed_form trivial
  | maxKey => exact wellFormed_form (wellFormed_number 1)
  | minKey => exact wellFormed_form (wellFormed_number 1)
  | dbPointer target id => exact wellFormed_form (wellFormed_pair (by decide) trivial (wellFormed_form trivial))
  | _ => trivial

theorem Atomic.writtenWell {b : Bson} (h : b.Atomic) : b.WrittenWell := by
  cases b with
  | null | array items | document fields | codeWithScope source scope => exact absurd h id
  | double x =>
    constructor
    · rw [toJson, doubleToJson]
      split
      · trivial
      · exact wellFormed_form trivial
    · rw [toScopeJson]
      cases Json.Double.ofFloat? x <;> trivial
  | negativeNaN => exact ⟨wellFormed_form trivial, trivial⟩
  | decimal128 d => exact ⟨wellFormed_form trivial, wellFormed_form (wellFormed_bytesToJson d.bytes)⟩
  | regex pattern options => exact ⟨wellFormed_regexToJson _ _, wellFormed_regexToJson _ _⟩
  | binary subtype bytes =>
    refine ⟨wellFormed_binaryToJson _ _, ?_⟩
    rw [toScopeJson]
    split
    · exact wellFormed_bytesToJson bytes
    · exact wellFormed_binaryToJson _ _
  | date millis =>
    refine ⟨?_, wellFormed_dateToNumber millis⟩
    rw [toJson]
    exact wellFormed_dateToJson millis
  | _ => constructor <;> (simp only [toJson, toScopeJson]; exact wellFormed_scalarToJson _)

theorem toScopeMembers_eq (fields : Document) : toScopeMembers fields = fields.map fun f => (f.1, toScopeJson f.2) := by
  induction fields with
  | nil => rfl
  | cons f rest ih => rw [toScopeMembers, ih, List.map_cons]

theorem toJsonItems_eq (items : List Bson) : toJsonItems items = items.map toJson := by
  induction items with
  | nil => rfl
  | cons b rest ih => rw [toJsonItems, ih, List.map_cons]

theorem toScopeItems_eq (items : List Bson) : toScopeItems items = items.map toScopeJson := by
  induction items with
  | nil => rfl
  | cons b rest ih => rw [toScopeItems, ih, List.map_cons]

theorem writtenWell_document (hd : Fields.Distinct fields) (h : ∀ f ∈ fields, f.2.WrittenWell) :
    (document fields).WrittenWell := by
  constructor
  · rw [toJson, toJsonMembers_eq]
    refine ⟨?_, Json.wellFormedMembers_iff.2 fun m hm => ?_⟩
    · rwa [Fields.Distinct, Fields.names_map]
    · obtain ⟨f, hf, rfl⟩ := List.mem_map.1 hm
      exact (h f hf).plain
  · rw [toScopeJson, toScopeMembers_eq]
    refine ⟨?_, Json.wellFormedMembers_iff.2 fun m hm => ?_⟩
    · rwa [Fields.Distinct, Fields.names_map]
    · obtain ⟨f, hf, rfl⟩ := List.mem_map.1 hm
      exact (h f hf).scope

theorem writtenWell_array {items : List Bson} (h : ∀ b ∈ items, b.WrittenWell) : (array items).WrittenWell := by
  constructor
  · rw [toJson, toJsonItems_eq]
    refine Json.wellFormedItems_iff.2 fun v hv => ?_
    obtain ⟨b, hb, rfl⟩ := List.mem_map.1 hv
    exact (h b hb).plain
  · rw [toScopeJson, toScopeItems_eq]
    refine Json.wellFormedItems_iff.2 fun v hv => ?_
    obtain ⟨b, hb, rfl⟩ := List.mem_map.1 hv
    exact (h b hb).scope

theorem writtenWell_codeWithScope {source : String} {scope : Document} (h : (document scope).WrittenWell) :
    (codeWithScope source scope).WrittenWell := by
  have hs := h.scope
  rw [toScopeJson] at hs
  exact ⟨wellFormed_pair (by decide) trivial hs, wellFormed_pair (by decide) trivial hs⟩

/-- A document is written well, whatever form it is. -/
theorem writtenWell_ofDocument (hd : Fields.Distinct fields) (h : ∀ f ∈ fields, f.2.WrittenWell) :
    (ofDocument fields).WrittenWell := by
  unfold ofDocument
  split
  · rename_i key content
    cases hform : ofForm? key content with
    | none => exact writtenWell_document hd h
    | some b => exact (atomic_ofForm? hform).writtenWell
  · exact writtenWell_codeWithScope (h _ (List.mem_cons_of_mem _ List.mem_cons_self))
  · exact writtenWell_codeWithScope (h _ List.mem_cons_self)
  · exact writtenWell_document hd h

/-- **Stored values**: whatever a well-formed value is stored as, it is written as a well-formed value. -/
theorem writtenWell_of_ofJson {v : Json} (hw : v.WellFormed) {b : Bson} (h : ofJson v = .ok b) : b.WrittenWell := by
  induction v using Json.induct generalizing b with
  | null =>
    cases h
    exact ⟨trivial, trivial⟩
  | bool _ | double _ | string _ =>
    cases h
    exact Atomic.writtenWell trivial
  | integer n =>
    rw [ofJson] at h
    split at h
    · cases h
      exact Atomic.writtenWell trivial
    · cases h
  | array items ih =>
    obtain ⟨bs, hbs, h⟩ := Except.bind_eq_ok_iff.1 h
    cases h
    refine writtenWell_array fun b hb => ?_
    obtain ⟨v, hv, hb⟩ := (ofJsonItems_inv hbs).2 b hb
    exact ih v hv (Json.wellFormedItems_iff.1 hw v hv) hb
  | object members ih =>
    obtain ⟨fields, hf, h⟩ := Except.bind_eq_ok_iff.1 h
    cases h
    refine writtenWell_ofDocument ?_ fun f hfm => ?_
    · rw [Fields.Distinct, names_ofJsonMembers hf]
      exact hw.1
    · obtain ⟨m, hm, -, hb⟩ := (ofJsonMembers_inv hf).2 f hfm
      exact ih m hm (Json.wellFormedMembers_iff.1 hw.2 m hm) hb

/-! ## Written again -/

theorem toJson_ne_null {b : Bson} (h : b ≠ .null) : toJson b ≠ .null := by
  cases b with
  | null => exact absurd rfl h
  | double x =>
    rw [toJson, doubleToJson]
    split <;> (intro h; cases h)
  | date millis =>
    rw [toJson, dateToJson]
    dsimp only
    split <;> (intro h; cases h)
  | _ =>
    intro h
    simp only [toJson, scalarToJson] at h
    cases h

/-- Only null is stored as null. -/
theorem ofJson_ne_null {v : Json} {b : Bson} (h : ofJson v = .ok b) (hv : v ≠ .null) : b ≠ .null := by
  cases v with
  | null => exact absurd rfl hv
  | integer n =>
    rw [ofJson] at h
    split at h
    · cases h
      exact fun h => by cases h
    · cases h
  | array items =>
    obtain ⟨bs, -, h⟩ := Except.bind_eq_ok_iff.1 h
    cases h
    exact fun h => by cases h
  | object members =>
    obtain ⟨fields, -, h⟩ := Except.bind_eq_ok_iff.1 h
    cases h
    unfold ofDocument
    split
    · rename_i key content
      cases hform : ofForm? key content with
      | none => exact fun h => by cases h
      | some b =>
        rintro rfl
        exact atomic_ofForm? hform
    all_goals exact fun h => by cases h
  | _ =>
    cases h
    exact fun h => by cases h

end Bson

/-- A value as it is written after it has been stored. What cannot be stored stays. -/
def Json.restored (v : Json) : Json :=
  match Bson.ofJson v with
  | .ok b => Bson.toJson b
  | .error _ => v

namespace Json

variable {v : Json}

theorem restored_of_ofJson {b : Bson} (h : Bson.ofJson v = .ok b) : v.restored = Bson.toJson b := by
  rw [restored, h]

theorem restored_of_keeps (h : Bson.Keeps v) : v.restored = v := by
  obtain ⟨b, hb, hv⟩ := h
  rw [restored_of_ofJson hb, hv]

theorem WellFormed.restored (h : v.WellFormed) : v.restored.WellFormed := by
  cases hb : Bson.ofJson v with
  | error n => rwa [Json.restored, hb]
  | ok b =>
    rw [restored_of_ofJson hb]
    exact (Bson.writtenWell_of_ofJson h hb).plain

theorem restored_ne_null (h : v ≠ .null) : v.restored ≠ .null := by
  cases hb : Bson.ofJson v with
  | error n => rwa [restored, hb]
  | ok b =>
    rw [restored_of_ofJson hb]
    exact Bson.toJson_ne_null (Bson.ofJson_ne_null hb h)

/-- An object that is stored as a document is written with each member restored. -/
theorem toJsonMembers_restored {members : List (String × Json)} {fields : Document}
    (h : Bson.ofJsonMembers members = .ok fields) :
    Bson.toJsonMembers fields = members.map fun m => (m.1, m.2.restored) := by
  induction members generalizing fields with
  | nil =>
    rw [Bson.ofJsonMembers] at h
    cases h
    rfl
  | cons m rest ih =>
    obtain ⟨b, hb, h⟩ := Except.bind_eq_ok_iff.1 h
    obtain ⟨bs, hr, h⟩ := Except.bind_eq_ok_iff.1 h
    cases h
    rw [Bson.toJsonMembers, ih hr, List.map_cons, restored_of_ofJson hb]

end Json

end Chronicle
