import Chronicle.Proofs.Bson.Forms

/-!
# Documents with distinct names

In a BSON value no document has a name twice, at whatever depth it stands (`Bson.WellFormed`). Such a value is written
as JSON of the same kind (`WellFormed.writtenWell`), and fields can be set, taken out and moved in it.
-/

namespace Chronicle.Bson

/-- Each document in a value, and each scope of a piece of code, has distinct names. -/
inductive WellFormed : Bson → Prop
  | null : WellFormed .null
  | atomic {b : Bson} (h : b.Atomic) : WellFormed b
  | array {items : List Bson} (h : ∀ b ∈ items, WellFormed b) : WellFormed (.array items)
  | document {fields : Document} (distinct : Fields.Distinct fields) (h : ∀ f ∈ fields, WellFormed f.2) :
    WellFormed (.document fields)
  | codeWithScope {source : String} {scope : Document} (distinct : Fields.Distinct scope)
    (h : ∀ f ∈ scope, WellFormed f.2) : WellFormed (.codeWithScope source scope)

namespace WellFormed

variable {b : Bson} {fields fields' : Document}

theorem writtenWell (h : b.WellFormed) : b.WrittenWell := by
  induction h with
  | null => exact ⟨trivial, trivial⟩
  | atomic h => exact h.writtenWell
  | array _ ih => exact writtenWell_array ih
  | document hd _ ih => exact writtenWell_document hd ih
  | codeWithScope hd _ ih => exact writtenWell_codeWithScope (writtenWell_document hd ih)

/-! ## The fields of a document -/

theorem distinct (h : (Bson.document fields).WellFormed) : Fields.Distinct fields := by
  cases h with
  | atomic h => exact absurd h id
  | document hd => exact hd

theorem field (h : (Bson.document fields).WellFormed) {f : String × Bson} (hf : f ∈ fields) : f.2.WellFormed := by
  cases h with
  | atomic h => exact absurd h id
  | document _ h => exact h f hf

theorem perm (h : (Bson.document fields).WellFormed) (hp : fields.Perm fields') :
    (Bson.document fields').WellFormed :=
  .document (h.distinct.perm hp) fun _ hf => h.field (hp.symm.subset hf)

theorem erase (h : (Bson.document fields).WellFormed) (name : String) :
    (Bson.document (Fields.erase name fields)).WellFormed :=
  .document (h.distinct.erase name) fun _ hf => h.field (Fields.mem_of_mem_erase hf)

theorem set (h : (Bson.document fields).WellFormed) (name : String) (hb : b.WellFormed) :
    (Bson.document (Fields.set name b fields)).WellFormed := by
  refine .document (h.distinct.set name b) fun f hf => ?_
  rcases Fields.mem_set hf with rfl | hf
  · exact hb
  · exact h.field hf

end WellFormed

end Chronicle.Bson
