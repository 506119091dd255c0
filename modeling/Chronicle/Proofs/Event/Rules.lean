import Chronicle.Event.Rules
import Chronicle.Proofs.Except

/-!
# What the rules for events admit

When a payload fits a content type (`checkPayload_json_iff`, `checkPayload_text_iff`), and what the name of an
extension looks like (`checkExtensionName_iff`). An event that was built passes these checks
(`Draft.admitted_of_build`).
-/

namespace Chronicle

variable {contentType : Option String} {name : String}

theorem isJsonContentType_none : isJsonContentType none = true := rfl

theorem checkPayload_json_iff {v : Json} :
    checkPayload contentType (some (.json v)) = .ok () ↔ v ≠ .null ∧ isJsonContentType contentType = true := by
  cases v with
  | null => simp [checkPayload]
  | _ =>
    cases contentType with
    | none => simp [checkPayload, isJsonContentType_none]
    | some c => simp [checkPayload]

theorem checkPayload_text_iff {s : String} :
    checkPayload contentType (some (.text s)) = .ok () ↔ isJsonContentType contentType = false := by
  simp [checkPayload]

/-- A name is lower-case alphanumeric, not empty, and not taken by the envelope. -/
theorem checkExtensionName_iff :
    checkExtensionName name = .ok () ↔
      name.toList ≠ [] ∧ (∀ c ∈ name.toList, isNameChar c = true) ∧ name ∉ reservedNames := by
  have hc : (name.isEmpty || !name.toList.all isNameChar) = false ↔
      name.toList ≠ [] ∧ ∀ c ∈ name.toList, isNameChar c = true := by
    rw [Bool.or_eq_false_iff, Bool.not_eq_false', List.all_eq_true]
    simp
  rw [← and_assoc, ← hc, checkExtensionName]
  cases name.isEmpty || !name.toList.all isNameChar with
  | true => simp
  | false =>
    by_cases hr : name ∈ reservedNames
    · simp [hr]
    · simp [hr]

instance (name : String) : Decidable (checkExtensionName name = .ok ()) :=
  decidable_of_iff (name.toList ≠ [] ∧ name.toList.all isNameChar = true ∧ name ∉ reservedNames)
    (by rw [checkExtensionName_iff, List.all_eq_true])

/-- An event whose extension names and payload the rules admit. -/
structure Event.Admitted (e : Event) : Prop where
  names : ∀ x ∈ e.extensions.entries, checkExtensionName x.1 = .ok ()
  payload : checkPayload e.contentType e.payload = .ok ()

/-- What is built holds the draft's extensions and payload, and these pass their checks. -/
theorem Draft.admitted_of_build {d : Draft} {fresh : String} {e : Event} (h : d.build fresh = .ok e) :
    e.Admitted := by
  rw [build] at h
  dsimp only at h
  split at h
  · cases h
  split at h
  · cases h
  split at h
  · cases h
  obtain ⟨_, hn, h⟩ := Except.bind_eq_ok_iff.1 h
  obtain ⟨_, hp, h⟩ := Except.bind_eq_ok_iff.1 h
  cases h
  exact ⟨fun x hx => Except.forM_eq_ok_iff.1 hn _ (List.mem_map_of_mem hx), hp⟩

end Chronicle
