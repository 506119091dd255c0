import Chronicle.Store.Positions

/-!
# Saving and loading positions

A position that is not below the stored one is loaded afterwards (`Positions.load_save`); the positions of other
subscribers stay (`Positions.load_save_of_ne`, `Positions.load_delete_of_ne`).
-/

namespace Chronicle.Positions

variable {subscriber other : String} {p : Position} {ps : Positions}

theorem load_save (h : ∀ q, ps.load subscriber = some q → q.sequence ≤ p.sequence) :
    (ps.save subscriber p).2.load subscriber = some p := by
  have hi : (Positions.mk (ps.saved.insert subscriber p)).load subscriber = some p := by
    rw [load, NameMap.get?_insert, if_pos rfl]
  rw [save]
  split
  · rename_i q hq
    rw [if_neg (Nat.not_lt.2 (h q hq))]
    exact hi
  · exact hi

theorem load_save_of_ne (h : subscriber ≠ other) (p : Position) (ps : Positions) :
    (ps.save subscriber p).2.load other = ps.load other := by
  have hi : (Positions.mk (ps.saved.insert subscriber p)).load other = ps.load other := by
    rw [load, NameMap.get?_insert, if_neg h, load]
  rw [save]
  split
  · split
    · rfl
    · exact hi
  · exact hi

theorem load_delete_of_ne (h : subscriber ≠ other) (ps : Positions) :
    (ps.delete subscriber).2.load other = ps.load other := by
  rw [delete, load, NameMap.get?_erase, if_neg h, load]

end Chronicle.Positions
