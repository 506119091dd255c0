import Chronicle.Feed.Basic
import Chronicle.Proofs.Except
import Mathlib.Data.List.Basic

/-!
# The changes of a log

Where a feed begins (`StartPosition.BeginsAt`), with what it is refused (`StartPosition.Refused`), and that nothing else
happens when it is opened (`EventLog.openFeed_eq_ok_iff`, `EventLog.openFeed_eq_error_iff`); behind the position of a
place it goes on with the next one (`EventLog.openFeed_after`). What a feed has to hand out
is the list of changes from its place on; it grows with the log (`EventLog.changesFrom_mono`), and what is behind some
of its items is the list from a later place on (`EventLog.drop_changesFrom`).
-/

namespace Chronicle

/-! ## Opening -/

/-- The place at which a feed begins if it is opened when the log has `size` documents. -/
inductive StartPosition.BeginsAt (size : Nat) : StartPosition → Nat → Prop
  | now : BeginsAt size .now size
  | beginning : BeginsAt size .beginning 0
  | after {n : Int64} {sequence : Nat} (h : 0 ≤ n) : BeginsAt size (.after ⟨.int64 n, sequence⟩) (n.toInt.toNat + 1)

/-- What is wrong with the token behind which a feed should begin. -/
inductive StartPosition.Refused : StartPosition → TokenProblem → Prop
  | negative {n : Int64} {sequence : Nat} (h : n < 0) : Refused (.after ⟨.int64 n, sequence⟩) (.negativeIndex n)
  | notAnIndex {token : Bson} {sequence : Nat} (h : ∀ n, token ≠ .int64 n) :
      Refused (.after ⟨token, sequence⟩) (.notAnIndex token)

theorem logIndexOf_of_nonneg {n : Int64} (h : 0 ≤ n) : logIndexOf (.int64 n) = .ok n.toInt.toNat :=
  if_neg (Int64.not_lt.2 h)

theorem logIndexOf_of_neg {n : Int64} (h : n < 0) : logIndexOf (.int64 n) = .error (.invalidToken (.negativeIndex n)) :=
  if_pos h

theorem logIndexOf_of_ne {token : Bson} (h : ∀ n, token ≠ .int64 n) :
    logIndexOf token = .error (.invalidToken (.notAnIndex token)) := by
  unfold logIndexOf
  split
  · exact absurd rfl (h _)
  · rfl

namespace StartPosition

variable {start : StartPosition} {size place : Nat} {problem : TokenProblem}

/-- Each start gives a place or is refused. -/
theorem beginsAt_or_refused (start : StartPosition) (size : Nat) :
    (∃ place, start.BeginsAt size place) ∨ ∃ problem, start.Refused problem := by
  cases start with
  | now => exact .inl ⟨_, .now⟩
  | beginning => exact .inl ⟨_, .beginning⟩
  | after p =>
    obtain ⟨token, sequence⟩ := p
    by_cases ht : ∃ n, token = .int64 n
    · obtain ⟨n, rfl⟩ := ht
      by_cases hn : n < 0
      · exact .inr ⟨_, .negative hn⟩
      · exact .inl ⟨_, .after (Int64.not_lt.1 hn)⟩
    · exact .inr ⟨_, .notAnIndex fun n hn => ht ⟨n, hn⟩⟩

end StartPosition

namespace EventLog

variable {log log' : EventLog} {start : StartPosition} {place k : Nat} {feed : Feed} {problem : TokenProblem}

theorem openFeed_of_beginsAt (h : start.BeginsAt log.size place) : log.openFeed start = .ok (.ofLog place) := by
  cases h with
  | now => rfl
  | beginning => rfl
  | after h => simp only [openFeed, startOf, logIndexOf_of_nonneg h, Except.map]

theorem openFeed_of_refused (h : start.Refused problem) : log.openFeed start = .error (.invalidToken problem) := by
  cases h with
  | negative h => simp only [openFeed, startOf, logIndexOf_of_neg h, Except.map]
  | notAnIndex h => simp only [openFeed, startOf, logIndexOf_of_ne h, Except.map]

/-- A feed can be opened just if its start gives a place. -/
theorem openFeed_eq_ok_iff :
    log.openFeed start = .ok feed ↔ ∃ place, start.BeginsAt log.size place ∧ feed = .ofLog place := by
  constructor
  · intro h
    rcases start.beginsAt_or_refused log.size with ⟨place, hp⟩ | ⟨problem, hp⟩
    · rw [openFeed_of_beginsAt hp] at h
      cases h
      exact ⟨place, hp, rfl⟩
    · rw [openFeed_of_refused hp] at h
      cases h
  · rintro ⟨place, hp, rfl⟩
    exact openFeed_of_beginsAt hp

/-- A feed that cannot be opened has a bad token. -/
theorem openFeed_eq_error_iff {e : StoreError} :
    log.openFeed start = .error e ↔ ∃ problem, start.Refused problem ∧ e = .invalidToken problem := by
  constructor
  · intro h
    rcases start.beginsAt_or_refused log.size with ⟨place, hp⟩ | ⟨problem, hp⟩
    · rw [openFeed_of_beginsAt hp] at h
      cases h
    · rw [openFeed_of_refused hp] at h
      cases h
      exact ⟨problem, hp, rfl⟩
  · rintro ⟨problem, hp, rfl⟩
    exact openFeed_of_refused hp

/-- The position of a place that a token can hold is one behind which a feed goes on with the next place. -/
theorem beginsAt_after_positionOf (size : Nat) (h : place < 0x8000000000000000) :
    StartPosition.BeginsAt size (.after (positionOf place)) (place + 1) := by
  have hi : (Int64.ofNat place).toInt = place := Int64.toInt_ofNat_of_lt h
  have hn : (0 : Int64) ≤ Int64.ofNat place := by
    rw [Int64.le_iff_toInt_le, hi, Int64.toInt_zero]
    omega
  have hb : StartPosition.BeginsAt size (.after (positionOf place)) ((Int64.ofNat place).toInt.toNat + 1) := .after hn
  rwa [hi, Int.toNat_natCast] at hb

/-- The token of a place names this place, if it names one. -/
theorem eq_of_logIndexOf_positionOf {place i : Nat} (h : place < 0x10000000000000000)
    (hi : logIndexOf (positionOf place).token = .ok i) : i = place := by
  have htoken : (Int64.ofNat place).toInt = (place : Int).bmod 0x10000000000000000 := Int64.toInt_ofNat
  unfold positionOf logIndexOf at hi
  dsimp only at hi
  split at hi
  · cases hi
  · rename_i hn
    cases hi
    -- a token that is not negative has not wrapped around
    rw [Int64.lt_iff_toInt_lt, htoken, Int.bmod_def] at hn
    rw [htoken, Int.bmod_def]
    simp only [Int64.toInt_zero] at hn
    omega

theorem exists_of_openFeed_after {log : EventLog} {p : Position} {feed : Feed}
    (hf : log.openFeed (.after p) = .ok feed) : ∃ i, logIndexOf p.token = .ok i ∧ feed = .ofLog (i + 1) := by
  obtain ⟨n, hn, rfl⟩ := Except.map_eq_ok_iff.1 hf
  obtain ⟨i, hi, rfl⟩ := Except.map_eq_ok_iff.1 hn
  exact ⟨i, hi, rfl⟩

/-- A feed that is opened behind a place goes on with the next one. -/
theorem openFeed_after {place : Nat} (h : place < 0x10000000000000000) {log : EventLog} {feed : Feed}
    (hf : log.openFeed (.after (positionOf place)) = .ok feed) : feed = .ofLog (place + 1) := by
  obtain ⟨i, hi, rfl⟩ := exists_of_openFeed_after hf
  rw [eq_of_logIndexOf_positionOf h hi]

/-! ## Changes -/

/-- The changes from a place on. -/
def changesFrom (place : Nat) (log : EventLog) : List Change :=
  (log.documents.drop place).mapIdx fun i d => ⟨d, positionOf (place + i)⟩

@[simp]
theorem getElem?_changesFrom (log : EventLog) (place k : Nat) :
    (log.changesFrom place)[k]? = log.change? (place + k) := by
  simp [changesFrom, change?]

@[simp]
theorem length_changesFrom (log : EventLog) (place : Nat) : (log.changesFrom place).length = log.size - place := by
  simp [changesFrom, size]

theorem change?_eq_some_iff {c : Change} :
    log.change? place = some c ↔ ∃ d, log.documents[place]? = some d ∧ c = ⟨d, positionOf place⟩ := by
  rw [change?, Option.map_eq_some_iff]
  simp only [eq_comm (b := c)]

theorem change?_eq_none_iff : log.change? place = none ↔ log.size ≤ place := by simp [change?, size]

/-- Behind the first items come those from a later place on. -/
theorem drop_changesFrom (log : EventLog) (place k : Nat) :
    (log.changesFrom place).drop k = log.changesFrom (place + k) := by
  apply List.ext_getElem?
  intro i
  simp [Nat.add_assoc]

/-- The changes of a log that has grown begin with the old ones. -/
theorem changesFrom_mono (h : log.documents <+: log'.documents) (place : Nat) :
    log.changesFrom place <+: log'.changesFrom place := by
  obtain ⟨batch, hb⟩ := h
  rw [changesFrom, changesFrom, ← hb, List.drop_append, List.mapIdx_append]
  exact List.prefix_append _ _

/-- The changes of a whole log are its documents in order. -/
theorem map_document_changesFrom_zero (log : EventLog) : (log.changesFrom 0).map Change.document = log.documents := by
  apply List.ext_getElem?
  intro i
  rw [List.getElem?_map, getElem?_changesFrom, Nat.zero_add, change?, Option.map_map]
  exact Option.map_id'

/-! ## Asking a feed -/

theorem poll_ofLog_of_some {c : Change} (h : log.change? place = some c) :
    log.poll (.ofLog place) = .item (.ok c) (.ofLog (place + 1)) := by
  simp only [poll, h]

theorem poll_ofLog_of_none (h : log.change? place = none) : log.poll (.ofLog place) = .waiting := by simp only [poll, h]

/-- A feed waits just if it has handed out everything. -/
theorem poll_ofLog_eq_waiting_iff : log.poll (.ofLog place) = .waiting ↔ log.size ≤ place := by
  rw [← change?_eq_none_iff]
  cases h : log.change? place with
  | none => simp [poll_ofLog_of_none h]
  | some c => simp [poll_ofLog_of_some h]

end EventLog

end Chronicle
