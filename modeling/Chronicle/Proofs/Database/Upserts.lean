import Chronicle.Proofs.Database.Exchanges
import Chronicle.Proofs.Database.Markers
import Chronicle.Proofs.Database.Server
import Chronicle.Proofs.Store.PositionRuns
import Mathlib.Logic.Function.Basic

/-!
# Positions, in a database and in memory

A store of positions never compares two positions itself. It has the database look for a document that is not ahead, and
where there is none it counts on a unique index to tell a new subscriber from one that is ahead. `Indexed` is the account
of a server with such an index. Its documents stand for the positions of a store in memory (`Represents`): each call
keeps it so and is answered like there (`Represents.ensures_perform`), and so are all calls one after the other
(`positions_agree`).
-/

namespace Chronicle

/-! ## What a dialogue ensures -/

namespace Database.Dialogue

variable {σ α β : Type} {serves : Service σ} {s : σ} {a : α} {P : α → σ → Prop} {Q : β → σ → Prop}

/-- From a state a plan can come to an end, and whenever it does, the result and the state behind it are such. -/
structure Ensures (serves : Service σ) (s : σ) (d : Dialogue α) (P : α → σ → Prop) : Prop where
  exists_run : ∃ a t, d.Runs serves s a t
  of_runs : ∀ a t, d.Runs serves s a t → P a t

theorem ensures_done (h : P a s) : (Dialogue.done a).Ensures serves s P where
  exists_run := ⟨a, s, rfl, rfl⟩
  of_runs := by
    rintro _ _ ⟨rfl, rfl⟩
    exact h

theorem ensures_send {r : Request} {next : Reply → Dialogue α} (hex : ∃ reply t, serves s r reply t)
    (h : ∀ reply t, serves s r reply t → (next reply).Ensures serves t P) :
    (Dialogue.send r next).Ensures serves s P where
  exists_run := by
    obtain ⟨reply, t, hs⟩ := hex
    obtain ⟨a, u, hu⟩ := (h reply t hs).exists_run
    exact ⟨a, u, reply, t, hs, hu⟩
  of_runs := by
    rintro a u ⟨reply, t, hs, hu⟩
    exact (h reply t hs).of_runs a u hu

theorem Ensures.bind {d : Dialogue α} {f : α → Dialogue β} (h : d.Ensures serves s P)
    (hf : ∀ a t, P a t → (f a).Ensures serves t Q) : (d.bind f).Ensures serves s Q where
  exists_run := by
    obtain ⟨a, t, ht⟩ := h.exists_run
    obtain ⟨b, u, hu⟩ := (hf a t (h.of_runs a t ht)).exists_run
    exact ⟨b, u, runs_bind_iff.2 ⟨a, t, ht, hu⟩⟩
  of_runs b u hu := by
    obtain ⟨a, t, ht, hu⟩ := runs_bind_iff.1 hu
    exact (hf a t (h.of_runs a t ht)).of_runs b u hu

theorem Ensures.yieldsFrom {d : Dialogue α} (h : d.Ensures serves s fun b _ => b = a) : d.YieldsFrom serves s a where
  exists_run := by
    obtain ⟨b, t, ht⟩ := h.exists_run
    exact ⟨t, h.of_runs b t ht ▸ ht⟩
  eq_of_runs := h.of_runs

end Database.Dialogue

/-! ## A server with a unique index -/

/-- A value as a number, if it is an integer. -/
def Bson.integer? : Bson → Option Int
  | .int32 n => some n.toInt
  | .int64 n => some n.toInt
  | _ => none

namespace Database

open Fields (get?)

/-- The bound of a condition that asks for what is not above it. -/
def bound? : Bson → Option Bson
  | .document [("$lte", bound)] => some bound
  | _ => none

/-- A document has the values of a filter, and integers that are not above its bounds. -/
def Fulfils (filter d : Document) : Prop :=
  ∀ f ∈ filter, match bound? f.2 with
    | some bound => ∃ m n, (get? f.1 d).bind Bson.integer? = some m ∧ bound.integer? = some n ∧ m ≤ n
    | none => get? f.1 d = some f.2

/-- Sets fields, one after the other. -/
def setAll (fields d : Document) : Document := fields.foldl (fun d f => Fields.set f.1 f.2 d) d

/-- The document that an upsert leads to, and the others: one that fulfils the filter is changed, and if there is none, a
new one is made of the values of the filter, with any key. -/
inductive Upserts (filter fields : Document) (documents : List Document) : Document → List Document → Prop
  | changed {d : Document} {rest : List Document} : documents.Perm (d :: rest) → Fulfils filter d →
    Upserts filter fields documents (setAll fields d) rest
  | added {key : Bson} : (∀ d ∈ documents, ¬Fulfils filter d) →
    Upserts filter fields documents
      (setAll fields ((internalIdField, key) :: filter.filter fun f => (bound? f.2).isNone)) documents

/-- A reply says that the index turned a document away. -/
def Reply.TellsDuplicate (reply : Reply) : Prop :=
  reply.failure = some duplicateKey ∨ reply.failure = none ∧ ∃ codes, reply.writeErrors = some (duplicateKey :: codes)

/-- A server with a collection in which an index on a field keeps the documents apart. Its state is the documents. -/
inductive Indexed (c : Collection) (field : String) : Service (List Document)
  | find {q : Query} {part : Option TransactionPart} {documents result : List Document} : q.collection = c →
    q.single = true → q.Answers documents result →
    Indexed c field documents ⟨.find q, part⟩ { documents := result } documents
  | deleted {filter d : Document} {part : Option TransactionPart} {documents rest : List Document} {reply : Reply} :
    documents.Perm (d :: rest) → Fulfils filter d → reply.written = .ok 1 →
    Indexed c field documents ⟨.delete c filter, part⟩ reply rest
  | missing {filter : Document} {part : Option TransactionPart} {documents : List Document} {reply : Reply} :
    (∀ d ∈ documents, ¬Fulfils filter d) → reply.written = .ok 0 →
    Indexed c field documents ⟨.delete c filter, part⟩ reply documents
  | stored {filter fields d : Document} {part : Option TransactionPart} {documents rest : List Document}
    {reply : Reply} {n : Nat} : Upserts filter fields documents d rest → (∀ d' ∈ rest, get? field d' ≠ get? field d) →
    reply.written = .ok n → Indexed c field documents ⟨.upsert c filter fields, part⟩ reply (d :: rest)
  | duplicate {filter fields d : Document} {part : Option TransactionPart} {documents rest : List Document}
    {reply : Reply} : Upserts filter fields documents d rest → (∃ d' ∈ rest, get? field d' = get? field d) →
    reply.TellsDuplicate → Indexed c field documents ⟨.upsert c filter fields, part⟩ reply documents

theorem exists_upserts (filter fields : Document) (documents : List Document) :
    ∃ d rest, Upserts filter fields documents d rest := by
  by_cases h : ∃ d ∈ documents, Fulfils filter d
  · obtain ⟨d, hd, hf⟩ := h
    obtain ⟨before, behind, rfl⟩ := List.append_of_mem hd
    exact ⟨_, _, .changed List.perm_middle hf⟩
  · push Not at h
    exact ⟨_, _, @Upserts.added filter fields documents .null h⟩

/-- One question for a document has an answer, and it is told. -/
theorem ensures_findOne {c : Collection} {q : Query} (hc : q.collection = c) (hsort : q.sort = none) (field : String)
    (documents : List Document) (part : Option TransactionPart) :
    (Attempt.findOne q part).run.Ensures (Indexed c field) documents fun found t =>
      t = documents ∧ ∃ result, q.one.Answers documents result ∧ found = .ok result.head? := by
  classical
  rw [Attempt.run_findOne]
  refine Dialogue.ensures_send ⟨_, _, .find hc rfl ⟨_, .refl _, ?_, rfl⟩⟩ ?_
  · intro keys hk
    rw [show q.one.sort = none from hsort] at hk
    cases hk
  · intro reply t hs
    cases hs with
    | find _ _ ha => exact Dialogue.ensures_done ⟨rfl, _, ha, rfl⟩

end Database

/-! ## The documents of positions -/

namespace Database.PositionStore

open Fields (get?)

variable {x y : String} {p q : Position} {d old : Document} {documents rest : List Document}
  {stored : String → Option Position}

/-- A document is a subscriber's and holds a position. -/
structure Holds (x : String) (p : Position) (d : Document) : Prop where
  subscriber : get? subscriberField d = some (.string x)
  token : get? tokenField d = some p.token
  sequence : get? sequenceField d = some (.int64 (Int64.ofNat p.sequence))
  storable : p.sequence < 0x8000000000000000

theorem Holds.positionOf (h : Holds x p d) : positionOf d = .ok p := by
  have hsequence : (Int64.ofNat p.sequence).toInt = p.sequence := Int64.toInt_ofNat_of_lt h.storable
  have hn : ¬Int64.ofNat p.sequence < 0 := by
    rw [Int64.lt_iff_toInt_lt, hsequence, Int64.toInt_zero]
    omega
  rw [PositionStore.positionOf, h.token, h.sequence]
  simp only [if_neg hn, hsequence, Int.toNat_natCast]

theorem fulfils_filterOf_iff : Fulfils (filterOf x) d ↔ get? subscriberField d = some (.string x) := by
  simp [Fulfils, filterOf, bound?]

theorem meets_filterOf_iff : Meets (filterOf x) d ↔ get? subscriberField d = some (.string x) := by
  simp [Meets, filterOf]

/-- The filter of a save. -/
def notAhead (x : String) (sequence : Nat) : Document :=
  filterOf x ++ [(sequenceField, .document [("$lte", .int64 (Int64.ofNat sequence))])]

/-- What a save sets. -/
def savedFields (now : Int64) (p : Position) : Document :=
  [(tokenField, p.token), (sequenceField, .int64 (Int64.ofNat p.sequence)), (updatedField, .date now)]

/-- Of the documents with a position, a save finds that of the subscriber, if it is not ahead. -/
theorem Holds.fulfils_notAhead_iff (h : Holds y q d) (hp : p.sequence < 0x8000000000000000) :
    Fulfils (notAhead x p.sequence) d ↔ y = x ∧ q.sequence ≤ p.sequence := by
  have hq : (Int64.ofNat q.sequence).toInt = q.sequence := Int64.toInt_ofNat_of_lt h.storable
  have hp : (Int64.ofNat p.sequence).toInt = p.sequence := Int64.toInt_ofNat_of_lt hp
  simp [Fulfils, notAhead, filterOf, bound?, h.subscriber, h.sequence, Bson.integer?, hq, hp]

/-- A document of a subscriber holds the position that was set. -/
theorem holds_setAll (hd : get? subscriberField d = some (.string x)) (now : Int64)
    (hp : p.sequence < 0x8000000000000000) : Holds x p (setAll (savedFields now p) d) := by
  have hset (name : String) : get? name (setAll (savedFields now p) d) =
      if updatedField = name then some (.date now)
      else if sequenceField = name then some (.int64 (Int64.ofNat p.sequence))
      else if tokenField = name then some p.token else get? name d := by
    simp only [setAll, savedFields, List.foldl_cons, List.foldl_nil, Fields.get?_set]
  constructor
  case subscriber =>
    rw [hset]
    exact hd
  case token =>
    rw [hset]
    rfl
  case sequence =>
    rw [hset]
    rfl
  case storable => exact hp

/-- The documents stand for the positions that are stored, one for each. -/
structure Represents (documents : List Document) (stored : String → Option Position) : Prop where
  apart : documents.Pairwise fun d d' => get? subscriberField d ≠ get? subscriberField d'
  sound : ∀ d ∈ documents, ∃ x p, stored x = some p ∧ Holds x p d
  complete : ∀ x p, stored x = some p → ∃ d ∈ documents, Holds x p d

namespace Represents

theorem nil : Represents [] fun _ => none where
  apart := .nil
  sound _ hd := by cases hd
  complete _ _ h := by cases h

theorem perm {documents' : List Document} (h : Represents documents stored) (hp : documents.Perm documents') :
    Represents documents' stored where
  apart := (hp.pairwise_iff fun hne => Ne.symm hne).1 h.apart
  sound d hd := h.sound d (hp.mem_iff.2 hd)
  complete x p hx := by
    obtain ⟨d, hd, hdp⟩ := h.complete x p hx
    exact ⟨d, hp.mem_iff.1 hd, hdp⟩

/-- A subscriber's document holds their position. -/
theorem holds (h : Represents documents stored) (hd : d ∈ documents) (hx : get? subscriberField d = some (.string x)) :
    ∃ p, stored x = some p ∧ Holds x p d := by
  obtain ⟨y, p, hy, hdp⟩ := h.sound d hd
  obtain rfl : y = x := by simpa [hdp.subscriber] using hx
  exact ⟨p, hy, hdp⟩

/-- A subscriber without a position is one without a document. -/
theorem eq_none_iff (h : Represents documents stored) :
    stored x = none ↔ ∀ d ∈ documents, get? subscriberField d ≠ some (.string x) := by
  rw [Option.eq_none_iff_forall_ne_some]
  constructor
  · intro hx d hd hs
    obtain ⟨p, hp, -⟩ := h.holds hd hs
    exact hx p hp
  · intro hnone p hp
    obtain ⟨d, hd, hdp⟩ := h.complete x p hp
    exact hnone d hd hdp.subscriber

/-- One more document stands for one more position. -/
theorem cons (h : Represents rest stored) (hx : stored x = none) (hd : Holds x p d) :
    Represents (d :: rest) (Function.update stored x (some p)) := by
  have hne {y : String} {q : Position} (hy : stored y = some q) : y ≠ x := by
    rintro rfl
    rw [hx] at hy
    cases hy
  constructor
  case apart =>
    refine List.pairwise_cons.2 ⟨fun d' hd' hs => ?_, h.apart⟩
    exact h.eq_none_iff.1 hx d' hd' (hs.symm.trans hd.subscriber)
  case sound =>
    intro d' hd'
    rcases List.mem_cons.1 hd' with rfl | hd'
    · exact ⟨x, p, Function.update_self .., hd⟩
    · obtain ⟨y, q, hy, hyq⟩ := h.sound d' hd'
      exact ⟨y, q, by rw [Function.update_of_ne (hne hy), hy], hyq⟩
  case complete =>
    intro y q hy
    by_cases hyx : y = x
    · subst hyx
      rw [Function.update_self] at hy
      cases hy
      exact ⟨d, List.mem_cons_self, hd⟩
    · rw [Function.update_of_ne hyx] at hy
      obtain ⟨d', hd', hyq⟩ := h.complete y q hy
      exact ⟨d', List.mem_cons_of_mem _ hd', hyq⟩

/-- Without its document a position is gone. -/
theorem tail (h : Represents (d :: rest) stored) (hd : Holds x p d) :
    Represents rest (Function.update stored x none) := by
  obtain ⟨hapart, hrest⟩ := List.pairwise_cons.1 h.apart
  constructor
  case apart => exact hrest
  case sound =>
    intro d' hd'
    obtain ⟨y, q, hy, hyq⟩ := h.sound d' (List.mem_cons_of_mem _ hd')
    have hyx : y ≠ x := by
      rintro rfl
      exact hapart d' hd' (hd.subscriber.trans hyq.subscriber.symm)
    exact ⟨y, q, by rw [Function.update_of_ne hyx, hy], hyq⟩
  case complete =>
    intro y q hy
    have hyx : y ≠ x := by
      rintro rfl
      rw [Function.update_self] at hy
      cases hy
    rw [Function.update_of_ne hyx] at hy
    obtain ⟨d', hd', hyq⟩ := h.complete y q hy
    rcases List.mem_cons.1 hd' with rfl | hd'
    · exact absurd (by simpa [hyq.subscriber] using hd.subscriber) hyx
    · exact ⟨d', hd', hyq⟩

/-! ## One call -/

/-- Where a save leads to: either the subscriber has no position among the other documents, and had none that is above,
or none of the documents was changed, and the subscriber has one that is above. -/
theorem upserts_cases (h : Represents documents stored) (hp : p.sequence < 0x8000000000000000) {now : Int64}
    (hu : Upserts (notAhead x p.sequence) (savedFields now p) documents d rest) :
    Holds x p d ∧
      ((Represents rest (Function.update stored x none) ∧ ∀ q, stored x = some q → q.sequence ≤ p.sequence) ∨
        rest = documents ∧ ∃ q, stored x = some q ∧ p.sequence < q.sequence) := by
  cases hu with
  | @changed old _ hperm hf =>
    obtain ⟨y, q, hy, hyq⟩ := h.sound old (hperm.mem_iff.2 List.mem_cons_self)
    obtain ⟨rfl, hle⟩ := (hyq.fulfils_notAhead_iff hp).1 hf
    refine ⟨holds_setAll hyq.subscriber now hp, .inl ⟨(h.perm hperm).tail hyq, ?_⟩⟩
    intro q' hq'
    rw [hy] at hq'
    cases hq'
    exact hle
  | added hnone =>
    refine ⟨holds_setAll (by simp [notAhead, filterOf, bound?, get?, subscriberField, internalIdField]) now hp, ?_⟩
    cases hx : stored x with
    | none =>
      refine .inl ⟨?_, fun q hq => by cases hq⟩
      rw [Function.update_eq_self_iff.2 hx.symm]
      exact h
    | some q =>
      obtain ⟨d', hd', hq⟩ := h.complete x q hx
      have hlt := mt (hq.fulfils_notAhead_iff hp).2 (hnone d' hd')
      exact .inr ⟨rfl, q, rfl, Nat.lt_of_not_le fun hle => hlt ⟨rfl, hle⟩⟩

end Represents

end Database.PositionStore

/-! ## Calls and their answers -/

/-- What a store of positions answers to a call. -/
inductive PositionAnswer where
  | saved (outcome : SaveOutcome)
  | loaded (position : Option Position)
  | deleted (existed : Bool)

namespace Positions

variable {x y : String} {p : Position} {ps : Positions}

/-- The answer to a call. -/
def answer (ps : Positions) : PositionCall → PositionAnswer
  | .save x p => .saved (ps.save x p).1
  | .load x => .loaded (ps.load x)
  | .delete x => .deleted (ps.delete x).1

/-- The answers to calls, one after the other. -/
def answers (ps : Positions) : List PositionCall → List PositionAnswer
  | [] => []
  | call :: calls => ps.answer call :: (ps.perform call).answers calls

theorem load_save_eq (h : ∀ q, ps.load x = some q → q.sequence ≤ p.sequence) :
    ((ps.save x p).2.load ·) = Function.update (ps.load ·) x (some p) := by
  funext y
  by_cases hy : x = y
  · subst hy
    rw [Function.update_self, load_save h]
  · rw [Function.update_of_ne (Ne.symm hy), load_save_of_ne hy]

theorem load_delete_eq (x : String) (ps : Positions) :
    ((ps.delete x).2.load ·) = Function.update (ps.load ·) x none := by
  funext y
  by_cases hy : x = y
  · subst hy
    rw [Function.update_self, load_delete_self]
  · rw [Function.update_of_ne (Ne.symm hy), load_delete_of_ne hy]

end Positions

namespace Database.PositionStore

open Dialogue (Ensures ensures_done ensures_send)
open Fields (get?)

variable {s : PositionStore} {x : String} {p : Position} {documents : List Document} {ps : Positions}

/-- A call at a time, in milliseconds. -/
def perform (s : PositionStore) (now : Int64) : PositionCall → Attempt PositionAnswer
  | .save x p => return .saved (← s.save now x p)
  | .load x => return .loaded (← s.load x)
  | .delete x => return .deleted (← s.delete x)

/-- Calls with their times, one after the other. -/
def performAll (s : PositionStore) : List (Int64 × PositionCall) → Dialogue (List (Except StoreError PositionAnswer))
  | [] => return []
  | (now, call) :: calls => do
    let answer ← (s.perform now call).run
    return answer :: (← s.performAll calls)

/-- A deletion is one request. -/
theorem run_delete (s : PositionStore) (x : String) :
    (s.delete x).run =
      .send ⟨.delete s.collection (filterOf x), none⟩ fun reply =>
        .done ((reply.written.mapError .database).map fun n => decide (0 < n)) := by
  rw [delete, Attempt.run_bind, Attempt.run_ask, Dialogue.bind]
  refine congrArg (Dialogue.send _) (funext fun reply => ?_)
  rw [Dialogue.bind, Attempt.bindCont_ok, Attempt.run_bind, Attempt.run_ofDatabase, Dialogue.bind]
  cases reply.written <;> rfl

theorem outcomeOf_of_written {reply : Reply} {n : Nat} (h : reply.written = .ok n) :
    outcomeOf reply = .ok .advanced := by
  rw [outcomeOf, h]

theorem outcomeOf_of_tellsDuplicate {reply : Reply} (h : reply.TellsDuplicate) :
    outcomeOf reply = .ok .ignoredStale := by
  rcases h with hf | ⟨hf, codes, hw⟩
  · simp [outcomeOf, Reply.written, Reply.accepted, hf, isDuplicateKey]
  · simp [outcomeOf, Reply.written, Reply.accepted, hf, hw, isDuplicateKey]

namespace Represents

/-- Either no other document has the subscriber of the one that an upsert leaves, and the position is saved, or another
one has, and the position is stale. -/
theorem save_cases (h : Represents documents (ps.load ·)) (hp : p.sequence < 0x8000000000000000) {now : Int64}
    {x : String} {d : Document} {rest : List Document}
    (hu : Upserts (notAhead x p.sequence) (savedFields now p) documents d rest) :
    (∀ d' ∈ rest, get? subscriberField d' ≠ get? subscriberField d) ∧ (ps.save x p).1 = .advanced ∧
        Represents (d :: rest) ((ps.save x p).2.load ·) ∨
      (∃ d' ∈ rest, get? subscriberField d' = get? subscriberField d) ∧ ps.save x p = (.ignoredStale, ps) := by
  obtain ⟨hd, ⟨hrest, hle⟩ | ⟨rfl, q, hq, hlt⟩⟩ := h.upserts_cases hp hu
  · refine .inl ⟨fun d' hd' => ?_, Positions.save_of_le hle, ?_⟩
    · rw [hd.subscriber]
      exact hrest.eq_none_iff.1 (Function.update_self ..) d' hd'
    · have hboth := hrest.cons (Function.update_self ..) hd
      rwa [Function.update_idem, ← Positions.load_save_eq hle] at hboth
  · obtain ⟨d', hd', hq'⟩ := h.complete x q hq
    exact .inr ⟨⟨d', hd', hq'.subscriber.trans hd.subscriber.symm⟩, Positions.save_of_lt hq hlt⟩

/-- A save is answered like in memory, and does the same. -/
theorem ensures_save (h : Represents documents (ps.load ·)) (hp : p.sequence < 0x8000000000000000)
    (s : PositionStore) (now : Int64) (x : String) :
    (s.save now x p).run.Ensures (Indexed s.collection subscriberField) documents fun outcome t =>
      outcome = .ok (ps.save x p).1 ∧ Represents t ((ps.save x p).2.load ·) := by
  rw [run_save, if_pos hp]
  refine ensures_send ?_ ?_
  · obtain ⟨d, rest, hu⟩ := exists_upserts (notAhead x p.sequence) (savedFields now p) documents
    rcases h.save_cases hp hu with ⟨hfree, -⟩ | ⟨htaken, -⟩
    · exact ⟨{}, _, .stored (n := 1) hu hfree rfl⟩
    · exact ⟨{ failure := some duplicateKey }, _, .duplicate hu htaken (.inl rfl)⟩
  · intro reply t hs
    cases hs with
    | stored hu hfree hw =>
      rcases h.save_cases hp hu with ⟨-, hadvanced, ht⟩ | ⟨⟨d', hd', heq⟩, -⟩
      · exact ensures_done ⟨by rw [outcomeOf_of_written hw, hadvanced], ht⟩
      · exact absurd heq (hfree d' hd')
    | duplicate hu htaken hr =>
      rcases h.save_cases hp hu with ⟨hfree, -⟩ | ⟨-, hstale⟩
      · obtain ⟨d', hd', heq⟩ := htaken
        exact absurd heq (hfree d' hd')
      · rw [hstale]
        exact ensures_done ⟨outcomeOf_of_tellsDuplicate hr, h⟩

/-- A load gives what is stored in memory. -/
theorem ensures_load (h : Represents documents (ps.load ·)) (s : PositionStore) (x : String) :
    (s.load x).run.Ensures (Indexed s.collection subscriberField) documents fun position t =>
      position = .ok (ps.load x) ∧ t = documents := by
  have hfound := ensures_findOne (q := { collection := s.collection, filter := filterOf x }) rfl rfl subscriberField
    documents none
  refine hfound.bind ?_
  rintro found t ⟨rfl, result, ⟨sorted, hsorted, -, rfl⟩, rfl⟩
  have hmem (d : Document) : d ∈ sorted ↔ d ∈ t ∧ get? subscriberField d = some (.string x) := by
    simp only [hsorted.mem_iff, List.mem_filter, decide_eq_true_eq]
    exact and_congr_right fun _ => meets_filterOf_iff
  cases sorted with
  | nil =>
    have hnone : ps.load x = none :=
      h.eq_none_iff.2 fun d hd hs => absurd ((hmem d).2 ⟨hd, hs⟩) List.not_mem_nil
    rw [hnone]
    exact ensures_done ⟨rfl, rfl⟩
  | cons d sorted =>
    obtain ⟨hd, hs⟩ := (hmem d).1 List.mem_cons_self
    obtain ⟨p, hp, hdp⟩ := h.holds hd hs
    refine ensures_done ⟨?_, rfl⟩
    show (positionOf d).map some = .ok (ps.load x)
    rw [hdp.positionOf, hp]
    rfl

/-- A deletion tells the same as in memory, and does the same. -/
theorem ensures_delete (h : Represents documents (ps.load ·)) (s : PositionStore) (x : String) :
    (s.delete x).run.Ensures (Indexed s.collection subscriberField) documents fun existed t =>
      existed = .ok (ps.delete x).1 ∧ Represents t ((ps.delete x).2.load ·) := by
  rw [run_delete, Positions.load_delete_eq]
  refine ensures_send ?_ ?_
  · cases hx : ps.load x with
    | none =>
      refine ⟨{ touched := 0 }, _, .missing (fun d hd hf => ?_) rfl⟩
      exact h.eq_none_iff.1 hx d hd (fulfils_filterOf_iff.1 hf)
    | some p =>
      obtain ⟨d, hd, hdp⟩ := h.complete x p hx
      obtain ⟨before, behind, rfl⟩ := List.append_of_mem hd
      exact ⟨{}, _, .deleted List.perm_middle (fulfils_filterOf_iff.2 hdp.subscriber) rfl⟩
  · intro reply t hs
    cases hs with
    | deleted hperm hf hw =>
      obtain ⟨p, hx, hdp⟩ := h.holds (hperm.mem_iff.2 List.mem_cons_self) (fulfils_filterOf_iff.1 hf)
      rw [hw]
      refine ensures_done ⟨?_, (h.perm hperm).tail hdp⟩
      rw [Positions.delete, hx]
      rfl
    | missing hnone hw =>
      have hx : ps.load x = none :=
        h.eq_none_iff.2 fun d hd hs => hnone d hd (fulfils_filterOf_iff.2 hs)
      rw [hw, Function.update_eq_self_iff.2 hx.symm]
      refine ensures_done ⟨?_, h⟩
      rw [Positions.delete, hx]
      rfl

/-- Each call is answered like in memory, and does the same. -/
theorem ensures_perform (h : Represents documents (ps.load ·)) {call : PositionCall}
    (hcall : ∀ x p, call = .save x p → p.sequence ≤ 0x7FFFFFFFFFFFFFFF) (s : PositionStore) (now : Int64) :
    (s.perform now call).run.Ensures (Indexed s.collection subscriberField) documents fun answer t =>
      answer = .ok (ps.answer call) ∧ Represents t ((ps.perform call).load ·) := by
  cases call with
  | save x p =>
    refine (h.ensures_save (Nat.lt_succ_of_le (hcall x p rfl)) s now x).bind ?_
    rintro _ t ⟨rfl, ht⟩
    exact ensures_done ⟨rfl, ht⟩
  | load x =>
    refine (h.ensures_load s x).bind ?_
    rintro _ t ⟨rfl, rfl⟩
    exact ensures_done ⟨rfl, h⟩
  | delete x =>
    refine (h.ensures_delete s x).bind ?_
    rintro _ t ⟨rfl, ht⟩
    exact ensures_done ⟨rfl, ht⟩

/-- All calls are answered like in memory. -/
theorem ensures_performAll (h : Represents documents (ps.load ·)) (s : PositionStore)
    {calls : List (Int64 × PositionCall)}
    (hcalls : ∀ now x p, (now, .save x p) ∈ calls → p.sequence ≤ 0x7FFFFFFFFFFFFFFF) :
    (s.performAll calls).Ensures (Indexed s.collection subscriberField) documents fun answers _ =>
      answers = (ps.answers (calls.map Prod.snd)).map .ok := by
  induction calls generalizing documents ps with
  | nil => exact ensures_done rfl
  | cons c calls ih =>
    obtain ⟨now, call⟩ := c
    have hcall : ∀ x p, call = .save x p → p.sequence ≤ 0x7FFFFFFFFFFFFFFF := by
      rintro x p rfl
      exact hcalls now x p List.mem_cons_self
    refine (h.ensures_perform hcall s now).bind ?_
    rintro _ t ⟨rfl, ht⟩
    refine (ih ht fun now x p hm => hcalls now x p (List.mem_cons_of_mem _ hm)).bind ?_
    rintro _ u rfl
    exact ensures_done rfl

end Represents

/-- **Positions agree**: on a server with an index on the subscriber, and nothing in the collection, the calls of any
subscribers are answered like by an empty store in memory, if all sequences that are saved are in the range of a signed
number of 64 bits. -/
theorem positions_agree (s : PositionStore) {calls : List (Int64 × PositionCall)}
    (hcalls : ∀ now x p, (now, .save x p) ∈ calls → p.sequence ≤ 0x7FFFFFFFFFFFFFFF) :
    (s.performAll calls).YieldsFrom (Indexed s.collection subscriberField) []
      ((Positions.empty.answers (calls.map Prod.snd)).map .ok) := by
  have hempty : Represents [] (Positions.empty.load ·) := .nil
  exact (hempty.ensures_performAll s hcalls).yieldsFrom

/-- Some calls of two subscribers: an earlier position comes after a later one, one with the same sequence comes after it,
and after a deletion there comes an earlier one again. -/
def auditCalls : List (Int64 × PositionCall) :=
  [(0, .save "audit" ⟨.int64 1, 5⟩), (1, .save "audit" ⟨.int64 2, 4⟩), (2, .save "audit" ⟨.null, 5⟩),
    (3, .load "audit"), (4, .load "billing"), (5, .delete "audit"), (6, .delete "audit"),
    (7, .save "audit" ⟨.int64 3, 1⟩), (8, .save "billing" ⟨.undefined, 0x7FFFFFFFFFFFFFFF⟩)]

theorem positions_agree_audit :
    (∀ now x p, (now, .save x p) ∈ auditCalls → p.sequence ≤ 0x7FFFFFFFFFFFFFFF) ∧
      (strandPositions.performAll auditCalls).YieldsFrom (Indexed strandPositions.collection subscriberField) []
        [.ok (.saved .advanced), .ok (.saved .ignoredStale), .ok (.saved .advanced),
          .ok (.loaded (some ⟨.null, 5⟩)), .ok (.loaded none), .ok (.deleted true), .ok (.deleted false),
          .ok (.saved .advanced), .ok (.saved .advanced)] := by
  have hcalls : ∀ now x p, (now, .save x p) ∈ auditCalls → p.sequence ≤ 0x7FFFFFFFFFFFFFFF := by
    intro now x p hm
    simp only [auditCalls, List.mem_cons, Prod.mk.injEq, PositionCall.save.injEq, reduceCtorEq, and_false,
      List.not_mem_nil, or_false, false_or] at hm
    rcases hm with ⟨-, -, rfl⟩ | ⟨-, -, rfl⟩ | ⟨-, -, rfl⟩ | ⟨-, -, rfl⟩ | ⟨-, -, rfl⟩ <;> decide
  exact ⟨hcalls, positions_agree strandPositions hcalls⟩

end Database.PositionStore

end Chronicle
