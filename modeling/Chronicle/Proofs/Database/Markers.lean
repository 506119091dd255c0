import Chronicle.Database.ChangeFeed
import Chronicle.Database.PositionStore

/-!
# Positions by the clock

The position behind an inserted document is numbered by the reading of the database's clock that its account comes with,
and a store keeps this number as a signed one, the marker of the position. The numbers are in the order of the readings
(`ClockReading.sequence_lt_iff`), and so are the markers. But there are markers for the first half of the readings only:
a position of the second half is turned away before anything is sent (`saved_in_order`).
-/

namespace Chronicle.Database

open Fields

/-! ## Readings of the clock -/

/-- A reading of the database's clock. -/
@[ext]
structure ClockReading where
  time : UInt32
  increment : UInt32
deriving DecidableEq

namespace ClockReading

variable {a b : ClockReading}

/-- The number of a reading. -/
def sequence (a : ClockReading) : Nat := sequenceOf a.time a.increment

/-- The clock shows one reading before another. -/
def Before (a b : ClockReading) : Prop := a.time < b.time ∨ a.time = b.time ∧ a.increment < b.increment

theorem sequence_lt_iff : a.sequence < b.sequence ↔ a.Before b := by
  have ha := a.increment.toNat_lt
  have hb := b.increment.toNat_lt
  rw [Before, UInt32.lt_iff_toNat_lt, UInt32.lt_iff_toNat_lt, ← UInt32.toNat_inj]
  simp only [sequence, sequenceOf]
  omega

theorem sequence_inj : a.sequence = b.sequence ↔ a = b := by
  have ha := a.increment.toNat_lt
  have hb := b.increment.toNat_lt
  rw [ClockReading.ext_iff, ← UInt32.toNat_inj, ← UInt32.toNat_inj]
  simp only [sequence, sequenceOf]
  omega

/-- There is a marker for a reading. -/
def Storable (a : ClockReading) : Prop := a.time < 0x80000000

instance : Decidable a.Storable := inferInstanceAs (Decidable (a.time < _))

/-- The numbers that are too large for a marker begin with a time, not within one. -/
theorem storable_iff : a.Storable ↔ a.sequence < 0x8000000000000000 := by
  have ha := a.increment.toNat_lt
  rw [Storable, UInt32.lt_iff_toNat_lt]
  simp only [sequence, sequenceOf, UInt32.reduceToNat]
  omega

/-- The marker of a reading. -/
def marker (a : ClockReading) : Int64 := Int64.ofNat a.sequence

theorem Storable.toInt_marker (h : a.Storable) : a.marker.toInt = a.sequence :=
  Int64.toInt_ofNat_of_lt (storable_iff.1 h)

theorem Storable.marker_lt_iff (ha : a.Storable) (hb : b.Storable) : a.marker < b.marker ↔ a.Before b := by
  rw [Int64.lt_iff_toInt_lt, ha.toInt_marker, hb.toInt_marker, Int.ofNat_lt, sequence_lt_iff]

theorem Storable.marker_inj (ha : a.Storable) (hb : b.Storable) : a.marker = b.marker ↔ a = b := by
  rw [← Int64.toInt_inj, ha.toInt_marker, hb.toInt_marker, Int.ofNat_inj, sequence_inj]

end ClockReading

/-! ## Inserts in the feed -/

/-- The database's account of an inserted document, at a reading of its clock. -/
structure TellsInsert (d : Document) (a : ClockReading) (document : Document) (token : Bson) : Prop where
  get?_token : get? "_id" d = some token
  get?_operation : get? "operationType" d = some (.string "insert")
  get?_clock : get? "clusterTime" d = some (.timestamp a.time a.increment)
  get?_document : get? "fullDocument" d = some (.document document)

theorem TellsInsert.changeOf {d document : Document} {a : ClockReading} {token : Bson}
    (h : TellsInsert d a document token) : changeOf d = .ok ⟨document, token, a.sequence⟩ := by
  have hclock : optionalField "clusterTime" clockReading? d = .ok (some a.sequence) := by
    rw [optionalField, h.get?_clock]
    rfl
  have hdocument : optionalField "fullDocument" documentFields? d = .ok (some document) := by
    rw [optionalField, h.get?_document]
    rfl
  rw [Database.changeOf, h.get?_token, h.get?_operation, hclock, hdocument]
  rfl

/-! ## Saving a position -/

namespace PositionStore

/-- What is sent to save a token with a marker. -/
def update (s : PositionStore) (now : Int64) (subscriber : String) (token : Bson) (marker : Int64) : Request :=
  ⟨.upsert s.collection (filterOf subscriber ++ [(sequenceField, .document [("$lte", .int64 marker)])])
    [(tokenField, token), (sequenceField, .int64 marker), (updatedField, .date now)], none⟩

/-- A position is saved with one request, unless its sequence is too large: then it is refused without one. -/
theorem run_save (s : PositionStore) (now : Int64) (subscriber : String) (p : Position) :
    (s.save now subscriber p).run =
      if p.sequence < 0x8000000000000000 then
        .send (s.update now subscriber p.token (Int64.ofNat p.sequence)) fun reply => .done (outcomeOf reply)
      else .done (.error (.unsupported (.sequenceTooLarge p.sequence))) := by
  rw [save, Bson.int64OfNat?]
  by_cases h : p.sequence < 0x8000000000000000
  · simp only [if_pos h]
    rfl
  · simp only [if_neg h]
    rfl

end PositionStore

/-- **Saving in order**: the position behind an insert is saved with one update, if the highest bit of the clock's time
is clear, and refused otherwise. Two positions, and their markers if they have some, are in the order of the readings. -/
theorem saved_in_order (s : PositionStore) {d d' document document' : Document} {a b : ClockReading}
    {token token' : Bson} (hd : TellsInsert d a document token) (hd' : TellsInsert d' b document' token') :
    changeOf d = .ok ⟨document, token, a.sequence⟩ ∧ changeOf d' = .ok ⟨document', token', b.sequence⟩ ∧
      (∀ now subscriber, (s.save now subscriber ⟨token, a.sequence⟩).run =
        if a.Storable then
          .send (s.update now subscriber token a.marker) fun reply => .done (PositionStore.outcomeOf reply)
        else .done (.error (.unsupported (.sequenceTooLarge a.sequence)))) ∧
      (a.sequence < b.sequence ↔ a.Before b) ∧ (a.sequence = b.sequence ↔ a = b) ∧
      (a.Storable → b.Storable → (a.marker < b.marker ↔ a.Before b) ∧ (a.marker = b.marker ↔ a = b)) := by
  refine ⟨hd.changeOf, hd'.changeOf, ?_, ClockReading.sequence_lt_iff, ClockReading.sequence_inj, ?_⟩
  · intro now subscriber
    rw [PositionStore.run_save]
    simp only [ClockReading.storable_iff]
    rfl
  · intro ha hb
    exact ⟨ha.marker_lt_iff hb, ha.marker_inj hb⟩

/-- The account of an insert at a reading of the clock. -/
def insertAt (a : ClockReading) : Document :=
  [("_id", .document [("_data", .string "82")]), ("operationType", .string "insert"),
    ("clusterTime", .timestamp a.time a.increment), ("fullDocument", .document [("id", .string "e1")])]

theorem tellsInsert_insertAt (a : ClockReading) :
    TellsInsert (insertAt a) a [("id", .string "e1")] (.document [("_data", .string "82")]) :=
  ⟨rfl, rfl, rfl, rfl⟩

/-- A store of positions. -/
def strandPositions : PositionStore := ⟨⟨"strand", "subscription_positions"⟩⟩

theorem saved_in_order_insertAt :
    (TellsInsert (insertAt ⟨100, 9⟩) ⟨100, 9⟩ [("id", .string "e1")] (.document [("_data", .string "82")]) ∧
      TellsInsert (insertAt ⟨101, 0⟩) ⟨101, 0⟩ [("id", .string "e1")] (.document [("_data", .string "82")])) ∧
    changeOf (insertAt ⟨100, 9⟩) =
        .ok ⟨[("id", .string "e1")], .document [("_data", .string "82")], 429496729609⟩ ∧
      (strandPositions.save 0 "audit" ⟨.document [("_data", .string "82")], 429496729609⟩).run =
        (.send (strandPositions.update 0 "audit" (.document [("_data", .string "82")]) 429496729609) fun reply =>
          .done (PositionStore.outcomeOf reply)) ∧
      ClockReading.marker ⟨100, 9⟩ < ClockReading.marker ⟨101, 0⟩ := by
  have hd := tellsInsert_insertAt ⟨100, 9⟩
  have hd' := tellsInsert_insertAt ⟨101, 0⟩
  obtain ⟨hchange, -, hsave, -, -, hmarkers⟩ := saved_in_order strandPositions hd hd'
  refine ⟨⟨hd, hd'⟩, hchange, ?_, (hmarkers (by decide) (by decide)).1.2 (.inl (by decide))⟩
  exact (hsave 0 "audit").trans (if_pos (by decide))

/-- The first reading that sets the highest bit of the time is in the feed, and its position is not saved. -/
theorem refused_insertAt :
    changeOf (insertAt ⟨0x80000000, 1⟩) =
        .ok ⟨[("id", .string "e1")], .document [("_data", .string "82")], 0x8000000000000001⟩ ∧
      (strandPositions.save 0 "audit" ⟨.document [("_data", .string "82")], 0x8000000000000001⟩).run =
        .done (.error (.unsupported (.sequenceTooLarge 0x8000000000000001))) := by
  refine ⟨(tellsInsert_insertAt _).changeOf, ?_⟩
  rw [PositionStore.run_save, if_neg (by decide)]

end Chronicle.Database
