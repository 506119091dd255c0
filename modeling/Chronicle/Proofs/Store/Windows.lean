import Chronicle.Proofs.Codec.Coordinates
import Chronicle.Proofs.Store.Coherence
import Chronicle.Proofs.Store.ReadBack

/-!
# Windows and pages of a stream

A part of a stream is read from the documents in its window, so it is the same window of what is read of the whole
stream, and it fails just if one of these documents is no event (`EventLog.Coherent.readSlice_eq_ok_iff`,
`EventLog.Coherent.exists_readSlice_error_iff`). Pages of one size that are read one behind the other, until one of them
is empty, come to an end and are the whole stream (`EventLog.Coherent.pages_iff`). `History.windows_run` puts this
together for the log of any history.
-/

namespace Chronicle

/-! ## Windows of lists -/

/-- The items of a list from the `skip`-th on, at most `limit` of them. -/
def window {α : Type} (skip : Nat) (limit : Option Nat) (xs : List α) : List α :=
  match limit with
  | some n => (xs.drop skip).take n
  | none => xs.drop skip

/-- Whether the `i`-th item of a list is in a window. -/
def InWindow (skip : Nat) (limit : Option Nat) (i : Nat) : Prop := skip ≤ i ∧ ∀ n, limit = some n → i < skip + n

section

variable {α β : Type} {skip size : Nat} {limit : Option Nat} {xs : List α}

theorem map_window (f : α → β) (skip : Nat) (limit : Option Nat) (xs : List α) :
    (window skip limit xs).map f = window skip limit (xs.map f) := by
  cases limit with
  | none => exact List.map_drop
  | some n => rw [window, window, List.map_take, List.map_drop]

/-- The items of a window are those behind its beginning, as far as it goes. -/
theorem getElem?_window_eq_some_iff {i : Nat} {x : α} :
    (window skip limit xs)[i]? = some x ↔ xs[skip + i]? = some x ∧ InWindow skip limit (skip + i) := by
  cases limit with
  | none => simp [window, InWindow]
  | some n => simp [window, InWindow, List.getElem?_take, and_comm]

theorem mem_window_iff {x : α} : x ∈ window skip limit xs ↔ ∃ i, InWindow skip limit i ∧ xs[i]? = some x := by
  rw [List.mem_iff_getElem?]
  constructor
  · rintro ⟨i, hi⟩
    obtain ⟨hx, hw⟩ := getElem?_window_eq_some_iff.1 hi
    exact ⟨_, hw, hx⟩
  · rintro ⟨i, hw, hx⟩
    obtain ⟨k, rfl⟩ := Nat.exists_eq_add_of_le hw.1
    exact ⟨k, getElem?_window_eq_some_iff.2 ⟨hx, hw⟩⟩

/-- A page is empty just if it begins behind the end. -/
theorem window_eq_nil_iff (h : 0 < size) : window skip (some size) xs = [] ↔ xs.length ≤ skip := by
  rw [window, List.take_eq_nil_iff, List.drop_eq_nil_iff]
  exact or_iff_right (Nat.ne_of_gt h)

/-- A page and what is behind it. -/
theorem window_append_drop (skip size : Nat) (xs : List α) :
    window skip (some size) xs ++ xs.drop (skip + size) = xs.drop skip := by
  rw [window, ← List.drop_drop]
  exact List.take_append_drop size (xs.drop skip)

end

/-! ## Decoding many documents -/

namespace Codec

variable {c : Codec} {ds : List Document} {es : List StreamEvent}

/-- Documents are decoded one by one. -/
theorem decodeAll_eq_ok_iff : c.decodeAll ds = .ok es ↔ ds.map c.decode = es.map .ok := by
  induction ds generalizing es with
  | nil => cases es <;> simp [decodeAll]
  | cons d ds ih =>
    simp only [decodeAll, Except.bind_eq_ok_iff, ih, Except.pure_eq_ok, Except.ok.injEq]
    cases es with
    | nil => simp
    | cons e es => simp

/-- Documents are refused if one of them is no event. -/
theorem exists_decodeAll_error_iff :
    (∃ problem, c.decodeAll ds = .error problem) ↔ ∃ d ∈ ds, ∃ problem, c.decode d = .error problem := by
  induction ds with
  | nil => simp [decodeAll]
  | cons d ds ih =>
    simp only [decodeAll, Except.bind_eq_error_iff, List.exists_mem_cons_iff, ← ih]
    cases hd : c.decode d with
    | error problem => simp
    | ok e => simp

end Codec

namespace EventLog

variable {codec : Codec} {log : EventLog} {stream : String} {skip size : Nat} {limit : Option Nat}

/-! ## Reading a part -/

theorem Coherent.slice_eq_window (h : log.Coherent) (stream : String) (skip : Nat) (limit : Option Nat) :
    log.slice stream skip limit = window skip limit (log.documentsOf stream) := h.slice_eq stream skip limit

/-- What is read of a part of a stream: its version, and the events of the documents in the window. -/
theorem Coherent.readSlice_eq (h : log.Coherent) (hs : stream ≠ "") (codec : Codec) (skip : Nat) (limit : Option Nat) :
    readSlice codec stream skip limit log log =
      (codec.decodeAll (window skip limit (log.documentsOf stream))).mapError .decoding >>= fun events =>
        .ok ⟨stream, log.version stream, events⟩ := by
  rw [readSlice, checkStreamId_eq_ok_iff.2 hs, h.slice_eq_window]
  rfl

/-- A part is read just if all documents in the window are events. -/
theorem Coherent.readSlice_eq_ok_iff (h : log.Coherent) (hs : stream ≠ "") {part : StreamSlice} :
    readSlice codec stream skip limit log log = .ok part ↔
      part.stream = stream ∧ part.version = log.version stream ∧
        window skip limit ((log.documentsOf stream).map codec.decode) = part.events.map .ok := by
  rw [h.readSlice_eq hs, Except.bind_eq_ok_iff]
  simp only [Except.mapError_eq_ok_iff, Codec.decodeAll_eq_ok_iff, map_window, Except.ok.injEq]
  constructor
  · rintro ⟨events, he, rfl⟩
    exact ⟨rfl, rfl, he⟩
  · rintro ⟨hstream, hversion, he⟩
    exact ⟨part.events, he, by rw [← hversion, ← hstream]⟩

/-- A part cannot be read just if a document in the window is no event. -/
theorem Coherent.exists_readSlice_error_iff (h : log.Coherent) (hs : stream ≠ "") :
    (∃ problem, readSlice codec stream skip limit log log = .error problem) ↔
      ∃ i d, InWindow skip limit i ∧ (log.documentsOf stream)[i]? = some d ∧
        ∃ problem, codec.decode d = .error problem := by
  have hdecode : (∃ problem, readSlice codec stream skip limit log log = .error problem) ↔
      ∃ problem, codec.decodeAll (window skip limit (log.documentsOf stream)) = .error problem := by
    rw [h.readSlice_eq hs]
    cases codec.decodeAll (window skip limit (log.documentsOf stream)) with
    | error problem => simp
    | ok events => simp
  rw [hdecode, Codec.exists_decodeAll_error_iff]
  simp only [mem_window_iff]
  constructor
  · rintro ⟨d, ⟨i, hw, hd⟩, hp⟩
    exact ⟨i, d, hw, hd, hp⟩
  · rintro ⟨i, d, hw, hd, hp⟩
    exact ⟨d, ⟨i, hw, hd⟩, hp⟩

variable {whole : StreamSlice}

theorem Coherent.read_eq_ok_iff (h : log.Coherent) (hs : stream ≠ "") :
    read codec stream log log = .ok whole ↔
      whole.stream = stream ∧ whole.version = log.version stream ∧
        (log.documentsOf stream).map codec.decode = whole.events.map .ok :=
  h.readSlice_eq_ok_iff hs

/-- If a whole stream is read, so is each part of it, and it is a window of the whole. -/
theorem Coherent.readSlice_of_read (h : log.Coherent) (hs : stream ≠ "")
    (hr : read codec stream log log = .ok whole) (skip : Nat) (limit : Option Nat) :
    readSlice codec stream skip limit log log = .ok { whole with events := window skip limit whole.events } := by
  obtain ⟨hstream, hversion, hevents⟩ := (h.read_eq_ok_iff hs).1 hr
  refine (h.readSlice_eq_ok_iff hs).2 ⟨hstream, hversion, ?_⟩
  rw [hevents, map_window]

/-- The events of a stream are read at the versions from zero on. -/
theorem Coherent.place_of_read (h : log.Coherent) (hs : stream ≠ "") (hr : read codec stream log log = .ok whole)
    {i : Nat} {e : StreamEvent} (he : whole.events[i]? = some e) : e.stream = stream ∧ e.version = i := by
  obtain ⟨-, -, hevents⟩ := (h.read_eq_ok_iff hs).1 hr
  have hi := congrArg (·[i]?) hevents
  simp only [List.getElem?_map, he, Option.map_some] at hi
  obtain ⟨d, hd, hdecode⟩ := Option.map_eq_some_iff.1 hi
  exact (h.labelled_documentsOf hd).decode hdecode

/-! ## Page by page -/

/-- Pages of a stream are read from the `skip`-th event on, each where the one before it ended, until one is empty; the
list holds their events. -/
inductive Pages (codec : Codec) (log : EventLog) (stream : String) (size : Nat) : Nat → List StreamEvent → Prop
  | last {skip : Nat} {page : StreamSlice} (read : readSlice codec stream skip (some size) log log = .ok page)
      (empty : page.events = []) : Pages codec log stream size skip []
  | more {skip : Nat} {page : StreamSlice} {others : List StreamEvent}
      (read : readSlice codec stream skip (some size) log log = .ok page) (nonempty : page.events ≠ [])
      (next : Pages codec log stream size (skip + size) others) :
      Pages codec log stream size skip (page.events ++ others)

section

variable (h : log.Coherent) (hs : stream ≠ "") (hr : read codec stream log log = .ok whole)
include h hs hr

/-- What a page holds. -/
theorem Coherent.events_of_page {page : StreamSlice}
    (hp : readSlice codec stream skip (some size) log log = .ok page) :
    page.events = window skip (some size) whole.events := by
  rw [h.readSlice_of_read hs hr] at hp
  cases hp
  rfl

theorem Coherent.eq_of_pages (hsize : 0 < size) {events : List StreamEvent}
    (hp : Pages codec log stream size skip events) : events = whole.events.drop skip := by
  induction hp with
  | last hread hempty =>
    rw [h.events_of_page hs hr hread, window_eq_nil_iff hsize] at hempty
    exact (List.drop_eq_nil_of_le hempty).symm
  | more hread _ _ ih => rw [h.events_of_page hs hr hread, ih, window_append_drop]

/-- The induction is on the number of events that are left: each page but the last takes some of them. -/
theorem Coherent.pages (hsize : 0 < size) (skip : Nat) :
    Pages codec log stream size skip (whole.events.drop skip) := by
  induction hleft : whole.events.length - skip using Nat.strong_induction_on generalizing skip with
  | h left ih =>
    have hpage := h.readSlice_of_read hs hr skip (some size)
    by_cases hend : whole.events.length ≤ skip
    · rw [List.drop_eq_nil_of_le hend]
      exact .last hpage ((window_eq_nil_iff hsize).2 hend)
    · have hrest := ih (whole.events.length - (skip + size)) (by omega) (skip + size) rfl
      have hpages := Pages.more hpage (mt (window_eq_nil_iff hsize).1 hend) hrest
      rwa [window_append_drop] at hpages

/-- Reading page by page comes to an end, and gives the whole stream. -/
theorem Coherent.pages_iff (hsize : 0 < size) {events : List StreamEvent} :
    Pages codec log stream size 0 events ↔ events = whole.events := by
  constructor
  · exact h.eq_of_pages hs hr hsize
  · rintro rfl
    exact h.pages hs hr hsize 0

end

end EventLog

/-! ## Any history -/

/-- How the parts of a stream go with the whole of it. -/
structure Windowed (codec : Codec) (log : EventLog) (stream : String) : Prop where
  /-- A part is a window of the whole, and is read with the version of the whole. -/
  part : ∀ whole, EventLog.read codec stream log log = .ok whole → ∀ skip limit,
    EventLog.readSlice codec stream skip limit log log = .ok { whole with events := window skip limit whole.events }
  /-- Each event in a window is at its place in the stream. -/
  place : ∀ whole, EventLog.read codec stream log log = .ok whole → ∀ skip limit i e,
    (window skip limit whole.events)[i]? = some e → e.stream = stream ∧ e.version = skip + i
  /-- A part cannot be read just if a document in the window is no event. -/
  refused : ∀ skip limit, (∃ problem, EventLog.readSlice codec stream skip limit log log = .error problem) ↔
    ∃ i d, InWindow skip limit i ∧ (log.documentsOf stream)[i]? = some d ∧ ∃ problem, codec.decode d = .error problem
  /-- Pages of any size are the whole. -/
  pages : ∀ whole, EventLog.read codec stream log log = .ok whole → ∀ size, 0 < size → ∀ events,
    EventLog.Pages codec log stream size 0 events ↔ events = whole.events

namespace History

/-- **Windows**: after any calls, what is read of a part of a stream is a window of the whole stream; only documents in
the window can spoil it; and pages that are read one behind the other are the whole stream. -/
theorem windows_run (codec : Codec) (calls : List AppendCall) {stream : String} (hs : stream ≠ "") :
    Windowed codec (run codec calls).log stream := by
  have h := coherent_run codec calls
  constructor
  case part => exact fun whole hr skip limit => h.readSlice_of_read hs hr skip limit
  case place =>
    intro whole hr skip limit i e he
    exact h.place_of_read hs hr (getElem?_window_eq_some_iff.1 he).1
  case refused => exact fun skip limit => h.exists_readSlice_error_iff hs
  case pages => exact fun whole hr size hsize events => h.pages_iff hs hr hsize

/-- A stream of three events, read as a whole. -/
theorem read_opening_following :
    EventLog.read (.json .rfc3339String) "meter-4" (run (.json .rfc3339String) [opening, following]).log
        (run (.json .rfc3339String) [opening, following]).log =
      .ok ⟨"meter-4", some 2, [⟨"meter-4", 0, Codec.reading⟩, ⟨"meter-4", 1, Codec.reading⟩,
        ⟨"meter-4", 2, Codec.reading⟩]⟩ := by
  have hsound := run_sound (.json .rfc3339String) [opening, following]
  have hversion := hsound.gapless.version "meter-4"
  have hstored := hsound.stored "meter-4"
  rw [hsound.count, eventsOf_readings] at hversion
  rw [eventsOf_readings] at hstored
  have hmem : following ∈ [opening, following] := List.mem_cons_of_mem _ List.mem_cons_self
  have hdecoded := Codec.decodeAll_encodeAll
    (fun e he => storable_reading hmem (by simpa [following] using he)) hstored
  exact ((coherent_run _ _).read_eq_ok_iff (by decide)).2 ⟨rfl, hversion.symm, Codec.decodeAll_eq_ok_iff.1 hdecoded⟩

theorem windows_run_readings :
    "meter-4" ≠ "" ∧
      EventLog.readSlice (.json .rfc3339String) "meter-4" 1 (some 1)
          (run (.json .rfc3339String) [opening, following]).log
          (run (.json .rfc3339String) [opening, following]).log =
        .ok ⟨"meter-4", some 2, [⟨"meter-4", 1, Codec.reading⟩]⟩ ∧
      EventLog.Pages (.json .rfc3339String) (run (.json .rfc3339String) [opening, following]).log "meter-4" 2 0
        [⟨"meter-4", 0, Codec.reading⟩, ⟨"meter-4", 1, Codec.reading⟩, ⟨"meter-4", 2, Codec.reading⟩] := by
  have hne : "meter-4" ≠ "" := by decide
  have hw := windows_run (.json .rfc3339String) [opening, following] hne
  exact ⟨hne, hw.part _ read_opening_following 1 (some 1), (hw.pages _ read_opening_following 2 (by decide) _).2 rfl⟩

end History

end Chronicle
