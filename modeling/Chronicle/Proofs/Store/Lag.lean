import Chronicle.Proofs.Store.Windows
import Chronicle.Simulation.Command

/-!
# Reads while others append

A read that is not transactional asks for the version of a stream first, and for its events when other calls have been
made (`Simulation.concurrently`). Its version may lag behind its events, but neither is wrong: the events are all that
the stream has at the second moment, and the version says how many of them were there at the first
(`EventLog.Coherent.spans`). They go together just if none of the calls in between has appended to the stream, which
is so because calls put documents behind those that are there, and no call but such an append makes a stream longer
(`Simulation.grows_startCalls`). `Simulation.read_amid` puts this together, for both kinds of reads.

A stream whose documents are events stays so as long as what is appended can be stored (`EventLog.Legible.append`).
-/

namespace Chronicle

namespace EventLog

variable {codec : Codec} {log early late : EventLog} {stream : String} {slice : StreamSlice} {events : List StreamEvent}

/-- The documents that say they belong to a stream, in order of the log. -/
def belonging (log : EventLog) (stream : String) : List Document := log.documents.filter (Codec.belongsTo stream)

/-- All documents of a stream are events. -/
def Legible (codec : Codec) (log : EventLog) (stream : String) : Prop :=
  ∀ d ∈ log.belonging stream, ∃ e, codec.decode d = .ok e

/-- What is read of a stream whose log was `early` when the version was taken and `late` when the events were. -/
structure Spans (codec : Codec) (stream : String) (early late : EventLog) (slice : StreamSlice) : Prop where
  ofStream : slice.stream = stream
  version : slice.version = early.version stream
  /-- The events are all that the stream has in the end. -/
  whole : (late.belonging stream).map codec.decode = slice.events.map .ok
  place : ∀ (i : Nat) e, slice.events[i]? = some e → e.stream = stream ∧ e.version = i
  /-- The version is not ahead of the events. -/
  behind : slice.version ≤ slice.events.getLast?.map (·.version)
  /-- The events up to the version are all that the stream had in the beginning. -/
  first : (early.belonging stream).map codec.decode = (slice.events.take (versionAfter slice.version)).map .ok

/-! ## Two moments of a log -/

theorem exists_decodeAll {ds : List Document} (h : ∀ d ∈ ds, ∃ e, codec.decode d = .ok e) :
    ∃ es, codec.decodeAll ds = .ok es := by
  cases hes : codec.decodeAll ds with
  | ok es => exact ⟨es, rfl⟩
  | error problem =>
    obtain ⟨d, hd, problem, hp⟩ := Codec.exists_decodeAll_error_iff.1 ⟨problem, hes⟩
    obtain ⟨e, he⟩ := h d hd
    simp [hp] at he

theorem Coherent.length_belonging (h : log.Coherent) (stream : String) :
    (log.belonging stream).length = log.count stream := by
  rw [belonging, h.filter_belongsTo, h.length_documentsOf]

/-- Events at the versions from zero on: the last one is at their number less one. -/
theorem getLast?_version (hplace : ∀ (i : Nat) e, events[i]? = some e → e.version = i) :
    events.getLast?.map (·.version) = if events.length = 0 then none else some (events.length - 1) := by
  rw [List.getLast?_eq_getElem?]
  cases hlast : events[events.length - 1]? with
  | none =>
    have hle := List.getElem?_eq_none_iff.1 hlast
    have hzero : events.length = 0 := by omega
    simp [hzero]
  | some e =>
    have hlt := (List.getElem?_eq_some_iff.1 hlast).1
    have hpos : events.length ≠ 0 := by omega
    simp [hpos, hplace _ e hlast]

/-- A stream of events stays one when storable events are appended, to it or to another. -/
theorem Legible.append {times : TimeRepresentation} (hc : log.Coherent) (hl : log.Legible (.json times) stream)
    {other : String} {expected : ExpectedVersion} {es : List Event} {r : AppendResult} {log' : EventLog}
    (hes : ∀ e ∈ es, e.Storable times ∧ e.DoublesReadBack)
    (ha : log.append (.json times) other expected es = .ok (r, log')) : log'.Legible (.json times) stream := by
  obtain ⟨batch, hbatch, -, hdocuments⟩ := hc.of_append ha
  intro d hd
  rw [belonging, (hc.append ha).filter_belongsTo, hdocuments, List.mem_append] at hd
  rcases hd with hd | hd
  · exact hl d (by rwa [belonging, hc.filter_belongsTo])
  · by_cases hs : other = stream
    · rw [if_pos hs] at hd
      have hdecoded := Codec.decodeAll_eq_ok_iff.1 (Codec.decodeAll_encodeAll hes hbatch)
      have hmem := List.mem_map_of_mem (f := (Codec.json times).decode) hd
      rw [hdecoded] at hmem
      obtain ⟨e, -, he⟩ := List.mem_map.1 hmem
      exact ⟨e, he.symm⟩
    · rw [if_neg hs] at hd
      cases hd

section

variable (hearly : early.Coherent) (hlate : late.Coherent) (hgrown : early.documents <+: late.documents)
include hearly hlate hgrown

theorem Coherent.count_le_of_prefix (stream : String) : early.count stream ≤ late.count stream := by
  rw [← hearly.length_belonging, ← hlate.length_belonging]
  exact (hgrown.filter _).length_le

/-- A read that spans two moments succeeds if all documents of the stream are events. -/
theorem Coherent.spans (hs : stream ≠ "") (hlegible : late.Legible codec stream) :
    ∃ slice, read codec stream early late = .ok slice ∧ Spans codec stream early late slice ∧
      (slice.version = slice.events.getLast?.map (·.version) ↔ late.count stream = early.count stream) := by
  have hdocuments : late.slice stream 0 none = late.belonging stream := (hlate.filter_belongsTo stream).symm
  obtain ⟨events, hevents⟩ := exists_decodeAll hlegible
  have hwhole := Codec.decodeAll_eq_ok_iff.1 hevents
  have hlength : events.length = late.count stream := by
    have hlen := congrArg List.length hwhole
    simp only [List.length_map] at hlen
    rw [← hlen, hlate.length_belonging]
  have hplace : ∀ (i : Nat) e, events[i]? = some e → e.stream = stream ∧ e.version = i := by
    intro i e he
    have hi := congrArg (·[i]?) hwhole
    simp only [List.getElem?_map, he, Option.map_some] at hi
    obtain ⟨d, hd, hdecode⟩ := Option.map_eq_some_iff.1 hi
    rw [belonging, hlate.filter_belongsTo] at hd
    exact (hlate.labelled_documentsOf hd).decode hdecode
  have hlast := getLast?_version fun i e he => (hplace i e he).2
  have hversion := hearly.version stream
  have hle := hearly.count_le_of_prefix hlate hgrown stream
  rw [hlength] at hlast
  refine ⟨⟨stream, early.version stream, events⟩, ?_, ?_, ?_⟩
  · rw [read, readSlice, checkStreamId_eq_ok_iff.2 hs, hdocuments, hevents]
    rfl
  · constructor
    case ofStream => rfl
    case version => rfl
    case whole => exact hwhole
    case place => exact hplace
    case behind =>
      simp only [hlast, hversion]
      split
      · simp
      · have hpos : late.count stream ≠ 0 := by omega
        simp only [if_neg hpos, Option.some_le_some]
        omega
    case first =>
      -- the older documents are the first ones of all
      have hprefix : early.belonging stream <+: late.belonging stream := hgrown.filter _
      have hcount : versionAfter (early.version stream) = (early.belonging stream).length := by
        rw [hearly.versionAfter, hearly.length_belonging]
      rw [List.map_take, ← hwhole, ← List.map_take, hcount, ← List.prefix_iff_eq_take.1 hprefix]
  · simp only [hlast, hversion]
    by_cases hzero : early.count stream = 0
    · by_cases hzero' : late.count stream = 0 <;> simp [hzero, hzero']
    · have hpos : late.count stream ≠ 0 := by omega
      simp only [if_neg hzero, if_neg hpos, Option.some.injEq]
      omega

end

end EventLog

namespace Simulation

variable {s t : Simulation} {stream : String} {call : StoreCall}

/-! ## What calls do to a stream -/

/-- The call has appended events to a stream. -/
def Appends (stream : String) : StoreCall × StoreAnswer → Prop
  | (.append other _ events, .appended (.ok _)) => other = stream ∧ events ≠ []
  | _ => False

/-- From `s` to `t` documents were put behind the others, and the stream is longer just if something was appended to
it. -/
structure Grows (stream : String) (appended : Prop) (s t : Simulation) : Prop where
  coherent : t.log.Coherent
  config : t.config = s.config
  documents : s.log.documents <+: t.log.documents
  count_eq_iff : t.log.count stream = s.log.count stream ↔ ¬appended

theorem Grows.refl (h : s.log.Coherent) {appended : Prop} (ha : ¬appended) : Grows stream appended s s where
  coherent := h
  config := rfl
  documents := List.prefix_refl _
  count_eq_iff := iff_of_true rfl ha

theorem Grows.trans {r : Simulation} {p q : Prop} (hr : r.log.Coherent) (h : Grows stream p r s)
    (h' : Grows stream q s t) : Grows stream (p ∨ q) r t where
  coherent := h'.coherent
  config := h'.config.trans h.config
  documents := h.documents.trans h'.documents
  count_eq_iff := by
    have hle := hr.count_le_of_prefix h.coherent h.documents stream
    have hle' := h.coherent.count_le_of_prefix h'.coherent h'.documents stream
    rw [not_or, ← h.count_eq_iff, ← h'.count_eq_iff]
    omega

/-- A call, with the answer that it gets in the end, whenever that is. -/
theorem grows_startCall (h : s.log.Coherent) (call : StoreCall) (stream : String) (later : Simulation) :
    Grows stream (Appends stream (call, later.finishCall (s.startCall call).1)) s (s.startCall call).2 := by
  cases call with
  | append other expected events =>
    simp only [startCall]
    cases ha : s.log.append s.codec other expected events with
    | error e => exact .refl h id
    | ok made =>
      obtain ⟨r, log⟩ := made
      obtain ⟨batch, hbatch, hcount, -⟩ := h.of_append ha
      refine ⟨h.append ha, rfl, EventLog.prefix_of_append ha, ?_⟩
      have hlength := Codec.length_encodeAll hbatch
      simp only [hcount, finishCall, Appends, hlength]
      by_cases hs : other = stream <;> simp [hs]
  | read other skip limit =>
    simp only [startCall]
    cases s.config.consistency with
    | transactional => exact .refl h id
    | independent => exact .refl h id
  | hasEvents other => exact .refl h id

/-- Calls, with the answers that they get in the end. -/
theorem grows_startCalls (h : s.log.Coherent) (calls : List StoreCall) (stream : String) (later : Simulation) :
    Grows stream (∃ made ∈ calls.zip ((s.startCalls calls).1.map later.finishCall), Appends stream made) s
      (s.startCalls calls).2 := by
  induction calls generalizing s with
  | nil => exact .refl h (by simp)
  | cons call rest ih =>
    have hcall := grows_startCall h call stream later
    have hrest := ih hcall.coherent
    simpa [startCalls] using hcall.trans h hrest

/-! ## A read among other calls -/

/-- **Reads while others append**: after any calls, a read is made and then others, before the read goes on. If it is
not transactional and all documents of its stream are events in the end, it gives all of them, with the version that
the stream had in the beginning; these go together just if none of the calls in between has appended to the stream. If
it is transactional, version and events are those of the beginning and go together always. -/
theorem read_amid (s : Simulation) (hempty : s.log = .empty) (before between : List StoreCall) {stream : String}
    (hs : stream ≠ "") :
    let early := (s.concurrently before).2
    let late := (early.concurrently (.read stream 0 none :: between)).2
    let answers := (early.concurrently (.read stream 0 none :: between)).1
    (s.config.consistency = .independent → late.log.Legible s.codec stream →
        ∃ slice others, answers = .read (.ok slice) :: others ∧
          EventLog.Spans s.codec stream early.log late.log slice ∧
          (slice.version = slice.events.getLast?.map (·.version) ↔
            ∀ made ∈ between.zip others, ¬Appends stream made)) ∧
      (s.config.consistency = .transactional → early.log.Legible s.codec stream →
        ∃ slice others, answers = .read (.ok slice) :: others ∧
          EventLog.Spans s.codec stream early.log early.log slice ∧
          slice.version = slice.events.getLast?.map (·.version)) := by
  intro early late answers
  have hstart : s.log.Coherent := hempty ▸ EventLog.coherent_empty
  have hbefore : Grows stream _ s early := grows_startCalls hstart before stream s
  have hcodec : early.codec = s.codec := by rw [codec, hbefore.config, codec]
  constructor
  · intro hindependent hlegible
    have hconfig : early.config.consistency = .independent := by rw [hbefore.config, hindependent]
    have hbetween := grows_startCalls hbefore.coherent between stream late
    have hlate : late = (early.startCalls between).2 := by simp [late, concurrently, startCalls, startCall, hconfig]
    have hlatecodec : late.codec = s.codec := by rw [codec, hlate, hbetween.config, ← codec, hcodec]
    rw [← hlate] at hbetween
    obtain ⟨slice, hread, hspans, hagree⟩ :=
      hbefore.coherent.spans hbetween.coherent hbetween.documents hs hlegible
    refine ⟨slice, (early.startCalls between).1.map late.finishCall, ?_, hspans, ?_⟩
    · have hanswers : answers = (late.finishCall (.reading stream 0 none early.log)) ::
          (early.startCalls between).1.map late.finishCall := by
        simp [answers, late, concurrently, startCalls, startCall, hconfig]
      rw [hanswers, finishCall, hlatecodec, ← EventLog.read, hread]
    · rw [hagree, hbetween.count_eq_iff]
      simp
  · intro htransactional hlegible
    have hconfig : early.config.consistency = .transactional := by rw [hbefore.config, htransactional]
    obtain ⟨slice, hread, hspans, hagree⟩ :=
      hbefore.coherent.spans hbefore.coherent (List.prefix_refl _) hs hlegible
    refine ⟨slice, (early.startCalls between).1.map late.finishCall, ?_, hspans, hagree.2 rfl⟩
    have hanswers : answers = .read (EventLog.readSlice early.codec stream 0 none early.log early.log) ::
        (early.startCalls between).1.map late.finishCall := by
      simp [answers, late, concurrently, startCalls, startCall, hconfig, finishCall]
    rw [hanswers, hcodec, ← EventLog.read, hread]

/-- An append of one event without payload. -/
def appendNote : StoreCall := .append "s" .any [⟨"1", "/", "note", none, none, none, none, .empty⟩]

/-- Reads are not transactional, and nothing has happened. -/
def untouched : Simulation where
  config := { consistency := .independent }
  workerCodec := .json .rfc3339String
  defaultStart := .now
  recording := none

/-- A stream of one event. -/
def noted : Simulation := (untouched.concurrently [appendNote]).2

/-- A read that another append comes into. -/
def overtaken : List StoreAnswer × Simulation := noted.concurrently [.read "s" 0 none, appendNote]

/-- The event goes to the end of the stream: it has neither time nor payload, so it can be stored. -/
theorem exists_startCall_appendNote (hconfig : s.config = untouched.config) (h : s.log.Coherent)
    (hcount : s.log.count "s" ≤ 1) (hl : s.log.Legible untouched.codec "s") :
    ∃ t, s.startCall appendNote = (.done (.appended (.ok ⟨"s", s.log.version "s", some (s.log.count "s")⟩)), t) ∧
      t.config = untouched.config ∧ t.log.Coherent ∧ t.log.count "s" = s.log.count "s" + 1 ∧
      t.log.Legible untouched.codec "s" := by
  have hcodec : s.codec = .json .rfc3339String := by
    rw [codec, hconfig]
    rfl
  have hstorable : ∀ e ∈ [(⟨"1", "/", "note", none, none, none, none, .empty⟩ : Event)],
      e.Storable .rfc3339String ∧ e.DoublesReadBack := by
    refine List.forall_mem_singleton.2 ⟨⟨List.forall_mem_nil _, rfl, ?_, ?_⟩, ?_⟩
    · intro v hv
      cases hv
    · intro t ht
      cases ht
    · intro v hv
      cases hv
  obtain ⟨batch, hbatch⟩ :=
    Codec.exists_encodeAll hstorable "s" (show s.log.count "s" + 1 ≤ 0x8000000000000000 by omega)
  obtain ⟨d, _, -, hnil, rfl⟩ := Codec.encodeAll_cons_eq_ok_iff.1 hbatch
  cases hnil
  have happend := (EventLog.append_eq_ok_iff h.toGapless).2
    ⟨show "s" ≠ "" by decide, show ExpectedVersion.any.Admits _ from trivial, [d], hbatch, rfl, rfl⟩
  refine ⟨{ s with log := s.log.extend "s" (s.log.count "s") [d] }, ?_, hconfig, h.append happend,
    h.count_extend "s" [d] "s", hl.append h hstorable happend⟩
  rw [appendNote, startCall, hcodec, happend]
  rfl

/-- Both appends are made, and all documents of the stream are events. -/
theorem overtaken_spec :
    noted.log.version "s" = some 0 ∧ overtaken.2.log.Legible untouched.codec "s" ∧
      overtaken.1.tail = [.appended (.ok ⟨"s", some 0, some 1⟩)] := by
  obtain ⟨t, hfirst, hconfig, hc, hcount, hl⟩ :=
    exists_startCall_appendNote (s := untouched) rfl EventLog.coherent_empty (Nat.zero_le 1) nofun
  have hcount : t.log.count "s" = 1 := hcount
  have hversion : t.log.version "s" = some 0 := by rw [hc.version, hcount, if_neg Nat.one_ne_zero]
  have hnoted : noted = t := by simp [noted, concurrently, startCalls, hfirst]
  obtain ⟨u, hsecond, -, -, -, hl'⟩ := exists_startCall_appendNote hconfig hc hcount.le hl
  have hread : startCall (.read "s" 0 none) t = (.reading "s" 0 none t.log, t) := by
    rw [startCall, hconfig]
    rfl
  rw [hcount, hversion] at hsecond
  simp [overtaken, hnoted, concurrently, startCalls, hread, hsecond, finishCall, hversion, hl']

/-- The read gives both events, with the version of the first one. -/
theorem read_amid_overtaken :
    untouched.log = .empty ∧ "s" ≠ "" ∧ overtaken.2.log.Legible untouched.codec "s" ∧
      ∃ slice others, overtaken.1 = .read (.ok slice) :: others ∧
        EventLog.Spans untouched.codec "s" noted.log overtaken.2.log slice ∧ slice.version = some 0 ∧
        slice.version ≠ slice.events.getLast?.map (·.version) := by
  have hne : "s" ≠ "" := by decide
  obtain ⟨hversion, hlegible, happended⟩ := overtaken_spec
  obtain ⟨slice, others, hanswers, hspans, hagree⟩ :=
    (read_amid untouched rfl [appendNote] [appendNote] hne).1 rfl hlegible
  refine ⟨rfl, hne, hlegible, slice, others, hanswers, hspans, hspans.version.trans hversion, ?_⟩
  rw [Ne, hagree]
  intro hnone
  have hothers : others = [.appended (.ok ⟨"s", some 0, some 1⟩)] := by
    rw [← happended, overtaken, noted, hanswers, List.tail_cons]
  refine hnone (appendNote, .appended (.ok ⟨"s", some 0, some 1⟩)) ?_ ⟨rfl, List.cons_ne_nil _ _⟩
  simp [hothers]

end Simulation

end Chronicle
