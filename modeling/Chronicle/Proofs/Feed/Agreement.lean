import Chronicle.Proofs.Feed.Resumption
import Chronicle.Proofs.Store.Coherence

/-!
# Readers and followers see the same

A reader gets a stream's events through the index, a follower gets the documents as they stand in the log. Appends keep
the log coherent, so that the two agree in every state: of what a feed from the beginning gives, the documents that say
they belong to a stream are those that a reader of this stream gets, in the same order (`Broadcast.views_agree`).
-/

namespace Chronicle

/-- The documents that a follower was given. -/
def Follower.documents (f : Follower) : List Document := f.items.filterMap fun item => item.toOption.map Change.document

namespace Follower

variable {b : Broadcast} {f : Follower}

theorem documents_of_items_eq {cs : List Change} (h : f.items = cs.map .ok) :
    f.documents = cs.map Change.document := by
  rw [documents, h, List.filterMap_map, ← List.filterMap_eq_map]
  rfl

/-- A follower from the beginning was given the first documents. -/
theorem Served.documents_prefix (h : f.Served b 0) : f.documents <+: b.log.documents := by
  have hp := h.items.filterMap fun item => item.toOption.map Change.document
  rw [List.filterMap_map] at hp
  have hall : (b.log.changesFrom 0).filterMap ((fun item => item.toOption.map Change.document) ∘
      (.ok : Change → Except StoreError Change)) = b.log.documents := by
    rw [← b.log.map_document_changesFrom_zero, ← List.filterMap_eq_map]
    rfl
  rw [hall] at hp
  exact hp

theorem Served.eq_zero {place : Nat} (h : f.Served b place) (hf : f.start = .beginning) : place = 0 := by
  have hb := h.begins
  rw [hf] at hb
  cases hb
  rfl

end Follower

namespace Broadcast

open Codec (Labelled belongsTo)
open Follower (Served)

variable {codec : Codec} {b : Broadcast} {f : Follower} {i : Nat}

theorem coherent_step (h : b.log.Coherent) (codec : Codec) (a : Action) : (b.step codec a).log.Coherent := by
  cases a with
  | append call =>
    rw [step]
    split
    · rename_i r log ha
      exact h.append ha
    · exact h
  | announce =>
    rw [log_announce]
    exact h
  | openFeed start =>
    rw [step]
    split
    · exact h
    · exact h
  | ask k => exact h
  | look k => exact h

theorem coherent_run (h : b.log.Coherent) (codec : Codec) (actions : List Action) :
    (b.run codec actions).log.Coherent :=
  run_induct (P := fun b => b.log.Coherent) h (fun _ a h => coherent_step h codec a) actions

/-- What the index of a stream says, what is in the log, and what is read and followed are the same. -/
structure Agrees (codec : Codec) (b : Broadcast) (stream : String) : Prop where
  versions : (b.log.index stream).map Prod.fst = List.range (b.log.count stream)
  ascending : (b.log.index stream).Pairwise fun e e' => e.1 < e'.1 ∧ e.2 < e'.2
  inRange : ∀ e ∈ b.log.index stream, e.2 < b.log.size
  /-- At the place of a version is the document of this version. -/
  labelled : ∀ e ∈ b.log.index stream, ∃ d, b.log.documents[e.2]? = some d ∧ Labelled stream e.1 d
  /-- Each place is that of one version of one stream. -/
  owner : ∀ place < b.log.size, ∃! owner : String × Nat, (owner.2, place) ∈ b.log.index owner.1
  /-- A feed from the beginning gives the stream's documents as they are read, in the same order, and in the end all of
  them. -/
  delivered : ∀ i f, b.followers[i]? = some f → f.start = .beginning →
    f.documents.filter (belongsTo stream) <+: b.log.slice stream 0 none ∧
      ∃ count g, (b.run codec (pulls i count)).followers[i]? = some g ∧
        g.documents.filter (belongsTo stream) = b.log.slice stream 0 none
  /-- What is in the log stays there. -/
  kept : ∀ more, b.log.documents <+: (b.run codec more).log.documents

/-- **Agreement**: whatever is appended, the index of each stream and the log are two views of the same events, and so
are reads and feeds. -/
theorem views_agree (codec : Codec) (actions : List Action) (stream : String) :
    Agrees codec ((ofLog .empty).run codec actions) stream := by
  have hc := coherent_run (b := ofLog .empty) EventLog.coherent_empty codec actions
  constructor
  case versions => exact hc.versions stream
  case ascending => exact hc.pairwise_index stream
  case inRange => exact hc.place_lt stream
  case labelled => exact hc.labelled stream
  case owner => exact fun place hp => hc.existsUnique_owner hp
  case delivered =>
    intro i f hf hstart
    obtain ⟨place, h⟩ := serving_run codec .empty actions i f hf
    obtain rfl := h.eq_zero hstart
    obtain ⟨count, g, hg, hitems⟩ := exists_pulls hf h codec
    have hfilter := hc.filter_belongsTo stream
    refine ⟨?_, count, g, hg, ?_⟩
    · rw [← EventLog.documentsOf, ← hfilter]
      exact h.documents_prefix.filter _
    · rw [Follower.documents_of_items_eq hitems, EventLog.map_document_changesFrom_zero, hfilter, EventLog.documentsOf]
  case kept => exact fun more => (later_run codec _ more).documents

end Broadcast

end Chronicle
