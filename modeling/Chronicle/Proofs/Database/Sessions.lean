import Chronicle.Proofs.Database.Paging
import Mathlib.Logic.Function.Basic
import Mathlib.Logic.Relation

/-!
# Sessions side by side

Several clients carry out their dialogues at once: each takes one step at a time (`Dialogue.Moves`), and the steps of
the others come in between. The steps of a client alone make up its run (`Dialogue.runs_iff_goes`).

`Isolates` is the account of a server whose transactions do not disturb each other. A transaction reads what was
committed at some moment; what it inserts takes the slots of its documents, a stream and a version each, and nobody else
can insert there; a commit makes all of it visible at once, and what is not committed is lost. The server may refuse any
request.
-/

namespace Chronicle.Database

open Codec (Labelled belongsTo)

/-! ## Step by step -/

namespace Dialogue

variable {σ α : Type} {serves : Service σ} {s t u : σ} {d d' : Dialogue α} {a : α}

/-- One request of a dialogue is answered. -/
inductive Moves (serves : Service σ) : σ → Dialogue α → σ → Dialogue α → Prop
  | send {s t : σ} {r : Request} {next : Reply → Dialogue α} {reply : Reply} : serves s r reply t →
    Moves serves s (.send r next) t (next reply)
  | last {s t : σ} {r : Request} {stop : Reply → Bool} {next : List Reply → Dialogue α} {reply : Reply} :
    serves s r reply t → stop reply = true → Moves serves s (.sendUntil r stop next) t (next [reply])
  | more {s t : σ} {r : Request} {stop : Reply → Bool} {next : List Reply → Dialogue α} {reply : Reply} :
    serves s r reply t → stop reply = false →
    Moves serves s (.sendUntil r stop next) t (.sendUntil r stop fun replies => next (reply :: replies))

theorem Moves.runs (h : d.Moves serves s t d') (hr : d'.Runs serves t a u) : d.Runs serves s a u := by
  cases h with
  | send hs => exact ⟨_, _, hs, hr⟩
  | last hs hstop => exact ⟨_, _, .last hs hstop, hr⟩
  | more hs hstop =>
    obtain ⟨replies, s', hreplies, hr⟩ := hr
    exact ⟨_, s', .more hs hstop hreplies, hr⟩

/-- Any number of requests are answered. -/
abbrev Goes (serves : Service σ) : σ × Dialogue α → σ × Dialogue α → Prop :=
  Relation.ReflTransGen fun x y => x.2.Moves serves x.1 y.1 y.2

theorem goes_of_answered {r : Request} {stop : Reply → Bool} {replies : List Reply}
    (h : serves.Answered r stop s replies t) (next : List Reply → Dialogue α) :
    Goes serves (s, .sendUntil r stop next) (t, next replies) := by
  induction h generalizing next with
  | last hs hstop => exact .single (.last hs hstop)
  | more hs hstop _ ih => exact .head (.more hs hstop) (ih fun replies => next (_ :: replies))

/-- A dialogue comes to an end just if its steps lead there. So what takes turns here is what a client runs that has the
server to itself. -/
theorem runs_iff_goes : d.Runs serves s a t ↔ Goes serves (s, d) (t, .done a) := by
  constructor
  · intro h
    induction d generalizing s with
    | done b =>
      obtain ⟨rfl, rfl⟩ := h
      exact .refl
    | send r next ih =>
      obtain ⟨reply, s', hs, h⟩ := h
      exact .head (.send hs) (ih reply h)
    | sendUntil r stop next ih =>
      obtain ⟨replies, s', hs, h⟩ := h
      exact (goes_of_answered hs next).trans (ih replies h)
  · intro h
    generalize hx : (s, d) = x at h
    induction h using Relation.ReflTransGen.head_induction_on generalizing s d with
    | refl =>
      cases hx
      exact ⟨rfl, rfl⟩
    | head hmove _ ih =>
      cases hx
      exact hmove.runs (ih rfl)

end Dialogue

/-! ## What a server knows -/

/-- What a server knows: the batches that were committed, each with the session that did so, and what each open
transaction has inserted. -/
structure Sessions where
  commits : List (Nat × List Document)
  pending : Nat → Option (List Document)

namespace Sessions

variable {t : Sessions} {j k : Nat} {writes : List Document} {held : Option (List Document)} {stream : String}

/-- Nothing is committed, and no transaction is open. -/
def empty : Sessions := ⟨[], fun _ => none⟩

/-- The documents that were committed. -/
def documents (t : Sessions) : List Document := t.commits.flatMap Prod.snd

/-- The documents of a stream, in the order in which they were committed. -/
def documentsOf (t : Sessions) (stream : String) : List Document := t.documents.filter (belongsTo stream)

/-- The number of a stream's documents. -/
def count (t : Sessions) (stream : String) : Nat := (t.documentsOf stream).length

/-- A session's transaction has inserted these documents, or there is none. -/
def hold (k : Nat) (held : Option (List Document)) (t : Sessions) : Sessions :=
  { t with pending := Function.update t.pending k held }

/-- A session's transaction is committed. -/
def commit (k : Nat) (writes : List Document) (t : Sessions) : Sessions where
  commits := t.commits ++ [(k, writes)]
  pending := Function.update t.pending k none

@[simp] theorem commits_hold : (t.hold k held).commits = t.commits := rfl

@[simp] theorem documentsOf_hold : (t.hold k held).documentsOf stream = t.documentsOf stream := rfl

@[simp] theorem count_hold : (t.hold k held).count stream = t.count stream := rfl

@[simp] theorem pending_hold_self : (t.hold k held).pending k = held := Function.update_self ..

theorem pending_hold_of_ne (h : j ≠ k) : (t.hold k held).pending j = t.pending j := Function.update_of_ne h ..

@[simp] theorem pending_commit_self : (t.commit k writes).pending k = none := Function.update_self ..

theorem pending_commit_of_ne (h : j ≠ k) : (t.commit k writes).pending j = t.pending j := Function.update_of_ne h ..

theorem pending_commit_eq_some {writes' : List Document} (h : (t.commit k writes).pending j = some writes') :
    j ≠ k ∧ t.pending j = some writes' := by
  by_cases hj : j = k
  · subst hj
    rw [pending_commit_self] at h
    cases h
  · rw [pending_commit_of_ne hj] at h
    exact ⟨hj, h⟩

theorem documents_commit : (t.commit k writes).documents = t.documents ++ writes := by
  simp [documents, commit]

theorem documentsOf_commit :
    (t.commit k writes).documentsOf stream = t.documentsOf stream ++ writes.filter (belongsTo stream) := by
  rw [documentsOf, documents_commit, List.filter_append, documentsOf]

theorem count_commit :
    (t.commit k writes).count stream = t.count stream + (writes.filter (belongsTo stream)).length := by
  rw [count, documentsOf_commit, List.length_append, count]

end Sessions

/-! ## Slots -/

/-- Two documents have the same stream and the same version. -/
def SameSlot (d d' : Document) : Prop :=
  Fields.get? streamIdField d' = Fields.get? streamIdField d ∧
    Fields.get? streamVersionField d' = Fields.get? streamVersionField d

theorem sameSlot_iff {d d' : Document} {stream stream' : String} {v v' : Nat} (h : Labelled stream v d)
    (h' : Labelled stream' v' d') : SameSlot d d' ↔ stream = stream' ∧ v = v' := by
  constructor
  · rintro ⟨hs, hv⟩
    exact Labelled.unique ⟨hs.trans h.streamId, hv.trans h.streamVersion, h.version_le⟩ h'
  · rintro ⟨rfl, rfl⟩
    exact ⟨h'.streamId.trans h.streamId.symm, h'.streamVersion.trans h.streamVersion.symm⟩

theorem SameSlot.symm {d d' : Document} (h : SameSlot d d') : SameSlot d' d := ⟨h.1.symm, h.2.symm⟩

/-- The slot of a document is not taken, neither by a commit nor by the open transaction of another session. -/
def Sessions.Free (k : Nat) (t : Sessions) (d : Document) : Prop :=
  (∀ d' ∈ t.documents, ¬SameSlot d d') ∧
    ∀ j writes, j ≠ k → t.pending j = some writes → ∀ d' ∈ writes, ¬SameSlot d d'

/-! ## A server with transactions -/

/-- A reply refuses what was asked. -/
def Refuses : Command → Reply → Prop
  | .insert .., reply => ∃ e, reply.inserted = .error e
  | .commit .., reply | .abort _, reply => ∃ e, reply.written = .error e
  | _, reply => ∃ e, reply.accepted = .error e

/-- What a server with a collection may answer a session. A transaction begins with a query for what was committed at
some moment, which may have passed. An insert takes the slots of the first documents, as many as its reply counts, and
it cannot take slots of others. -/
inductive Isolates (c : Collection) (k : Nat) : Service Sessions
  | find {t : Sessions} {q : Query} {concern : Option ReadConcern} {moment : Nat} {reply : Reply} :
    q.collection = c → reply.accepted = .ok () → (q.single = true → reply.more = false) →
    q.Answers ((t.commits.take moment).flatMap Prod.snd) reply.documents →
    Isolates c k t ⟨.find q, some (.first concern)⟩ reply (t.hold k (some []))
  | insert {t : Sessions} {documents writes stored : List Document} {n : Nat} {reply : Reply} :
    t.pending k = some writes → reply.inserted = .ok n → 0 < n → n ≤ documents.length →
    List.Forall₂ Keyed (documents.take n) stored → (∀ d ∈ stored, t.Free k d) →
    Isolates c k t ⟨.insert c documents, some .later⟩ reply (t.hold k (some (writes ++ stored)))
  | commit {t : Sessions} {how : Option Acknowledgement} {time : Option Nat} {writes : List Document} {n : Nat}
    {reply : Reply} : t.pending k = some writes → reply.written = .ok n →
    Isolates c k t ⟨.commit how time, some .later⟩ reply (t.commit k writes)
  | abort {t : Sessions} {how : Option Acknowledgement} {reply : Reply} :
    Isolates c k t ⟨.abort how, some .later⟩ reply (t.hold k none)
  | refuse {t : Sessions} {command : Command} {part : Option TransactionPart} {reply : Reply} :
    Refuses command reply → Isolates c k t ⟨command, part⟩ reply t

end Chronicle.Database
