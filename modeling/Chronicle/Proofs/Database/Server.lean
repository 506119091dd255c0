import Chronicle.Database.Transaction
import Mathlib.Data.List.Basic

/-!
# Servers that keep to the rules

A dialogue can be carried out with any account of a server, a relation between its state, a request, the reply and the
state behind it (`Dialogue.Runs`). `Serves` is such an account of a server whose documents nobody changes: the answer to
a query is what its filter, sort, skip, limit and projection make of the collection (`Query.Answers`), and it comes in
batches of any size. Where the sort leaves an order open, the server is free; but if a query has one answer only, the
dialogues that ask it give this answer (`yields_findOne`, `yields_findAll`), within a transaction or not
(`yields_inTransaction`).
-/

namespace Chronicle.Database

/-! ## Dialogues with a server -/

/-- What a server may do in a state: its reply to a request, and the state behind it. -/
abbrev Service (σ : Type) := σ → Request → Reply → σ → Prop

/-- The replies to a request that is sent until one of them stops that. -/
inductive Service.Answered {σ : Type} (serves : Service σ) (r : Request) (stop : Reply → Bool) :
    σ → List Reply → σ → Prop where
  | last {s t : σ} {reply : Reply} : serves s r reply t → stop reply = true → Answered serves r stop s [reply] t
  | more {s t u : σ} {reply : Reply} {replies : List Reply} : serves s r reply t → stop reply = false →
    Answered serves r stop t replies u → Answered serves r stop s (reply :: replies) u

namespace Dialogue

variable {σ α β : Type} {serves : Service σ} {s t u : σ} {a b : α}

/-- In dialogue with a server a plan can come to an end like this. -/
def Runs (serves : Service σ) : Dialogue α → σ → α → σ → Prop
  | .done b, s, a, t => a = b ∧ t = s
  | .send r next, s, a, t => ∃ reply s', serves s r reply s' ∧ (next reply).Runs serves s' a t
  | .sendUntil r stop next, s, a, t =>
    ∃ replies s', serves.Answered r stop s replies s' ∧ (next replies).Runs serves s' a t

theorem runs_bind_iff {d : Dialogue α} {f : α → Dialogue β} {b : β} :
    (d.bind f).Runs serves s b u ↔ ∃ a t, d.Runs serves s a t ∧ (f a).Runs serves t b u := by
  induction d generalizing s with
  | done a =>
    constructor
    · intro h
      exact ⟨a, s, ⟨rfl, rfl⟩, h⟩
    · rintro ⟨_, _, ⟨rfl, rfl⟩, h⟩
      exact h
  | send r next ih =>
    simp only [bind, Runs, ih]
    constructor
    · rintro ⟨reply, s', hs, a, t, hd, hf⟩
      exact ⟨a, t, ⟨reply, s', hs, hd⟩, hf⟩
    · rintro ⟨a, t, ⟨reply, s', hs, hd⟩, hf⟩
      exact ⟨reply, s', hs, a, t, hd, hf⟩
  | sendUntil r stop next ih =>
    simp only [bind, Runs, ih]
    constructor
    · rintro ⟨replies, s', hs, a, t, hd, hf⟩
      exact ⟨a, t, ⟨replies, s', hs, hd⟩, hf⟩
    · rintro ⟨a, t, ⟨replies, s', hs, hd⟩, hf⟩
      exact ⟨replies, s', hs, a, t, hd, hf⟩

/-- From a state a plan can come to an end, and however the server behaves, the result is this one. -/
structure YieldsFrom (serves : Service σ) (s : σ) (d : Dialogue α) (a : α) : Prop where
  exists_run : ∃ t, d.Runs serves s a t
  eq_of_runs : ∀ b t, d.Runs serves s b t → b = a

/-- The same from every state. -/
def Yields (serves : Service σ) (d : Dialogue α) (a : α) : Prop := ∀ s, d.YieldsFrom serves s a

theorem yields_done (serves : Service σ) (a : α) : (Dialogue.done a).Yields serves a := fun s =>
  ⟨⟨s, rfl, rfl⟩, fun _ _ h => h.1⟩

theorem YieldsFrom.bind {d : Dialogue α} {f : α → Dialogue β} {b : β} (h : d.YieldsFrom serves s a)
    (hf : (f a).Yields serves b) : (d.bind f).YieldsFrom serves s b where
  exists_run := by
    obtain ⟨t, ht⟩ := h.exists_run
    obtain ⟨u, hu⟩ := (hf t).exists_run
    exact ⟨u, runs_bind_iff.2 ⟨a, t, ht, hu⟩⟩
  eq_of_runs b' u hu := by
    obtain ⟨a', t, ht, hu⟩ := runs_bind_iff.1 hu
    obtain rfl := h.eq_of_runs a' t ht
    exact (hf t).eq_of_runs b' u hu

theorem Yields.bind {d : Dialogue α} {f : α → Dialogue β} {b : β} (h : d.Yields serves a)
    (hf : (f a).Yields serves b) : (d.bind f).Yields serves b := fun s => (h s).bind hf

theorem yieldsFrom_send {r : Request} {next : Reply → Dialogue α} (hex : ∃ reply t, serves s r reply t)
    (h : ∀ reply t, serves s r reply t → (next reply).YieldsFrom serves t a) :
    (Dialogue.send r next).YieldsFrom serves s a where
  exists_run := by
    obtain ⟨reply, t, hs⟩ := hex
    obtain ⟨u, hu⟩ := (h reply t hs).exists_run
    exact ⟨u, reply, t, hs, hu⟩
  eq_of_runs := by
    rintro b u ⟨reply, t, hs, hu⟩
    exact (h reply t hs).eq_of_runs b u hu

theorem yieldsFrom_sendUntil {r : Request} {stop : Reply → Bool} {next : List Reply → Dialogue α}
    (hex : ∃ replies t, serves.Answered r stop s replies t)
    (h : ∀ replies t, serves.Answered r stop s replies t → (next replies).YieldsFrom serves t a) :
    (Dialogue.sendUntil r stop next).YieldsFrom serves s a where
  exists_run := by
    obtain ⟨replies, t, hs⟩ := hex
    obtain ⟨u, hu⟩ := (h replies t hs).exists_run
    exact ⟨u, replies, t, hs, hu⟩
  eq_of_runs := by
    rintro b u ⟨replies, t, hs, hu⟩
    exact (h replies t hs).eq_of_runs b u hu

end Dialogue

/-! ## Queries -/

/-- The number in a field, if it is an integer. -/
def integerAt (name : String) (d : Document) : Option Int :=
  match Fields.get? name d with
  | some (.int32 n) => some n.toInt
  | some (.int64 n) => some n.toInt
  | _ => none

/-- A document has the values of a filter. -/
def Meets (filter d : Document) : Prop := ∀ f ∈ filter, Fields.get? f.1 d = some f.2

/-- One document may come before another one, by the integers under some keys with directions. How others compare is
left open. -/
def InOrder : (keys : Document) → Document → Document → Prop
  | [], _, _ => True
  | (name, direction) :: keys, d, d' =>
    match direction, integerAt name d, integerAt name d' with
    | .int32 n, some a, some b => n.toInt * a < n.toInt * b ∨ (a = b ∧ InOrder keys d d')
    | _, _, _ => True

/-- Some documents behind others. A limit of zero is none. -/
def cut (skip limit : Option Nat) (ds : List Document) : List Document :=
  match limit with
  | none | some 0 => ds.drop (skip.getD 0)
  | some n => (ds.drop (skip.getD 0)).take n

/-- The fields of a document that are wanted. Its key always is. -/
def project (wanted : Option Document) (d : Document) : Document :=
  match wanted with
  | none => d
  | some fields => d.filter fun f => f.1 = "_id" ∨ f.1 ∈ Fields.names fields

open Classical in
/-- What a query may be answered, when these are the documents of its collection. -/
def Query.Answers (q : Query) (documents result : List Document) : Prop :=
  ∃ sorted : List Document, sorted.Perm (documents.filter fun d => Meets q.filter d) ∧
    (∀ keys, q.sort = some keys → sorted.Pairwise (InOrder keys)) ∧
    result = (cut q.skip q.limit sorted).map (project q.projection)

/-! ## A server -/

/-- A server with a collection whose documents nobody changes. Its state is what the open cursor has not given yet. It
closes a cursor only behind the last document, and leaves none open if all documents have to come at once. -/
inductive Serves (c : Collection) (documents : List Document) : Service (List Document)
  | find {q : Query} {part : Option TransactionPart} {pending batch rest : List Document} {more : Bool} :
    q.collection = c → q.Answers documents (batch ++ rest) → (q.single = true → more = false) →
    (more = false → rest = []) → Serves c documents pending ⟨.find q, part⟩ { documents := batch, more } rest
  | getMore {name : String} {size : Option Nat} {part : Option TransactionPart} {batch rest : List Document}
    {more : Bool} : name = c.name → (more = false → rest = []) →
    Serves c documents (batch ++ rest) ⟨.getMore name size, part⟩ { documents := batch, more } rest
  | commit {how : Option Acknowledgement} {time : Option Nat} {part : Option TransactionPart}
    {pending : List Document} : Serves c documents pending ⟨.commit how time, part⟩ {} pending
  | abort {how : Option Acknowledgement} {part : Option TransactionPart} {pending : List Document} :
    Serves c documents pending ⟨.abort how, part⟩ {} pending

namespace Attempt

open Dialogue (Yields YieldsFrom yields_done yieldsFrom_send yieldsFrom_sendUntil)

variable {σ α β : Type} {serves : Service σ} {c : Collection} {documents ds rest : List Document} {q : Query}
  {part : Option TransactionPart}

theorem yields_bind_ok {x : Attempt α} {f : α → Attempt β} {a : α} {r : Except StoreError β}
    (h : x.run.Yields serves (.ok a)) (hf : (f a).run.Yields serves r) : (x >>= f).run.Yields serves r :=
  h.bind hf

theorem yields_bind_error {x : Attempt α} {f : α → Attempt β} {e : StoreError} (h : x.run.Yields serves (.error e)) :
    (x >>= f).run.Yields serves (.error e) :=
  h.bind (yields_done serves _)

theorem yields_mk_done (serves : Service σ) (r : Except StoreError α) :
    (ExceptT.mk (.done r) : Attempt α).run.Yields serves r :=
  yields_done serves r

/-- The documents of the replies are those that the cursor had not given yet. -/
theorem documentsOf_of_answered {name : String} {size : Option Nat} {replies : List Reply}
    (h : (Serves c documents).Answered ⟨.getMore name size, part⟩ Reply.endsCursor ds replies rest) :
    documentsOf replies = .ok ds := by
  induction h with
  | last hs hstop =>
    cases hs with
    | getMore hn hm =>
      rw [hm (by simpa [Reply.endsCursor] using hstop)]
      rfl
  | more hs hstop _ ih =>
    cases hs with
    | getMore hn hm =>
      rw [documentsOf, ih]
      rfl

theorem exists_answered (name : String) (size : Option Nat) (part : Option TransactionPart) (hn : name = c.name) :
    ∃ replies t, (Serves c documents).Answered ⟨.getMore name size, part⟩ Reply.endsCursor ds replies t := by
  have hs : Serves c documents (ds ++ []) ⟨.getMore name size, part⟩ { documents := ds } [] :=
    .getMore hn fun _ => rfl
  rw [List.append_nil] at hs
  exact ⟨_, _, .last hs rfl⟩

theorem exists_found (pending : List Document) (hc : q.collection = c) (hans : q.Answers documents ds) :
    ∃ reply rest, Serves c documents pending ⟨.find q, part⟩ reply rest := by
  have hs : Serves c documents pending ⟨.find q, part⟩ { documents := ds } [] :=
    .find hc ((List.append_nil ds).symm ▸ hans) (fun _ => rfl) fun _ => rfl
  exact ⟨_, _, hs⟩

/-- All documents of the one answer are found, in whichever batches they come. -/
theorem yields_findAll (hc : q.collection = c) (hq : q.check = .ok ())
    (ha : ∀ result, q.Answers documents result ↔ result = ds) (part : Option TransactionPart) :
    (findAll q part).run.Yields (Serves c documents) (.ok ds) := by
  refine yields_bind_ok (a := ()) (by rw [hq]; exact yields_mk_done _ _) fun pending => ?_
  refine yieldsFrom_send (exists_found pending hc ((ha _).2 rfl)) fun reply rest hs => ?_
  cases hs with
  | @find _ _ _ batch _ more _ hans hsingle hm =>
    rw [← (ha _).1 hans]
    cases more with
    | false =>
      rw [hm rfl, List.append_nil]
      exact yields_done _ _ _
    | true =>
      refine yieldsFrom_sendUntil (exists_answered _ _ _ (congrArg Collection.name hc)) fun replies t hreplies => ?_
      show YieldsFrom _ t (do return batch ++ (← ofDatabase (documentsOf replies)) : Attempt (List Document)).run _
      rw [documentsOf_of_answered hreplies]
      exact yields_bind_ok (yields_mk_done _ _) (yields_mk_done _ _) t

/-- The first document of the one answer is found. -/
theorem yields_findOne (hc : q.collection = c) (ha : ∀ result, q.one.Answers documents result ↔ result = ds)
    (part : Option TransactionPart) : (findOne q part).run.Yields (Serves c documents) (.ok ds.head?) := by
  intro pending
  refine yieldsFrom_send (exists_found pending hc ((ha _).2 rfl)) fun reply rest hs => ?_
  cases hs with
  | @find _ _ _ batch _ more _ hans hsingle hm =>
    obtain rfl := hsingle rfl
    rw [← (ha _).1 hans, hm rfl, List.append_nil]
    show YieldsFrom _ _ (if !batch.isEmpty || !false then pure batch.head? else _ : Attempt (Option Document)).run _
    rw [Bool.not_false, Bool.or_true, if_pos rfl]
    exact yields_done _ _ _

/-- A transaction gives what its commands give, whether it is committed or aborted. -/
theorem yields_inTransaction {settings : TransactionSettings} (hs : isAcknowledged settings = true)
    {body : Attempt α} {r : Except StoreError α} (h : body.run.Yields (Serves c documents) r)
    (onCommit : DatabaseError → StoreError) :
    (inTransaction settings onCommit body).run.Yields (Serves c documents) r := by
  rw [inTransaction, if_pos hs]
  refine h.bind ?_
  cases r with
  | ok a =>
    intro s
    refine yieldsFrom_send ⟨_, _, .commit⟩ fun reply t hreply => ?_
    cases hreply
    exact yields_done _ _ _
  | error e =>
    intro s
    refine yieldsFrom_send ⟨_, _, .abort⟩ fun reply t hreply => ?_
    cases hreply
    exact yields_done _ _ _

end Attempt

end Chronicle.Database
