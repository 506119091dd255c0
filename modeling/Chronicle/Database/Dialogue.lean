import Chronicle.Database.Command
import Chronicle.Database.Reply

/-!
# Dialogues with a database

What a client says to a database depends on what it was answered. A `Dialogue` is such a plan without a database:
`Dialogue.replay` carries it out against a list of replies, and any other account of a database can answer it as well.
A cursor is asked again and again until a reply ends that, so that this is one step of a dialogue.

* `replay_bind`: dialogues are carried out one after the other.
-/

namespace Chronicle.Database

/-- A plan of what to send, depending on the replies. -/
inductive Dialogue (α : Type) where
  | done (a : α)
  | send (r : Request) (next : Reply → Dialogue α)
  /-- Sends the same request until a reply stops it. The replies come in order, the one that stopped it last. -/
  | sendUntil (r : Request) (stop : Reply → Bool) (next : List Reply → Dialogue α)

namespace Dialogue

variable {α β : Type}

/-- One dialogue after another. -/
def bind : Dialogue α → (α → Dialogue β) → Dialogue β
  | done a, f => f a
  | send r next, f => send r fun reply => (next reply).bind f
  | sendUntil r stop next, f => sendUntil r stop fun replies => (next replies).bind f

instance : Monad Dialogue where
  pure := done
  bind := bind

/-- Sends a request. -/
def ask (r : Request) : Dialogue Reply := send r done

/-- Sends a request until a reply stops it. -/
def askUntil (r : Request) (stop : Reply → Bool) : Dialogue (List Reply) := sendUntil r stop done

/-! ## Replaying replies -/

/-- How a dialogue went: its result, what was sent, and the replies that are left. -/
structure Transcript (α : Type) where
  result : α
  sent : List Request
  unused : List Reply

/-- The replies up to the first that stops, and those behind it. If none does, a reply that tells nothing comes last. -/
def splitAtStop (stop : Reply → Bool) : List Reply → List Reply × List Reply
  | [] => ([{}], [])
  | r :: rest =>
    if stop r then ([r], rest)
    else
      let (used, unused) := splitAtStop stop rest
      (r :: used, unused)

/-- Carries a dialogue out against a list of replies. When there are no more, each reply tells nothing. -/
def replay : Dialogue α → List Reply → Transcript α
  | done a, replies => ⟨a, [], replies⟩
  | send r next, replies =>
    let t := (next (replies.headD {})).replay replies.tail
    ⟨t.result, r :: t.sent, t.unused⟩
  | sendUntil r stop next, replies =>
    let (used, unused) := splitAtStop stop replies
    let t := (next used).replay unused
    ⟨t.result, List.replicate used.length r ++ t.sent, t.unused⟩

theorem replay_bind (d : Dialogue α) (f : α → Dialogue β) (replies : List Reply) :
    (d.bind f).replay replies =
      let t := d.replay replies
      let u := (f t.result).replay t.unused
      ⟨u.result, t.sent ++ u.sent, u.unused⟩ := by
  induction d generalizing replies with
  | done a => simp [bind, replay]
  | send r next ih => simp [bind, replay, ih]
  | sendUntil r stop next ih => simp [bind, replay, ih]

end Dialogue

/-- A dialogue that may fail. -/
abbrev Attempt := ExceptT StoreError Dialogue

namespace Attempt

variable {α : Type}

/-- What a database error means to a store, if it means nothing special. -/
def ofDatabase (r : Except DatabaseError α) : Attempt α := ExceptT.mk (.done (r.mapError .database))

/-- Sends a request. -/
def ask (r : Request) : Attempt Reply := ExceptT.lift (Dialogue.ask r)

/-- Sees to an index. -/
def createIndex (collection : Collection) (keys : Document) : Attempt Unit := do
  ofDatabase (← ask ⟨.createIndex collection keys, none⟩).accepted

/-- Asks an open cursor for the next batch, until a reply stops it. -/
def askMore (q : Query) (part : Option TransactionPart) (stop : Reply → Bool) : Attempt (List Reply) :=
  ExceptT.lift (Dialogue.askUntil ⟨.getMore q.collection.name q.laterBatchSize, part.map fun _ => .later⟩ stop)

/-- The first document of those that are asked for. -/
def findOne (q : Query) (part : Option TransactionPart) : Attempt (Option Document) := do
  let reply ← ask ⟨.find q.one, part⟩
  ofDatabase reply.accepted
  if !reply.documents.isEmpty || !reply.more then return reply.documents.head?
  let replies ← askMore q part Reply.settles
  ofDatabase (replies.getLastD {}).accepted
  return (replies.getLastD {}).documents.head?

/-- The documents in the replies of a cursor, if none of them is a failure. -/
def documentsOf : List Reply → Except DatabaseError (List Document)
  | [] => .ok []
  | r :: rest => do
    r.accepted
    return r.documents ++ (← documentsOf rest)

/-- All documents that are asked for. -/
def findAll (q : Query) (part : Option TransactionPart) : Attempt (List Document) := do
  ofDatabase q.check
  let reply ← ask ⟨.find q, part⟩
  ofDatabase reply.accepted
  if !reply.more then return reply.documents
  let replies ← askMore q part Reply.endsCursor
  return reply.documents ++ (← ofDatabase (documentsOf replies))

/-- Inserts documents in order. Those that a reply does not count as stored are sent again, until a reply counts some. -/
def insertAll (collection : Collection) (part : Option TransactionPart) :
    List Document → Dialogue (Except DatabaseError Unit)
  | [] => .done (.ok ())
  | d :: rest =>
    .sendUntil ⟨.insert collection (d :: rest), part⟩ Reply.endsInsert fun replies =>
      match (replies.getLastD {}).inserted with
      | .ok n => insertAll collection part (rest.drop (n - 1))
      | .error e => .done (.error e)
termination_by documents => documents.length
decreasing_by simp only [List.length_drop, List.length_cons]; omega

end Attempt

end Chronicle.Database
