import Chronicle.Database.Dialogue
import Chronicle.Proofs.Except

/-!
# Requests and their replies

A dialogue that is carried out against a list of replies pairs each request with the reply to it
(`Dialogue.exchanges`): these are the requests that are sent (`map_fst_exchanges`), the replies come in the order of
the list (`snd_of_getElem?_exchanges`), and one dialogue after another exchanges what both do (`exchanges_bind`). The
steps of an attempt are put in the form of a dialogue by the equations `Attempt.run_…`.
-/

namespace Chronicle.Database

/-- A request, with the reply to it. -/
abbrev Exchange := Request × Reply

namespace Dialogue

variable {α β γ : Type} {stop : Reply → Bool}

theorem bind_assoc (d : Dialogue α) (f : α → Dialogue β) (g : β → Dialogue γ) :
    (d.bind f).bind g = d.bind fun a => (f a).bind g := by
  induction d with
  | done a => rfl
  | send r next ih => simp only [bind, ih]
  | sendUntil r stop next ih => simp only [bind, ih]

/-! ## Replies up to one that stops -/

theorem splitAtStop_ne_nil (stop : Reply → Bool) (replies : List Reply) : (splitAtStop stop replies).1 ≠ [] := by
  cases replies with
  | nil => exact List.cons_ne_nil _ _
  | cons r rest =>
    rw [splitAtStop]
    split <;> exact List.cons_ne_nil _ _

theorem splitAtStop_of_stop {r : Reply} (h : stop r = true) (rest : List Reply) :
    splitAtStop stop (r :: rest) = ([r], rest) := if_pos h

theorem splitAtStop_of_not_stop {r : Reply} (h : stop r = false) (rest : List Reply) :
    splitAtStop stop (r :: rest) = (r :: (splitAtStop stop rest).1, (splitAtStop stop rest).2) :=
  if_neg (by rw [h]; exact Bool.false_ne_true)

/-- The last reply is the first one that stops. -/
theorem getLastD_splitAtStop (stop : Reply → Bool) (replies : List Reply) :
    (splitAtStop stop replies).1.getLastD {} = (replies.find? stop).getD {} := by
  induction replies with
  | nil => rfl
  | cons r rest ih =>
    cases h : stop r with
    | true => simp [splitAtStop_of_stop h, h]
    | false =>
      obtain ⟨reply, more, hne⟩ := List.exists_cons_of_ne_nil (splitAtStop_ne_nil stop rest)
      rw [hne] at ih
      simp only [splitAtStop_of_not_stop h, hne, List.find?_cons, h, ← ih]
      rfl

/-- The replies that are left are those behind it. -/
theorem splitAtStop_snd (stop : Reply → Bool) (replies : List Reply) :
    (splitAtStop stop replies).2 = replies.drop (splitAtStop stop replies).1.length := by
  induction replies with
  | nil => rfl
  | cons r rest ih =>
    cases h : stop r with
    | true => rw [splitAtStop_of_stop h]; rfl
    | false => rw [splitAtStop_of_not_stop h, List.length_cons, List.drop_succ_cons, ih]

theorem getElem?_splitAtStop {replies : List Reply} {i : Nat} {reply : Reply}
    (h : (splitAtStop stop replies).1[i]? = some reply) : reply = replies[i]?.getD {} := by
  induction replies generalizing i with
  | nil =>
    cases i with
    | zero => cases h; rfl
    | succ i => cases h
  | cons r rest ih =>
    cases hs : stop r with
    | true =>
      rw [splitAtStop_of_stop hs] at h
      cases i with
      | zero => cases h; rfl
      | succ i => cases h
    | false =>
      rw [splitAtStop_of_not_stop hs] at h
      cases i with
      | zero => cases h; rfl
      | succ i => exact ih h

/-! ## Exchanges -/

/-- Each request that is sent, with the reply to it. -/
def exchanges : Dialogue α → List Reply → List Exchange
  | done _, _ => []
  | send r next, replies => (r, replies.headD {}) :: (next (replies.headD {})).exchanges replies.tail
  | sendUntil r stop next, replies =>
    let (used, unused) := splitAtStop stop replies
    used.map (r, ·) ++ (next used).exchanges unused

theorem map_fst_exchanges (d : Dialogue α) (replies : List Reply) :
    (d.exchanges replies).map Prod.fst = (d.replay replies).sent := by
  induction d generalizing replies with
  | done a => rfl
  | send r next ih => simp only [exchanges, replay, List.map_cons, ih]
  | sendUntil r stop next ih =>
    simp only [exchanges, replay, List.map_append, List.map_map, ih]
    exact congrArg (· ++ _) (List.map_const' ..)

theorem snd_of_getElem?_exchanges {d : Dialogue α} {replies : List Reply} {i : Nat} {x : Exchange}
    (h : (d.exchanges replies)[i]? = some x) : x.2 = replies[i]?.getD {} := by
  induction d generalizing replies i with
  | done a => cases h
  | send r next ih =>
    cases i with
    | zero =>
      cases h
      cases replies <;> rfl
    | succ i =>
      rw [ih _ h]
      cases replies <;> rfl
  | sendUntil r stop next ih =>
    simp only [exchanges] at h
    rcases Nat.lt_or_ge i (splitAtStop stop replies).1.length with hlt | hge
    · rw [List.getElem?_append_left (by rwa [List.length_map]), List.getElem?_map] at h
      obtain ⟨reply, hreply, rfl⟩ := Option.map_eq_some_iff.1 h
      exact getElem?_splitAtStop hreply
    · rw [List.getElem?_append_right (by rwa [List.length_map]), List.length_map] at h
      rw [ih _ h, splitAtStop_snd, List.getElem?_drop, Nat.add_sub_cancel' hge]

theorem exchanges_bind (d : Dialogue α) (f : α → Dialogue β) (replies : List Reply) :
    (d.bind f).exchanges replies =
      d.exchanges replies ++ (f (d.replay replies).result).exchanges (d.replay replies).unused := by
  induction d generalizing replies with
  | done a => rfl
  | send r next ih => simp only [bind, exchanges, replay, ih, List.cons_append]
  | sendUntil r stop next ih => simp only [bind, exchanges, replay, ih, List.append_assoc]

theorem result_bind (d : Dialogue α) (f : α → Dialogue β) (replies : List Reply) :
    ((d.bind f).replay replies).result = ((f (d.replay replies).result).replay (d.replay replies).unused).result := by
  rw [replay_bind]

end Dialogue

/-! ## What a reply settles -/

namespace Reply

variable {reply : Reply} {e : DatabaseError}

theorem settles_of_refused (h : reply.accepted = .error e) : reply.settles = true := by
  cases hf : reply.failure with
  | none => simp [accepted, hf] at h
  | some code => simp [settles, endsCursor, hf]

theorem settles_of_accepted (h : reply.accepted = .ok ()) :
    reply.settles = (!reply.documents.isEmpty || !reply.more) := by
  cases hf : reply.failure with
  | none => simp [settles, endsCursor, hf, Bool.or_comm]
  | some code => simp [accepted, hf] at h

/-- An insert is sent again just because nothing was counted. -/
theorem inserted_of_not_endsInsert (h : reply.endsInsert = false) : reply.inserted = .ok 0 := by
  rw [endsInsert] at h
  split at h
  · rename_i n hn
    rw [hn]
    simpa using h
  · cases h

/-- What a reply says of the one document that was asked for. -/
def firstDocument (reply : Reply) : Except StoreError (Option Document) :=
  (reply.accepted.mapError .database).map fun _ => reply.documents.head?

end Reply

/-! ## Attempts as dialogues -/

namespace Attempt

variable {α β : Type}

theorem run_bind (x : Attempt α) (f : α → Attempt β) : (x >>= f).run = x.run.bind (ExceptT.bindCont f) := rfl

theorem bindCont_ok (f : α → Attempt β) (a : α) : ExceptT.bindCont f (.ok a) = (f a).run := rfl

theorem run_mk (d : Dialogue (Except StoreError α)) : (ExceptT.mk d : Attempt α).run = d := rfl

theorem run_lift (d : Dialogue α) : (ExceptT.lift d : Attempt α).run = d.bind fun a => .done (.ok a) := rfl

theorem run_ask (r : Request) : (ask r).run = .send r fun reply => .done (.ok reply) := rfl

theorem run_ofDatabase (r : Except DatabaseError α) : (ofDatabase r).run = .done (r.mapError .database) := rfl

theorem run_firstDocument (reply : Reply) :
    (do ofDatabase reply.accepted; return reply.documents.head? : Attempt (Option Document)).run =
      .done reply.firstDocument := by
  rw [run_bind, run_ofDatabase, Dialogue.bind, Reply.firstDocument]
  cases reply.accepted <;> rfl

/-- One document is asked for until a reply tells something. -/
theorem run_findOne (q : Query) (part : Option TransactionPart) :
    (findOne q part).run =
      .send ⟨.find q.one, part⟩ fun reply =>
        if reply.settles then .done reply.firstDocument
        else .sendUntil ⟨.getMore q.collection.name q.laterBatchSize, part.map fun _ => .later⟩ Reply.settles
          fun replies => .done (replies.getLastD {}).firstDocument := by
  rw [findOne, run_bind, run_ask, Dialogue.bind]
  refine congrArg (Dialogue.send _) (funext fun reply => ?_)
  rw [Dialogue.bind, bindCont_ok, run_bind, run_ofDatabase, Dialogue.bind]
  cases ha : reply.accepted with
  | error e =>
    rw [Reply.settles_of_refused ha, Reply.firstDocument, ha]
    rfl
  | ok _ =>
    rw [Reply.settles_of_accepted ha, Except.mapError_ok, bindCont_ok]
    split
    · rw [Reply.firstDocument, ha]
      rfl
    · refine congrArg (Dialogue.sendUntil _ _) (funext fun replies => ?_)
      exact run_firstDocument (replies.getLastD {})

end Attempt

end Chronicle.Database
