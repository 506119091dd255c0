import Chronicle.Proofs.Subscription.Usage

/-!
# How far a call has come

`Call.Underway r₀ r call` says what a call has done to a registry, and what it has found out, since it was made when
the registry was `r₀`. The call's own steps keep it, if the stores serve the call (`Call.underway_request`,
`Call.Underway.advance`), and so do the workers (`Call.Underway.advances`). Once the call is answered, it tells what
the answer says of the registry; in particular which ids are listed (`Call.Underway.lists`).
-/

namespace Chronicle

/-! ## What workers leave alone -/

namespace Registry

variable {r r' : Registry} {k : Nat}

theorem Advances.length_eq (h : r.Advances r') : r'.workers.length = r.workers.length := by
  have hnone (k : Nat) : r'.workers[k]? = none ↔ r.workers[k]? = none := by
    cases hk : r.workers[k]? with
    | none =>
      cases hk' : r'.workers[k]? with
      | none => simp
      | some w' =>
        obtain ⟨w, hw, -⟩ := h.exists_of_getElem? hk'
        cases hk.symm.trans hw
    | some w =>
      obtain ⟨w', hw', -⟩ := h.getElem? hk
      simp [hw']
  have hle := (hnone r.workers.length).2 (List.getElem?_eq_none (Nat.le_refl _))
  have hge := (hnone r'.workers.length).1 (List.getElem?_eq_none (Nat.le_refl _))
  exact Nat.le_antisymm (List.getElem?_eq_none_iff.1 hle) (List.getElem?_eq_none_iff.1 hge)

/-- A worker that has finished keeps its outcome. -/
theorem Advances.outcome? {outcome : Outcome} (h : r.Advances r') (ho : r.outcome? k = some outcome) :
    r'.outcome? k = some outcome := by
  obtain ⟨w, hw, how⟩ := Option.bind_eq_some_iff.1 ho
  obtain ⟨w', hw', ha⟩ := h.getElem? hw
  obtain rfl := ha.finished (Worker.isFinished_iff.2 ⟨outcome, how⟩)
  exact Option.bind_eq_some_iff.2 ⟨w', hw', how⟩

theorem pairwise_ids (r : Registry) : r.ids.Pairwise (· < ·) := List.pairwise_map.2 r.registered.sorted

theorem nodup_ids (r : Registry) : r.ids.Nodup :=
  r.pairwise_ids.imp fun {a b} (h : a < b) (heq : a = b) => String.lt_irrefl b (heq ▸ h)

end Registry

theorem NameMap.insert_erase {α : Type} (m : NameMap α) (name : String) (a : α) :
    (m.erase name).insert name a = m.insert name a := by
  refine ext_get? fun other => ?_
  rw [get?_insert, get?_insert, get?_erase]
  split <;> rfl

/-! ## Calls on their way -/

/-- Some ids are closed, with the outcomes of their workers; some are on their way out, and the rest is still there. -/
structure Registry.Closing (r₀ r : Registry) (closed : List (String × Outcome)) (leaving rest : List String) :
    Prop where
  ids : closed.map Prod.fst ++ leaving ++ rest = r₀.ids
  outcomes : ∀ e ∈ closed, ∃ k, r₀.registered.get? e.1 = some k ∧ r.outcome? k = some e.2
  registered : ∀ name, r.registered.get? name = if name ∈ rest then r₀.registered.get? name else none

namespace Registry

variable {r₀ r r' : Registry} {closed : List (String × Outcome)} {leaving rest : List String}

theorem Closing.advances (h : r₀.Closing r closed leaving rest) (ha : r.Advances r') :
    r₀.Closing r' closed leaving rest := by
  refine ⟨h.ids, fun e he => ?_, fun name => by rw [ha.registered, h.registered]⟩
  obtain ⟨k, hk, ho⟩ := h.outcomes e he
  exact ⟨k, hk, ha.outcome? ho⟩

/-- The next id is taken out: it is registered as when the call was made, and not among those after it. -/
theorem Closing.release {id : String} (h : r₀.Closing r closed [] (id :: rest)) :
    ∃ k, r₀.registered.get? id = some k ∧ r.release id = (.ok k, (r.forget id).update k .stop) ∧
      r₀.Closing ((r.forget id).update k .stop) closed [id] rest := by
  have hids : closed.map Prod.fst ++ id :: rest = r₀.ids := by simpa using h.ids
  have hmem : id ∈ r₀.ids := by simp [← hids]
  have hrest : id ∉ rest := by
    have hnodup := r₀.nodup_ids
    rw [← hids] at hnodup
    exact (List.nodup_cons.1 (List.nodup_append.1 hnodup).2.1).1
  obtain ⟨k, hk⟩ := Option.ne_none_iff_exists'.1 (mem_ids_iff.1 hmem)
  have hk' : r.registered.get? id = some k := by rw [h.registered, if_pos List.mem_cons_self, hk]
  have hrelease : r.release id = (.ok k, (r.forget id).update k .stop) := by rw [release_eq, hk']
  have hsimilar : r.Similar ((r.forget id).update k .stop) := by simpa [hrelease] using similar_release id r
  refine ⟨k, hk, hrelease, by simpa using hids, fun e he => ?_, fun name => ?_⟩
  · obtain ⟨j, hj, ho⟩ := h.outcomes e he
    exact ⟨j, hj, (hsimilar.outcome?_eq j).trans ho⟩
  · show (r.registered.erase id).get? name = _
    rw [NameMap.get?_erase, h.registered]
    grind

theorem Closing.close {id : String} {k : Nat} {outcome : Outcome} (h : r₀.Closing r closed [id] rest)
    (hk : r₀.registered.get? id = some k) (ho : r.outcome? k = some outcome) :
    r₀.Closing r (closed ++ [(id, outcome)]) [] rest := by
  refine ⟨by simpa using h.ids, fun e he => ?_, h.registered⟩
  rcases List.mem_append.1 he with he | he
  · exact h.outcomes e he
  · obtain rfl := List.mem_singleton.1 he
    exact ⟨k, hk, ho⟩

end Registry

namespace Call

/-- What a call has done since the registry was `r₀`, now that it is `r`. -/
inductive Underway (r₀ r : Registry) : Call → Prop where
  | refused {id : String} {start : StartAt} (hrun : r₀.isRunning id = true) (hreg : r.registered = r₀.registered)
      (hlen : r.workers.length = r₀.workers.length) :
      Underway r₀ r (.subscribe id start (.returned (.error (.alreadySubscribed id))))
  | subscribing {id : String} {start : StartAt} {stage : Subscribing}
      (hheld : (Call.subscribe id start stage).held = some id) (hrun : r₀.isRunning id = false)
      (hreg : r.registered = r₀.registered.erase id) (hlen : r.workers.length = r₀.workers.length) :
      Underway r₀ r (.subscribe id start stage)
  | subscribed {id : String} {start : StartAt} (hrun : r₀.isRunning id = false)
      (hreg : r.registered = r₀.registered.insert id r₀.workers.length)
      (hlen : r.workers.length = r₀.workers.length + 1) : Underway r₀ r (.subscribe id start (.returned (.ok ())))
  | unknown {id : String} (hk : r₀.registered.get? id = none) (hreg : r.registered = r₀.registered) :
      Underway r₀ r (.unsubscribe id (.returned (.error (.notSubscribed id))))
  | joining {id : String} {k : Nat} (hk : r₀.registered.get? id = some k)
      (hreg : r.registered = r₀.registered.erase id) :
      Underway r₀ r (.unsubscribe id (.joining k))
  | unsubscribed {id : String} {k : Nat} {outcome : Outcome} (hk : r₀.registered.get? id = some k)
      (hreg : r.registered = r₀.registered.erase id) (ho : r.outcome? k = some outcome) :
      Underway r₀ r (.unsubscribe id (.returned outcome))
  | closing {closed : List (String × Outcome)} {id : String} {rest : List String}
      (h : r₀.Closing r closed [] (id :: rest)) :
      Underway r₀ r (.shutdown (.closing closed id .entering rest))
  | leaving {closed : List (String × Outcome)} {id : String} {k : Nat} {rest : List String}
      (hk : r₀.registered.get? id = some k) (h : r₀.Closing r closed [id] rest) :
      Underway r₀ r (.shutdown (.closing closed id (.joining k) rest))
  | closed {outcomes : List (String × Outcome)} (h : r₀.Closing r outcomes [] []) :
      Underway r₀ r (.shutdown (.returned outcomes))

/-- The stores give a call what it asks them for next. -/
def served {σ : Type} (stores : Stores σ) (s : σ) : Call → Bool
  | .subscribe id _ .loading => (stores.load id s).1.isOk
  | .subscribe _ start (.opening saved) => (stores.openFeed (start.position saved) s).isOk
  | _ => true

variable {σ : Type} {r₀ r r' : Registry} {call : Call} {closed : List (String × Outcome)} {rest : List String}

theorem underway_next (h : r₀.Closing r closed [] rest) : Underway r₀ r (.shutdown (.next closed rest)) := by
  cases rest with
  | nil => exact .closed h
  | cons id rest => exact .closing h

/-! ### What keeps it -/

/-- Workers go on. -/
theorem Underway.advances (h : Underway r₀ r call) (ha : r.Advances r') : Underway r₀ r' call := by
  cases h with
  | refused hrun hreg hlen => exact .refused hrun (ha.registered.trans hreg) (ha.length_eq.trans hlen)
  | subscribing hheld hrun hreg hlen =>
    exact .subscribing hheld hrun (ha.registered.trans hreg) (ha.length_eq.trans hlen)
  | subscribed hrun hreg hlen => exact .subscribed hrun (ha.registered.trans hreg) (ha.length_eq.trans hlen)
  | unknown hk hreg => exact .unknown hk (ha.registered.trans hreg)
  | joining hk hreg => exact .joining hk (ha.registered.trans hreg)
  | unsubscribed hk hreg ho => exact .unsubscribed hk (ha.registered.trans hreg) (ha.outcome? ho)
  | closing h => exact .closing (h.advances ha)
  | leaving hk h => exact .leaving hk (h.advances ha)
  | closed h => exact .closed (h.advances ha)

/-- A call is made, and goes on to its first wait. -/
theorem underway_request (stores : Stores σ) (s : σ) (r : Registry) (q : Request) :
    Underway r (q.call.advance stores s r).2.2 (q.call.advance stores s r).1 := by
  cases q with
  | subscribe id start =>
    cases hrun : r.isRunning id with
    | true =>
      simp only [Request.call, advance, Subscribing.advance, hrun, if_true]
      exact .refused hrun rfl rfl
    | false =>
      simp only [Request.call, advance, Subscribing.advance, hrun, Bool.false_eq_true, if_false]
      exact .subscribing rfl hrun rfl rfl
  | unsubscribe id =>
    simp only [Request.call, advance, Unsubscribing.proceed, if_true, Registry.release]
    cases hk : r.registered.get? id with
    | none => exact .unknown hk rfl
    | some k => exact .joining hk rfl
  | shutdown =>
    refine underway_next ⟨rfl, fun e he => absurd he List.not_mem_nil, fun name => ?_⟩
    split
    · rfl
    · rename_i hname
      exact not_not.1 (mt Registry.mem_ids_iff.2 hname)

/-- A call that the stores serve goes on. -/
theorem Underway.advance {stores : Stores σ} {s : σ} (h : Underway r₀ r call) (ha : call.answer? = none)
    (hserved : call.served stores s = true) :
    Underway r₀ (call.advance stores s r).2.2 (call.advance stores s r).1 := by
  cases h with
  | @subscribing id start stage hheld hrun hreg hlen =>
    cases stage with
    | clearing => exact .subscribing rfl hrun hreg hlen
    | loading =>
      cases hl : stores.load id s with
      | mk loaded s' =>
        cases loaded with
        | error e => simp [served, hl, Except.isOk, Except.toBool] at hserved
        | ok saved =>
          simp only [Call.advance, Subscribing.advance, hl]
          exact .subscribing rfl hrun hreg hlen
    | opening saved =>
      cases hf : stores.openFeed (start.position saved) s with
      | error e => simp [served, hf, Except.isOk, Except.toBool] at hserved
      | ok feed =>
        simp only [Call.advance, Subscribing.advance, hf]
        refine .subscribed hrun ?_ (by simp [Registry.spawn, hlen])
        simp only [Registry.spawn, hreg, hlen, NameMap.insert_erase]
    | _ => cases hheld
  | @joining id k hk hreg =>
    cases ho : r.outcome? k with
    | none =>
      simp only [Call.advance, Unsubscribing.proceed, ho]
      exact .joining hk hreg
    | some outcome =>
      simp only [Call.advance, Unsubscribing.proceed, ho]
      exact .unsubscribed hk hreg ho
  | @closing closed id rest h =>
    obtain ⟨k, hk, hrelease, hclosing⟩ := h.release
    simp only [Call.advance, ShuttingDown.proceed, Unsubscribing.proceed, if_true, hrelease]
    exact .leaving hk hclosing
  | @leaving closed id k rest hk h =>
    cases ho : r.outcome? k with
    | none =>
      simp only [Call.advance, ShuttingDown.proceed, Unsubscribing.proceed, ho]
      exact .leaving hk h
    | some outcome =>
      simp only [Call.advance, ShuttingDown.proceed, Unsubscribing.proceed, ho]
      exact underway_next (h.close hk ho)
  | _ => cases ha

end Call

/-! ## What the answers say of the ids -/

/-- An id is taken out. -/
def Answer.Removes (id : String) : Answer → Prop
  | .subscribe .. => False
  | .unsubscribe other _ => other = id
  | .shutdown outcomes => id ∈ outcomes.map Prod.fst

/-- An id was subscribed, and has not been taken out since. -/
def Enrolled (answers : List Answer) (id : String) : Prop :=
  ∃ before after, answers = before ++ .subscribe id (.ok ()) :: after ∧ ∀ a ∈ after, ¬a.Removes id

theorem enrolled_concat {answers : List Answer} {a : Answer} {id : String} :
    Enrolled (answers ++ [a]) id ↔ a = .subscribe id (.ok ()) ∨ Enrolled answers id ∧ ¬a.Removes id := by
  constructor
  · rintro ⟨before, after, heq, hafter⟩
    obtain rfl | ⟨init, b, rfl⟩ := List.eq_nil_or_concat after
    · exact .inl (List.singleton_inj.1 (List.append_inj' heq rfl).2)
    · have heq' : answers ++ [a] = (before ++ .subscribe id (.ok ()) :: init) ++ [b] := heq.trans (by simp)
      obtain ⟨rfl, hab⟩ := List.append_inj' heq' rfl
      obtain rfl := List.singleton_inj.1 hab
      exact .inr ⟨⟨before, init, rfl, fun x hx => hafter x (by simp [hx])⟩, hafter a (by simp)⟩
  · rintro (rfl | ⟨⟨before, after, rfl, hafter⟩, ha⟩)
    · exact ⟨answers, [], rfl, by simp⟩
    · refine ⟨before, after ++ [a], by simp, fun b hb => ?_⟩
      rcases List.mem_append.1 hb with hb | hb
      · exact hafter b hb
      · rwa [List.mem_singleton.1 hb]

/-- The registry lists just the ids that were subscribed and have not been taken out since. -/
def Registry.Lists (r : Registry) (answers : List Answer) : Prop := ∀ id, id ∈ r.ids ↔ Enrolled answers id

theorem Call.Underway.lists {r₀ r : Registry} {call : Call} {answers : List Answer} {a : Answer}
    (h : call.Underway r₀ r) (ha : call.answer? = some a) (hl : r₀.Lists answers) : r.Lists (answers ++ [a]) := by
  intro name
  rw [enrolled_concat, ← hl name, Registry.mem_ids_iff, Registry.mem_ids_iff]
  cases h with
  | refused hrun hreg =>
    cases ha
    simp [Answer.Removes, hreg]
  | subscribing hheld =>
    rename_i stage _ _ _
    cases stage with
    | returned outcome => cases hheld
    | _ => cases ha
  | subscribed hrun hreg =>
    cases ha
    rw [hreg, NameMap.get?_insert]
    simp only [Answer.Removes, Answer.subscribe.injEq, and_true, not_false_eq_true]
    split <;> simp_all
  | unknown hk hreg =>
    cases ha
    simp only [Answer.Removes, hreg, reduceCtorEq, false_or]
    refine ⟨fun h => ⟨h, ?_⟩, fun h => h.1⟩
    rintro rfl
    exact h hk
  | unsubscribed hk hreg =>
    cases ha
    rw [hreg, NameMap.get?_erase]
    simp only [Answer.Removes, reduceCtorEq, false_or]
    split <;> simp_all
  | closed h =>
    cases ha
    have hids : ∀ id, id ∈ List.map Prod.fst _ ↔ r₀.registered.get? id ≠ none := fun id => by
      rw [← Registry.mem_ids_iff, ← h.ids, List.append_nil, List.append_nil]
    simp only [Answer.Removes, h.registered, List.not_mem_nil, if_false, ne_eq, not_true, reduceCtorEq, false_or, hids,
      not_not, false_iff, not_and]
    exact fun hne => hne
  | _ => cases ha

end Chronicle
