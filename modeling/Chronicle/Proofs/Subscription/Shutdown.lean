import Chronicle.Proofs.Subscription.Usage

/-!
# Shutting down is unsubscribing

A call to shut down and calls that unsubscribe its ids one after the other are the same to the registry and to the
stores, step by step (`Usage.Mirrors`). So for every run of the one there is a run of the others in which the workers
take the same steps and the ids get the same outcomes (`Usage.exists_unsubscriptions`).
-/

namespace Chronicle

/-- What calls to unsubscribe have got for answers. -/
def unsubscriptions (outcomes : List (String × Outcome)) : List Answer := outcomes.map fun e => .unsubscribe e.1 e.2

theorem unsubscriptions_concat (outcomes : List (String × Outcome)) (id : String) (outcome : Outcome) :
    unsubscriptions (outcomes ++ [(id, outcome)]) = unsubscriptions outcomes ++ [.unsubscribe id outcome] :=
  List.map_append

namespace Usage

variable {σ : Type} {stores : Stores σ} {codec : Codec} {answers : List Answer} {d d' : Usage σ} {move : Move σ}
  {m : List (Move σ)}

/-- On the left a registry is shut down; on the right its ids are unsubscribed, and have been as far as on the left. -/
inductive Mirrors (answers : List Answer) : Usage σ → Usage σ → Prop where
  | closing {s : σ} {r : Registry} {closed : List (String × Outcome)} {id : String} {rest : List String} :
      Mirrors answers ⟨s, r, answers, some (.shutdown (.closing closed id .entering rest))⟩
        ⟨s, r, answers ++ unsubscriptions closed, none⟩
  | leaving {s : σ} {r : Registry} {closed : List (String × Outcome)} {id : String} {k : Nat} {rest : List String} :
      Mirrors answers ⟨s, r, answers, some (.shutdown (.closing closed id (.joining k) rest))⟩
        ⟨s, r, answers ++ unsubscriptions closed, some (.unsubscribe id (.joining k))⟩
  | closed {s : σ} {r : Registry} {outcomes : List (String × Outcome)} :
      Mirrors answers ⟨s, r, answers ++ [.shutdown outcomes], none⟩ ⟨s, r, answers ++ unsubscriptions outcomes, none⟩

/-- A step that is not the caller's does not depend on the call. -/
theorem exists_step_of_not_isCall (hm : move.isCall = false) (stores : Stores σ) (codec : Codec) (s : σ)
    (r : Registry) :
    ∃ s' r', ∀ answers call, step stores codec ⟨s, r, answers, call⟩ move = ⟨s', r', answers, call⟩ := by
  cases move with
  | request | proceed => cases hm
  | poll k => exact ⟨s, r.update k (Worker.poll codec (stores.log s)), fun _ _ => rfl⟩
  | settle k verdict =>
    cases hk : r.workers[k]? with
    | none => exact ⟨s, r, fun _ _ => by simp only [step, hk]⟩
    | some w => exact ⟨_, _, fun _ _ => by simp only [step, hk]; rfl⟩
  | elapse s' => exact ⟨s', r, fun _ _ => rfl⟩

theorem mirrors_next (answers : List Answer) (s : σ) (r : Registry) (closed : List (String × Outcome))
    (rest : List String) :
    Mirrors answers
      { store := s, registry := r, answers := answers ++ (Call.shutdown (.next closed rest)).answer?.toList
        call :=
          if (Call.shutdown (.next closed rest)).answer?.isSome then none else some (.shutdown (.next closed rest)) }
      ⟨s, r, answers ++ unsubscriptions closed, none⟩ := by
  cases rest with
  | nil => exact .closed
  | cons id rest =>
    simp only [ShuttingDown.next, Call.answer?, Option.toList_none, List.append_nil]
    exact .closing

theorem proceed_ne_entering (id : String) (r : Registry) (stage : Unsubscribing) :
    (stage.proceed true id r).1 ≠ .entering := by
  cases stage with
  | entering =>
    simp only [Unsubscribing.proceed, if_true, Registry.release]
    cases r.registered.get? id with
    | none => simp
    | some k => simp
  | joining k =>
    simp only [Unsubscribing.proceed]
    cases r.outcome? k with
    | none => simp
    | some outcome => simp
  | returned outcome => simp [Unsubscribing.proceed]

/-- The call to shut down goes on as the call to unsubscribe does. -/
theorem mirrors_goOn (stores : Stores σ) (s : σ) (r : Registry) (answers : List Answer)
    (closed : List (String × Outcome)) (id : String) (stage : Unsubscribing) (rest : List String)
    (call call' : Option Call) :
    Mirrors answers (goOn stores (.shutdown (.closing closed id stage rest)) ⟨s, r, answers, call⟩)
      (goOn stores (.unsubscribe id stage) ⟨s, r, answers ++ unsubscriptions closed, call'⟩) := by
  have hne := proceed_ne_entering id r stage
  cases hs : stage.proceed true id r with
  | mk stage' r' =>
    simp only [goOn, Call.advance, ShuttingDown.proceed, hs]
    cases stage' with
    | entering => exact absurd (congrArg Prod.fst hs) hne
    | joining k =>
      simp only [Call.answer?, Option.toList_none, List.append_nil]
      exact .leaving
    | returned outcome =>
      have hnext := mirrors_next answers s r' (closed ++ [(id, outcome)]) rest
      rw [unsubscriptions_concat, ← List.append_assoc] at hnext
      exact hnext

/-- A step on the left is one on the right: where an id's turn comes on the left, a call is made on the right. -/
theorem Mirrors.step (h : Mirrors answers d d') (hm : ∀ q, move ≠ .request q) (stores : Stores σ) (codec : Codec) :
    ∃ move' : Move σ, [move'].filter (!·.isCall) = [move].filter (!·.isCall) ∧
      Mirrors answers (d.step stores codec move) (d'.step stores codec move') := by
  cases hcall : move.isCall with
  | false =>
    refine ⟨move, rfl, ?_⟩
    cases h with
    | @closing s r =>
      obtain ⟨s', r', hstep⟩ := exists_step_of_not_isCall hcall stores codec s r
      rw [hstep, hstep]
      exact .closing
    | @leaving s r =>
      obtain ⟨s', r', hstep⟩ := exists_step_of_not_isCall hcall stores codec s r
      rw [hstep, hstep]
      exact .leaving
    | @closed s r =>
      obtain ⟨s', r', hstep⟩ := exists_step_of_not_isCall hcall stores codec s r
      rw [hstep, hstep]
      exact .closed
  | true =>
    cases move with
    | request q => exact absurd rfl (hm q)
    | proceed =>
      cases h with
      | @closing s r closed id rest =>
        exact ⟨.request (.unsubscribe id), rfl, mirrors_goOn stores s r answers closed id .entering rest _ _⟩
      | @leaving s r closed id k rest =>
        exact ⟨.proceed, rfl, mirrors_goOn stores s r answers closed id (.joining k) rest _ _⟩
      | closed => exact ⟨.proceed, rfl, .closed⟩
    | _ => cases hcall

/-- A run on the left is one on the right, by induction on it. -/
theorem Mirrors.run (h : Mirrors answers d d') (hm : Uncalled m) (stores : Stores σ) (codec : Codec) :
    ∃ m' : List (Move σ), m'.filter (!·.isCall) = m.filter (!·.isCall) ∧
      Mirrors answers (run stores codec m d) (run stores codec m' d') := by
  induction m generalizing d d' with
  | nil => exact ⟨[], rfl, h⟩
  | cons move m ih =>
    obtain ⟨hmove, hm⟩ := uncalled_cons.1 hm
    obtain ⟨move', hfilter, hstep⟩ := h.step hmove stores codec
    obtain ⟨m', hfilter', hrun⟩ := ih hstep hm
    refine ⟨move' :: m', ?_, hrun⟩
    rw [← List.singleton_append, List.filter_append, hfilter, hfilter', ← List.filter_append, List.singleton_append]

/-- What a call to shut down has done once it is answered, calls to unsubscribe the ids do, with the same outcomes. -/
theorem exists_unsubscriptions {c : Usage σ} {outcomes : List (String × Outcome)} (hc : c.call = none)
    (hm : Uncalled m)
    (hanswers : (run stores codec (.request .shutdown :: m) c).answers = c.answers ++ [.shutdown outcomes]) :
    ∃ m' : List (Move σ), m'.filter (!·.isCall) = m.filter (!·.isCall) ∧
      run stores codec m' c =
        { run stores codec (.request .shutdown :: m) c with answers := c.answers ++ unsubscriptions outcomes } := by
  obtain ⟨s, r, answers, call⟩ := c
  obtain rfl : call = none := hc
  have hfirst : Mirrors answers (Usage.step stores codec ⟨s, r, answers, none⟩ (.request .shutdown))
      ⟨s, r, answers, none⟩ := by
    have hnext := mirrors_next answers s r [] r.ids
    rw [unsubscriptions, List.map_nil, List.append_nil] at hnext
    exact hnext
  obtain ⟨m', hfilter, hrun⟩ := hfirst.run hm stores codec
  refine ⟨m', hfilter, ?_⟩
  rw [run_cons] at hanswers ⊢
  generalize run stores codec m _ = d at hanswers hrun ⊢
  generalize run stores codec m' _ = d' at hrun ⊢
  cases hrun with
  | closing => simp at hanswers
  | leaving => simp at hanswers
  | closed =>
    obtain ⟨-, heq⟩ := List.append_inj' hanswers rfl
    cases heq
    rfl

end Usage

end Chronicle
