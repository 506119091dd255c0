import Chronicle.Proofs.Fields
import Chronicle.Proofs.Json.ReadBack
import Chronicle.Proofs.Json.Spelling

/-!
# The reader accepts just the grammar

A list of symbols is read as a value just if its symbols are the characters of a JSON text that stands for the value and
nests no deeper than the reader's levels (`readWithin_eq_ok_iff`).

The induction is on the levels. What it carries is that a reader of values and a grammar of values agree (`Agrees`):
what is read begins with blanks and a text of the grammar, and a text of the grammar is read in front of anything that
does not go on with a number. Items and members are taken apart at the commas; a text of an item or a member takes up
the blanks behind it, which the reader leaves to its next round (`Leads`).
-/

namespace Chronicle.Json

open Text (Symbol symbolsOf symbolsOf_cons symbolsOf_append)

/-! ## Blanks -/

section Blanks

variable {b b' : List Char} {s rest : List Symbol}

theorem IsBlanks.append (h : IsBlanks b) (h' : IsBlanks b') : IsBlanks (b ++ b') :=
  fun c hc => (List.mem_append.1 hc).elim (h c) (h' c)

theorem isBlank_iff {c : Char} : isBlank (some c) = true ↔ c = ' ' ∨ c = '\t' ∨ c = '\n' ∨ c = '\r' := by
  simp [isBlank, or_assoc]

theorem skipBlanks_append (h : IsBlanks b) (s : List Symbol) : skipBlanks (symbolsOf b ++ s) = skipBlanks s := by
  induction b with
  | nil => rfl
  | cons c b ih =>
    obtain ⟨hc, hb⟩ := List.forall_mem_cons.1 h
    rw [symbolsOf_cons, List.cons_append, skipBlanks, List.dropWhile_cons_of_pos (isBlank_iff.2 hc)]
    exact ih hb

/-- The symbols that are skipped are blanks. -/
theorem exists_blanks (s : List Symbol) : ∃ b, IsBlanks b ∧ s = symbolsOf b ++ skipBlanks s := by
  induction s with
  | nil => exact ⟨[], isBlanks_nil, rfl⟩
  | cons x s ih =>
    rw [skipBlanks]
    cases hx : isBlank x with
    | false =>
      refine ⟨[], isBlanks_nil, ?_⟩
      rw [List.dropWhile_cons_of_neg (by simp [hx])]
      rfl
    | true =>
      obtain ⟨b, hb, hs⟩ := ih
      cases x with
      | none => cases hx
      | some c =>
        refine ⟨c :: b, List.forall_mem_cons.2 ⟨isBlank_iff.1 hx, hb⟩, ?_⟩
        rw [List.dropWhile_cons_of_pos hx, symbolsOf_cons, List.cons_append]
        exact congrArg (some c :: ·) hs

/-- Blanks do not go on with a number. -/
theorem NumberEnds.blanks (h : IsBlanks b) (hr : NumberEnds rest) : NumberEnds (symbolsOf b ++ rest) := by
  cases b with
  | nil => exact hr
  | cons c b =>
    intro d tail hd
    cases hd
    rcases h c List.mem_cons_self with rfl | rfl | rfl | rfl <;> decide

end Blanks

/-! ## Items and members -/

/-- The symbols begin with blanks and a text for a value, and the rest is left. -/
def Begins (P : List Char → Json → Prop) (s : List Symbol) (v : Json) (rest : List Symbol) : Prop :=
  ∃ b t, IsBlanks b ∧ P t v ∧ s = symbolsOf b ++ (symbolsOf t ++ rest)

theorem Begins.blanks {P : List Char → Json → Prop} {s rest : List Symbol} {v : Json} {b : List Char}
    (h : Begins P s v rest) (hb : IsBlanks b) : Begins P (symbolsOf b ++ s) v rest := by
  obtain ⟨b', t, hb', ht, rfl⟩ := h
  refine ⟨b ++ b', t, hb.append hb', ht, ?_⟩
  rw [symbolsOf_append, List.append_assoc]

/-- A reader of values, with fuel for texts up to a length, and a grammar agree. -/
structure Agrees (fuel : Nat) (item : Reading Json) (P : List Char → Json → Prop) : Prop where
  sound : ∀ {s v rest}, item s = .ok (v, rest) → Begins P s v rest
  complete : ∀ {b t v rest}, IsBlanks b → P t v → t.length ≤ fuel → NumberEnds rest →
    item (symbolsOf b ++ (symbolsOf t ++ rest)) = .ok (v, rest)
  opens : ∀ {t v}, P t v → Opens t

section Containers

variable {α : Type} {Q : List Char → α → Prop} {P : List Char → Json → Prop} {item : Reading Json} {fuel n : Nat}
  {s s' rest tail : List Symbol} {x : α} {xs : List α} {v : Json} {vs : List Json} {m : String × Json}
  {ms : List (String × Json)} {b t : List Char} {close : Char} {first : Bool}

/-- What is read from the front of the symbols is, with the blanks behind it, a text of the grammar. -/
def Leads (Q : List Char → α → Prop) (s : List Symbol) (x : α) (rest : List Symbol) : Prop :=
  ∀ b tail, IsBlanks b → rest = symbolsOf b ++ tail → ∃ t, Q t x ∧ s = symbolsOf t ++ tail

/-- The symbols behind an item or a member: the closing character, or a comma and texts of others. -/
def Follows (Q : List Char → α → Prop) (close : Char) (s : List Symbol) (xs : List α) (rest : List Symbol) : Prop :=
  ∃ b, IsBlanks b ∧ ((xs = [] ∧ s = symbolsOf b ++ some close :: rest) ∨
    ∃ t, Separated Q t xs ∧ s = symbolsOf b ++ some ',' :: (symbolsOf t ++ some close :: rest))

/-- The symbols behind the opening character: blanks and the closing character, or texts. -/
def Fills (Q : List Char → α → Prop) (close : Char) (s : List Symbol) (xs : List α) (rest : List Symbol) : Prop :=
  (xs = [] ∧ ∃ b, IsBlanks b ∧ s = symbolsOf b ++ some close :: rest) ∨
    ∃ t, Separated Q t xs ∧ s = symbolsOf t ++ some close :: rest

theorem Leads.separated (h : Leads Q s x s') (hf : Follows Q close s' xs rest) :
    ∃ t, Separated Q t (x :: xs) ∧ s = symbolsOf t ++ some close :: rest := by
  obtain ⟨b, hb, ⟨rfl, hs'⟩ | ⟨t', ht', hs'⟩⟩ := hf
  · obtain ⟨t, ht, rfl⟩ := h b _ hb hs'
    exact ⟨t, .one ht, rfl⟩
  · obtain ⟨t, ht, rfl⟩ := h b _ hb hs'
    refine ⟨t ++ ',' :: t', .more ht ht', ?_⟩
    rw [symbolsOf_append, symbolsOf_cons, List.append_assoc, List.cons_append]

theorem Begins.leads (h : Begins P s v s') : Leads (Around P) s v s' := by
  rintro b tail hb rfl
  obtain ⟨b', t, hb', ht, rfl⟩ := h
  refine ⟨_, .mk hb' ht hb, ?_⟩
  simp only [symbolsOf_append, List.append_assoc]

/-! ### What was read -/

theorem readItems_follows (h : Agrees fuel item P) (hr : readItems item n false s = .ok (vs, rest)) :
    Follows (Around P) ']' s vs rest := by
  induction n generalizing s vs rest with
  | zero => cases hr
  | succ n ih =>
    obtain ⟨b, hb, hs⟩ := exists_blanks s
    refine ⟨b, hb, ?_⟩
    rw [readItems] at hr
    rw [hs]
    split at hr
    · cases hr
    · rename_i c s₁ hs₁
      rw [hs₁]
      split at hr
      · rename_i hc
        cases hr
        exact .inl ⟨rfl, by rw [hc]⟩
      · rw [if_neg Bool.false_ne_true] at hr
        split at hr
        · rename_i hc
          split at hr
          · cases hr
          · obtain ⟨⟨v, s₂⟩, hv, hr⟩ := Except.bind_eq_ok_iff.1 hr
            obtain ⟨⟨vs', rest'⟩, hvs, hr⟩ := Except.bind_eq_ok_iff.1 hr
            cases hr
            obtain ⟨t, ht, rfl⟩ := (h.sound hv).leads.separated (ih hvs)
            exact .inr ⟨t, ht, by rw [hc]⟩
        · cases hr

theorem readItems_fills (h : Agrees fuel item P) (hr : readItems item n true s = .ok (vs, rest)) :
    Fills (Around P) ']' s vs rest := by
  cases n with
  | zero => cases hr
  | succ n =>
    obtain ⟨b, hb, hs⟩ := exists_blanks s
    rw [readItems] at hr
    split at hr
    · cases hr
    · rename_i c s₁ hs₁
      rw [hs₁] at hs
      split at hr
      · rename_i hc
        cases hr
        exact .inl ⟨rfl, b, hb, by rw [hs, hc]⟩
      · rw [if_pos rfl] at hr
        obtain ⟨⟨v, s₂⟩, hv, hr⟩ := Except.bind_eq_ok_iff.1 hr
        obtain ⟨⟨vs', rest'⟩, hvs, hr⟩ := Except.bind_eq_ok_iff.1 hr
        cases hr
        right
        rw [hs]
        exact ((h.sound hv).blanks hb).leads.separated (readItems_follows h hvs)

theorem readMember_leads (h : Agrees fuel item P) (hb : IsBlanks b) (hr : readMember item s = .ok (m, rest)) :
    Leads (MemberText .standard P) (symbolsOf b ++ s) m rest := by
  unfold readMember at hr
  split at hr
  · rename_i s₁
    obtain ⟨⟨name, s₂⟩, hname, hr⟩ := Except.bind_eq_ok_iff.1 hr
    obtain ⟨tname, us, cs, rfl, htext, hspell, rfl⟩ := readString_eq_ok_iff.1 hname
    obtain ⟨gap, hgap, hs₂⟩ := exists_blanks s₂
    dsimp only at hr
    split at hr
    · cases hr
    · rename_i c s₃ hs₃
      split at hr
      · rename_i hc
        obtain ⟨⟨v, s₄⟩, hv, hr⟩ := Except.bind_eq_ok_iff.1 hr
        cases hr
        intro b' tail hb' hrest
        obtain ⟨t, ht, rfl⟩ := (h.sound hv).leads b' tail hb' hrest
        refine ⟨_, .mk hb htext hspell hgap ht, ?_⟩
        rw [hs₂, hs₃, hc]
        simp [symbolsOf]
      · cases hr
  · cases hr

theorem readMembers_follows (h : Agrees fuel item P) (hr : readMembers item n false s = .ok (ms, rest)) :
    Follows (MemberText .standard P) '}' s ms rest := by
  induction n generalizing s ms rest with
  | zero => cases hr
  | succ n ih =>
    obtain ⟨b, hb, hs⟩ := exists_blanks s
    refine ⟨b, hb, ?_⟩
    rw [readMembers] at hr
    rw [hs]
    split at hr
    · cases hr
    · rename_i c s₁ hs₁
      rw [hs₁]
      split at hr
      · rename_i hc
        cases hr
        exact .inl ⟨rfl, by rw [hc]⟩
      · rw [if_neg Bool.false_ne_true] at hr
        split at hr
        · rename_i hc
          obtain ⟨b', hb', hs₁'⟩ := exists_blanks s₁
          split at hr
          · cases hr
          · rename_i d s₂ hs₂
            split at hr
            · cases hr
            · obtain ⟨⟨m, s₃⟩, hm, hr⟩ := Except.bind_eq_ok_iff.1 hr
              obtain ⟨⟨ms', rest'⟩, hms, hr⟩ := Except.bind_eq_ok_iff.1 hr
              cases hr
              rw [← hs₂] at hm
              obtain ⟨t, ht, hs₂'⟩ := (readMember_leads h hb' hm).separated (ih hms)
              exact .inr ⟨t, ht, by rw [hc, hs₁', hs₂']⟩
        · cases hr

theorem readMembers_fills (h : Agrees fuel item P) (hr : readMembers item n true s = .ok (ms, rest)) :
    Fills (MemberText .standard P) '}' s ms rest := by
  cases n with
  | zero => cases hr
  | succ n =>
    obtain ⟨b, hb, hs⟩ := exists_blanks s
    rw [readMembers] at hr
    split at hr
    · cases hr
    · rename_i c s₁ hs₁
      rw [hs₁] at hs
      split at hr
      · rename_i hc
        cases hr
        exact .inl ⟨rfl, b, hb, by rw [hs, hc]⟩
      · rw [if_pos rfl] at hr
        obtain ⟨⟨m, s₂⟩, hm, hr⟩ := Except.bind_eq_ok_iff.1 hr
        obtain ⟨⟨ms', rest'⟩, hms, hr⟩ := Except.bind_eq_ok_iff.1 hr
        cases hr
        right
        rw [hs]
        exact (readMember_leads h hb hm).separated (readMembers_follows h hms)

/-! ### What the grammar allows -/

theorem skipBlanks_opens (hb : IsBlanks b) (ho : Opens t) (s : List Symbol) :
    skipBlanks (symbolsOf b ++ (symbolsOf t ++ s)) = symbolsOf t ++ s := by
  rw [skipBlanks_append hb, skipBlanks_of_opens ho]

/-- Blanks, and then a comma or a closing character. -/
theorem NumberEnds.blanks_cons {c : Char} (hb : IsBlanks b) (hc : c = ',' ∨ c = ']' ∨ c = '}') (s : List Symbol) :
    NumberEnds (symbolsOf b ++ some c :: s) := (NumberEnds.cons s hc).blanks hb

/-- The closing bracket is read. -/
theorem readItems_close (hb : IsBlanks b) (first : Bool) (rest : List Symbol) :
    readItems item (n + 1) first (symbolsOf b ++ some ']' :: rest) = .ok ([], rest) := by
  rw [readItems, skipBlanks_append hb, skipBlanks_cons _ (by decide)]
  rfl

theorem readMembers_close (hb : IsBlanks b) (first : Bool) (rest : List Symbol) :
    readMembers item (n + 1) first (symbolsOf b ++ some '}' :: rest) = .ok ([], rest) := by
  rw [readMembers, skipBlanks_append hb, skipBlanks_cons _ (by decide)]
  rfl

/-- An item is read, and the blanks behind it are left to the next round. -/
theorem readItems_around (h : Agrees fuel item P) (ht : Around P t v) (hf : t.length ≤ fuel) {c : Char}
    (hc : c = ',' ∨ c = ']' ∨ c = '}') (s : List Symbol) :
    ∃ b', IsBlanks b' ∧ ∀ n vs rest, readItems item n false (symbolsOf b' ++ some c :: s) = .ok (vs, rest) →
      readItems item (n + 1) true (symbolsOf t ++ some c :: s) = .ok (v :: vs, rest) ∧
        ∀ b, IsBlanks b →
          readItems item (n + 1) false (symbolsOf b ++ some ',' :: (symbolsOf t ++ some c :: s)) =
            .ok (v :: vs, rest) := by
  cases ht with
  | @mk before t after _ hb ht ha =>
    refine ⟨after, ha, fun n vs rest hr => ?_⟩
    have ho := h.opens ht
    have hlen : t.length ≤ fuel := by
      simp only [List.length_append] at hf
      omega
    have hends := NumberEnds.blanks_cons ha hc s
    have hs : symbolsOf (before ++ (t ++ after)) ++ some c :: s =
        symbolsOf before ++ (symbolsOf t ++ (symbolsOf after ++ some c :: s)) := by
      simp only [symbolsOf_append, List.append_assoc]
    obtain ⟨d, tail, hd, -, hclose, -⟩ := id ho
    have hhead : symbolsOf t ++ (symbolsOf after ++ some c :: s) =
        some d :: (symbolsOf tail ++ (symbolsOf after ++ some c :: s)) := by
      rw [hd]
      rfl
    rw [hs]
    constructor
    · have hv := h.complete isBlanks_nil ht hlen hends
      rw [readItems, skipBlanks_opens hb ho, hhead]
      dsimp only
      rw [if_neg (by simpa using hclose), if_pos rfl, ← hhead]
      exact Except.bind_eq_ok_iff.2 ⟨_, hv, Except.bind_eq_ok_iff.2 ⟨_, hr, rfl⟩⟩
    · intro b hb'
      have hv := h.complete hb ht hlen hends
      have hmore : ¬(skipBlanks (symbolsOf before ++ (symbolsOf t ++ (symbolsOf after ++ some c :: s)))).head? =
          some (some ']') := by
        rw [skipBlanks_opens hb ho, hhead]
        simpa using hclose
      rw [readItems, skipBlanks_append hb', skipBlanks_cons _ (by decide)]
      dsimp only
      rw [if_neg (by decide), if_neg Bool.false_ne_true, if_pos rfl, if_neg hmore]
      exact Except.bind_eq_ok_iff.2 ⟨_, hv, Except.bind_eq_ok_iff.2 ⟨_, hr, rfl⟩⟩

theorem readItems_complete (h : Agrees fuel item P) (ht : Separated (Around P) t vs) (hf : t.length ≤ fuel)
    (hn : vs.length < n) (rest : List Symbol) :
    readItems item n true (symbolsOf t ++ some ']' :: rest) = .ok (vs, rest) ∧
      ∀ b, IsBlanks b →
        readItems item n false (symbolsOf b ++ some ',' :: (symbolsOf t ++ some ']' :: rest)) = .ok (vs, rest) := by
  obtain ⟨n, rfl⟩ := Nat.exists_eq_add_one.2 (Nat.zero_lt_of_lt hn)
  induction ht generalizing n with
  | one ht =>
    obtain ⟨b', hb', hread⟩ := readItems_around h ht hf (.inr (.inl rfl)) rest
    obtain ⟨n, rfl⟩ := Nat.exists_eq_add_one.2 (Nat.zero_lt_of_lt (Nat.lt_of_succ_lt_succ hn))
    exact hread _ _ _ (readItems_close hb' false rest)
  | @more t t' v vs ht _ ih =>
    simp only [List.length_append, List.length_cons] at hf hn
    obtain ⟨n, rfl⟩ := Nat.exists_eq_add_one.2 (Nat.zero_lt_of_lt (Nat.lt_of_succ_lt_succ hn))
    obtain ⟨b', hb', hread⟩ := readItems_around h ht (by omega) (.inl rfl) (symbolsOf t' ++ some ']' :: rest)
    simp only [symbolsOf_append, symbolsOf_cons, List.append_assoc, List.cons_append]
    exact hread _ _ _ ((ih (by omega) n (by omega)).2 b' hb')

/-- A member is read, and the blanks behind it are left to the next round. -/
theorem readMember_complete (h : Agrees fuel item P) (ht : MemberText .standard P t m) (hf : t.length ≤ fuel) {c : Char}
    (hc : c = ',' ∨ c = ']' ∨ c = '}') (s : List Symbol) :
    ∃ b b' s', IsBlanks b ∧ IsBlanks b' ∧ symbolsOf t ++ some c :: s = symbolsOf b ++ some '"' :: s' ∧
      readMember item (some '"' :: s') = .ok (m, symbolsOf b' ++ some c :: s) := by
  cases ht with
  | @mk before name gap t cs us v hb hn hs hg hv =>
    cases hv with
    | @mk before' t after _ hb' ht ha =>
      have hlen : t.length ≤ fuel := by
        simp only [List.length_append, List.length_cons] at hf
        omega
      have hv := h.complete hb' ht hlen (NumberEnds.blanks_cons ha hc s)
      have hstring (s : List Symbol) : readString (symbolsOf name ++ some '"' :: s) = .ok (String.ofList cs, s) :=
        readString_eq_ok_iff.2 ⟨name, us, cs, rfl, hn, hs, rfl⟩
      refine ⟨before, after, symbolsOf name ++ some '"' :: (symbolsOf gap ++ some ':' ::
        (symbolsOf before' ++ (symbolsOf t ++ (symbolsOf after ++ some c :: s)))), hb, ha, ?_, ?_⟩
      · simp [symbolsOf]
      · unfold readMember
        refine Except.bind_eq_ok_iff.2 ⟨_, hstring _, ?_⟩
        dsimp only
        rw [skipBlanks_append hg, skipBlanks_cons _ (by decide)]
        dsimp only
        rw [if_pos rfl]
        exact Except.bind_eq_ok_iff.2 ⟨_, hv, rfl⟩

theorem readMembers_member (h : Agrees fuel item P) (ht : MemberText .standard P t m) (hf : t.length ≤ fuel) {c : Char}
    (hc : c = ',' ∨ c = ']' ∨ c = '}') (s : List Symbol) :
    ∃ b', IsBlanks b' ∧ ∀ n ms rest, readMembers item n false (symbolsOf b' ++ some c :: s) = .ok (ms, rest) →
      readMembers item (n + 1) true (symbolsOf t ++ some c :: s) = .ok (m :: ms, rest) ∧
        ∀ b, IsBlanks b →
          readMembers item (n + 1) false (symbolsOf b ++ some ',' :: (symbolsOf t ++ some c :: s)) =
            .ok (m :: ms, rest) := by
  obtain ⟨before, after, s', hb, ha, hs, hm⟩ := readMember_complete h ht hf hc s
  refine ⟨after, ha, fun n ms rest hr => ?_⟩
  rw [hs]
  constructor
  · rw [readMembers, skipBlanks_append hb, skipBlanks_cons _ (by decide)]
    exact Except.bind_eq_ok_iff.2 ⟨_, hm, Except.bind_eq_ok_iff.2 ⟨_, hr, rfl⟩⟩
  · intro b hb'
    rw [readMembers, skipBlanks_append hb', skipBlanks_cons _ (by decide)]
    dsimp only
    rw [if_neg (by decide), if_neg Bool.false_ne_true, if_pos rfl, skipBlanks_append hb, skipBlanks_cons _ (by decide)]
    exact Except.bind_eq_ok_iff.2 ⟨_, hm, Except.bind_eq_ok_iff.2 ⟨_, hr, rfl⟩⟩

theorem readMembers_complete (h : Agrees fuel item P) (ht : Separated (MemberText .standard P) t ms)
    (hf : t.length ≤ fuel) (hn : ms.length < n) (rest : List Symbol) :
    readMembers item n true (symbolsOf t ++ some '}' :: rest) = .ok (ms, rest) ∧
      ∀ b, IsBlanks b →
        readMembers item n false (symbolsOf b ++ some ',' :: (symbolsOf t ++ some '}' :: rest)) = .ok (ms, rest) := by
  obtain ⟨n, rfl⟩ := Nat.exists_eq_add_one.2 (Nat.zero_lt_of_lt hn)
  induction ht generalizing n with
  | one ht =>
    obtain ⟨b', hb', hread⟩ := readMembers_member h ht hf (.inr (.inr rfl)) rest
    obtain ⟨n, rfl⟩ := Nat.exists_eq_add_one.2 (Nat.zero_lt_of_lt (Nat.lt_of_succ_lt_succ hn))
    exact hread _ _ _ (readMembers_close hb' false rest)
  | @more t t' m ms ht _ ih =>
    simp only [List.length_append, List.length_cons] at hf hn
    obtain ⟨n, rfl⟩ := Nat.exists_eq_add_one.2 (Nat.zero_lt_of_lt (Nat.lt_of_succ_lt_succ hn))
    obtain ⟨b', hb', hread⟩ := readMembers_member h ht (by omega) (.inl rfl) (symbolsOf t' ++ some '}' :: rest)
    simp only [symbolsOf_append, symbolsOf_cons, List.append_assoc, List.cons_append]
    exact hread _ _ _ ((ih (by omega) n (by omega)).2 b' hb')

/-- There are no more parts than characters. -/
theorem Separated.length_le (h : Separated Q t xs) (hQ : ∀ {t x}, Q t x → t ≠ []) : xs.length ≤ t.length := by
  induction h with
  | one ht =>
    have := List.length_pos_iff.2 (hQ ht)
    simp only [List.length_singleton]
    omega
  | more ht _ ih =>
    simp only [List.length_append, List.length_cons]
    omega

end Containers

/-! ## Values -/

section Values

variable {fuel levels : Nat} {item? : Option (Reading Json)} {P? : Option (List Char → Json → Prop)}
  {s rest : List Symbol} {v : Json} {t b : List Char}

/-- A word is read just if it stands there. -/
theorem readWord_eq_ok_iff {word : List Char} {u : Json} :
    readWord word u s = .ok (v, rest) ↔ s = symbolsOf word ++ rest ∧ v = u := by
  induction word generalizing s with
  | nil =>
    rw [readWord]
    simp only [Except.ok.injEq, Prod.mk.injEq, symbolsOf, List.map_nil, List.nil_append]
    exact ⟨fun h => ⟨h.2, h.1.symm⟩, fun h => ⟨h.2.symm, h.1⟩⟩
  | cons c word ih =>
    cases s with
    | nil => simp [readWord, symbolsOf]
    | cons d s =>
      rw [readWord, symbolsOf_cons, List.cons_append, List.cons.injEq]
      split
      · rename_i hd
        rw [ih]
        simp [hd]
      · rename_i hd
        simp [hd]

/-- Blanks in front of a value are skipped. -/
theorem readValueWith_blanks (hb : IsBlanks b) (s : List Symbol) :
    readValueWith fuel item? (symbolsOf b ++ s) = readValueWith fuel item? s := by
  unfold readValueWith
  rw [skipBlanks_append hb]

/-- Readers of items and grammars of items: both or none, and they agree. -/
def AgreeAll (fuel : Nat) (item? : Option (Reading Json)) (P? : Option (List Char → Json → Prop)) : Prop :=
  (item? = none ∧ P? = none) ∨ ∃ item P, item? = some item ∧ P? = some P ∧ Agrees fuel item P

/-- What stands between brackets or braces is an array or an object. -/
theorem valueText_of_fills_items {P : List Char → Json → Prop} (hP : P? = some P) {vs : List Json}
    (h : Fills (Around P) ']' s vs rest) :
    ∃ t, ValueTextWith .standard P? t (.array vs) ∧ some '[' :: s = symbolsOf t ++ rest := by
  rcases h with ⟨rfl, b, hb, rfl⟩ | ⟨t, ht, rfl⟩
  · exact ⟨_, .emptyArray hP hb, by simp [symbolsOf]⟩
  · exact ⟨_, .array hP ht, by simp [symbolsOf]⟩

theorem valueText_of_fills_members {P : List Char → Json → Prop} (hP : P? = some P) {ms : List (String × Json)}
    (h : Fills (MemberText .standard P) '}' s ms rest) :
    ∃ t, ValueTextWith .standard P? t (.object (Fields.ofList ms)) ∧ some '{' :: s = symbolsOf t ++ rest := by
  rcases h with ⟨rfl, b, hb, rfl⟩ | ⟨t, ht, rfl⟩
  · exact ⟨_, .emptyObject hP hb, by simp [symbolsOf]⟩
  · exact ⟨_, .object hP ht, by simp [symbolsOf]⟩

theorem readValueWith_sound (h : AgreeAll fuel item? P?) (hr : readValueWith fuel item? s = .ok (v, rest)) :
    Begins (ValueTextWith .standard P?) s v rest := by
  obtain ⟨b, hb, hs⟩ := exists_blanks s
  suffices ∃ t, ValueTextWith .standard P? t v ∧ skipBlanks s = symbolsOf t ++ rest by
    obtain ⟨t, ht, he⟩ := this
    exact ⟨b, t, hb, ht, by rw [← he, ← hs]⟩
  unfold readValueWith at hr
  split at hr
  case h_1 | h_9 => cases hr
  case h_2 heq =>
    obtain ⟨rfl, rfl⟩ := readWord_eq_ok_iff.1 hr
    exact ⟨_, .null, heq⟩
  case h_3 heq =>
    obtain ⟨rfl, rfl⟩ := readWord_eq_ok_iff.1 hr
    exact ⟨_, .true, heq⟩
  case h_4 heq =>
    obtain ⟨rfl, rfl⟩ := readWord_eq_ok_iff.1 hr
    exact ⟨_, .false, heq⟩
  case h_5 heq =>
    obtain ⟨⟨str, s'⟩, hstr, hr⟩ := Except.bind_eq_ok_iff.1 hr
    cases hr
    obtain ⟨t, us, cs, rfl, ht, hu, rfl⟩ := readString_eq_ok_iff.1 hstr
    exact ⟨_, .string ht hu, by rw [heq]; simp [symbolsOf]⟩
  case h_6 heq =>
    rcases h with ⟨rfl, -⟩ | ⟨item, P, rfl, hP, h⟩
    · cases hr
    · obtain ⟨⟨vs, s'⟩, hvs, hr⟩ := Except.bind_eq_ok_iff.1 hr
      cases hr
      rw [heq]
      exact valueText_of_fills_items hP (readItems_fills h hvs)
  case h_7 heq =>
    rcases h with ⟨rfl, -⟩ | ⟨item, P, rfl, hP, h⟩
    · cases hr
    · obtain ⟨⟨ms, s'⟩, hms, hr⟩ := Except.bind_eq_ok_iff.1 hr
      cases hr
      rw [heq]
      exact valueText_of_fills_members hP (readMembers_fills h hms)
  case h_8 heq =>
    split at hr
    · obtain ⟨t, n, hs', ht, hv⟩ := readNumber_sound hr
      exact ⟨t, .number ht hv, heq.trans hs'⟩
    · cases hr

/-- A text of a value begins with no blank and no closing character. -/
theorem opens_valueText (h : ValueTextWith .standard P? t v) : Opens t := by
  cases h with
  | null | true | false => exact ⟨_, _, rfl, by decide⟩
  | number hn hv =>
    have hr := readNumber_complete hn hv .nil
    rw [List.append_nil] at hr
    exact opens_of_readNumber hr
  | string | emptyArray | array | emptyObject | object => exact ⟨_, _, rfl, by decide⟩

theorem readValueWith_string (fuel : Nat) (item? : Option (Reading Json)) (s : List Symbol) :
    readValueWith fuel item? (some '"' :: s) = readString s >>= fun p => .ok (.string p.1, p.2) := rfl

theorem readValueWith_brackets {item : Reading Json} {vs : List Json}
    (hr : readItems item fuel true (symbolsOf t ++ some ']' :: rest) = .ok (vs, rest)) :
    readValueWith fuel (some item) (symbolsOf ('[' :: (t ++ [']'])) ++ rest) = .ok (.array vs, rest) := by
  have hs : symbolsOf ('[' :: (t ++ [']'])) ++ rest = some '[' :: (symbolsOf t ++ some ']' :: rest) := by
    simp [symbolsOf]
  rw [hs, readValueWith_array, hr]
  rfl

theorem readValueWith_braces {item : Reading Json} {ms : List (String × Json)}
    (hr : readMembers item fuel true (symbolsOf t ++ some '}' :: rest) = .ok (ms, rest)) :
    readValueWith fuel (some item) (symbolsOf ('{' :: (t ++ ['}'])) ++ rest) =
      .ok (.object (Fields.ofList ms), rest) := by
  have hs : symbolsOf ('{' :: (t ++ ['}'])) ++ rest = some '{' :: (symbolsOf t ++ some '}' :: rest) := by
    simp [symbolsOf]
  rw [hs, readValueWith_object, hr]
  rfl

theorem Agrees.around_ne_nil {item : Reading Json} {P : List Char → Json → Prop} (h : Agrees fuel item P)
    {t : List Char} {v : Json} (ht : Around P t v) : t ≠ [] := by
  cases ht with
  | mk hb ht ha =>
    obtain ⟨c, tail, rfl, -⟩ := h.opens ht
    simp

theorem memberText_ne_nil {M : Meaning} {P : List Char → Json → Prop} {t : List Char} {m : String × Json}
    (ht : MemberText M P t m) : t ≠ [] := by
  cases ht with
  | mk => simp

theorem readValueWith_complete (h : AgreeAll fuel item? P?) (ht : ValueTextWith .standard P? t v)
    (hf : t.length ≤ fuel) (hr : NumberEnds rest) : readValueWith fuel item? (symbolsOf t ++ rest) = .ok (v, rest) := by
  have hword (word : List Char) (u : Json) : readWord word u (symbolsOf word ++ rest) = .ok (u, rest) :=
    readWord_eq_ok_iff.2 ⟨rfl, rfl⟩
  have hlen {c d : Char} {t : List Char} (hf : (c :: (t ++ [d])).length ≤ fuel) : t.length + 2 ≤ fuel := by
    simp only [List.length_cons, List.length_append, List.length_nil] at hf
    omega
  -- an array or an object is read only with a reader for what it holds
  have hsome {P : List Char → Json → Prop} (hP : P? = some P) : ∃ item, item? = some item ∧ Agrees fuel item P := by
    rcases h with ⟨-, rfl⟩ | ⟨item, P', hitem, rfl, h⟩
    · cases hP
    · cases hP
      exact ⟨item, hitem, h⟩
  cases ht with
  | null => exact hword ['u', 'l', 'l'] .null
  | true => exact hword ['r', 'u', 'e'] (.bool true)
  | false => exact hword ['a', 'l', 's', 'e'] (.bool false)
  | number hn hv => exact readValueWith_number (readNumber_complete hn hv hr)
  | @string t cs us ht hu =>
    have hs : symbolsOf ('"' :: (t ++ ['"'])) ++ rest = some '"' :: (symbolsOf t ++ some '"' :: rest) := by
      simp [symbolsOf]
    rw [hs, readValueWith_string, readString_eq_ok_iff.2 ⟨t, us, cs, rfl, ht, hu, rfl⟩]
    rfl
  | emptyArray hP hb =>
    obtain ⟨item, rfl, -⟩ := hsome hP
    obtain ⟨n, rfl⟩ := Nat.exists_eq_add_one.2 (Nat.zero_lt_of_lt (hlen hf))
    exact readValueWith_brackets (readItems_close hb true rest)
  | array hP ht =>
    obtain ⟨item, rfl, hitem⟩ := hsome hP
    have hlen := hlen hf
    have hcount := ht.length_le hitem.around_ne_nil
    exact readValueWith_brackets (readItems_complete hitem ht (by omega) (by omega) rest).1
  | emptyObject hP hb =>
    obtain ⟨item, rfl, -⟩ := hsome hP
    obtain ⟨n, rfl⟩ := Nat.exists_eq_add_one.2 (Nat.zero_lt_of_lt (hlen hf))
    exact readValueWith_braces (readMembers_close hb true rest)
  | object hP ht =>
    obtain ⟨item, rfl, hitem⟩ := hsome hP
    have hlen := hlen hf
    have hcount := ht.length_le memberText_ne_nil
    exact readValueWith_braces (readMembers_complete hitem ht (by omega) (by omega) rest).1

/-- One more level: if readers and grammars of items agree, so do those of values. -/
theorem AgreeAll.agrees (h : AgreeAll fuel item? P?) :
    Agrees fuel (readValueWith fuel item?) (ValueTextWith .standard P?) where
  sound hr := readValueWith_sound h hr
  complete hb ht hf hr := by
    rw [readValueWith_blanks hb]
    exact readValueWith_complete h ht hf hr
  opens := opens_valueText

theorem agrees_readValue (fuel levels : Nat) : Agrees fuel (readValue fuel levels) (ValueText .standard levels) := by
  induction levels with
  | zero => exact AgreeAll.agrees (.inl ⟨rfl, rfl⟩)
  | succ levels ih => exact AgreeAll.agrees (.inr ⟨_, _, rfl, rfl, ih⟩)

end Values

/-- **Reading and the grammar**: symbols are read as a value just if they are the characters of a JSON text that stands
for it and nests no deeper than the levels allow. -/
theorem readWithin_eq_ok_iff {levels : Nat} {s : List Symbol} {v : Json} :
    readWithin levels s = .ok v ↔ ∃ text, s = symbolsOf text ∧ TextOf .standard levels text v := by
  have h := agrees_readValue s.length levels
  rw [readWithin, Except.bind_eq_ok_iff]
  constructor
  · rintro ⟨⟨u, rest⟩, hr, hv⟩
    obtain ⟨b, t, hb, ht, hs⟩ := h.sound hr
    dsimp only at hv
    split at hv
    · rename_i hrest
      cases hv
      obtain ⟨b', hb', hrest'⟩ := exists_blanks rest
      rw [List.isEmpty_iff.1 hrest, List.append_nil] at hrest'
      refine ⟨_, ?_, .mk hb ht hb'⟩
      rw [hs, hrest', symbolsOf_append, symbolsOf_append]
    · cases hv
  · rintro ⟨text, rfl, ⟨hb, ht, ha⟩⟩
    rename_i before t after
    have hlen : t.length ≤ (symbolsOf (before ++ (t ++ after))).length := by
      simp only [symbolsOf, List.length_map, List.length_append]
      omega
    have hends : NumberEnds (symbolsOf after) := by simpa using NumberEnds.nil.blanks ha
    refine ⟨(v, symbolsOf after), ?_, ?_⟩
    · rw [symbolsOf_append, symbolsOf_append] at h hlen ⊢
      exact h.complete hb ht hlen hends
    · have hskip := skipBlanks_append ha []
      rw [List.append_nil] at hskip
      dsimp only
      rw [hskip]
      rfl

end Chronicle.Json
