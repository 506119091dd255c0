import Chronicle.Proofs.Json.Grammar

/-!
# Strings and the grammar

A string is read just if the characters up to its closing quote are the text of one by the grammar, and stand for
characters (`readString_eq_ok_iff`). Reading goes on by what stands for one character at a time (`CharText`): the
grammar can be taken apart in this way (`exists_charText`), and so can everything that is read
(`readStringRest_cases`).
-/

namespace Chronicle.Json

open Text (Symbol hexValue? symbolsOf symbolsOf_cons symbolsOf_append)

variable {done : List Char} {s rest : List Symbol} {str : String} {r : String × List Symbol} {high : Option Nat}

/-- A string with a byte outside a character is not read. -/
theorem readStringRest_unsound (mode : StringMode) (done : List Char) (s : List Symbol) :
    readStringRest mode done false s ≠ .ok r := by
  generalize hb : false = sound
  fun_induction readStringRest mode done sound s
  all_goals grind

/-- What is read behind four hexadecimal digits. -/
def afterUnit (done : List Char) (s : List Symbol) :
    Except ReadError (Char ⊕ Nat) → Except ReadError (String × List Symbol)
  | .error e => .error e
  | .ok (.inl c) => readStringRest .plain (c :: done) true s
  | .ok (.inr unit) => readStringRest (.pairBackslash unit) done true s

theorem readStringRest_digit {c : Char} {d count : Nat} (hd : hexValue? c = some d) (hcount : count < 3) (val : Nat)
    (high : Option Nat) (done : List Char) (s : List Symbol) :
    readStringRest (.code count val high) done true (some c :: s) =
      readStringRest (.code (count + 1) (val * 16 + d) high) done true s := by
  simp only [readStringRest, Option.bind_some, hd, if_pos hcount]

theorem readStringRest_lastDigit {c : Char} {d : Nat} (hd : hexValue? c = some d) (val : Nat)
    (high : Option Nat) (done : List Char) (s : List Symbol) :
    readStringRest (.code 3 val high) done true (some c :: s) = afterUnit done s (codeUnit (val * 16 + d) high) := by
  simp only [readStringRest, Option.bind_some, hd, Nat.lt_irrefl, if_false]
  rcases codeUnit (val * 16 + d) high with e | c | unit <;> rfl

theorem readStringRest_hex {ds : List Char} {n : Nat} (h : HexText ds n) (high : Option Nat) (done : List Char)
    (s : List Symbol) :
    readStringRest (.code 0 0 high) done true (symbolsOf ds ++ s) = afterUnit done s (codeUnit n high) := by
  cases h with
  | mk ha hb hc hd =>
    simp only [symbolsOf, List.map_cons, List.map_nil, List.cons_append, List.nil_append]
    rw [readStringRest_digit ha (by decide), readStringRest_digit hb (by decide), readStringRest_digit hc (by decide),
      readStringRest_lastDigit hd, Nat.zero_mul, Nat.zero_add]

/-- Where a digit has to stand, one stands. -/
theorem exists_of_readStringRest_code {count val : Nat}
    (h : readStringRest (.code count val high) done true s = .ok r) :
    ∃ c d s', s = some c :: s' ∧ hexValue? c = some d := by
  cases s with
  | nil => cases h
  | cons c s =>
    rw [readStringRest] at h
    split at h
    · rename_i d hd
      obtain ⟨c, rfl, hc⟩ := Option.bind_eq_some_iff.1 hd
      exact ⟨c, d, s, rfl, hc⟩
    · cases h

/-- Where four digits have to stand, they do. -/
theorem exists_hex_of_readStringRest (h : readStringRest (.code 0 0 high) done true s = .ok r) :
    ∃ ds n s', s = symbolsOf ds ++ s' ∧ HexText ds n ∧ afterUnit done s' (codeUnit n high) = .ok r := by
  obtain ⟨a, x, s, rfl, ha⟩ := exists_of_readStringRest_code h
  rw [readStringRest_digit ha (by decide)] at h
  obtain ⟨b, y, s, rfl, hb⟩ := exists_of_readStringRest_code h
  rw [readStringRest_digit hb (by decide)] at h
  obtain ⟨c, z, s, rfl, hc⟩ := exists_of_readStringRest_code h
  rw [readStringRest_digit hc (by decide)] at h
  obtain ⟨d, w, s, rfl, hd⟩ := exists_of_readStringRest_code h
  rw [readStringRest_lastDigit hd, Nat.zero_mul, Nat.zero_add] at h
  exact ⟨[a, b, c, d], _, s, rfl, .mk ha hb hc hd, h⟩

theorem codeUnit_none_eq_ok_inl_iff {n : Nat} {c : Char} :
    codeUnit n none = .ok (.inl c) ↔ (n < 0xD800 ∨ 0xDFFF < n) ∧ c = Char.ofNat n := by
  unfold codeUnit
  grind

theorem codeUnit_none_eq_ok_inr_iff {n unit : Nat} :
    codeUnit n none = .ok (.inr unit) ↔ (0xD800 ≤ n ∧ n ≤ 0xDBFF) ∧ unit = n := by
  unfold codeUnit
  grind

theorem codeUnit_some_eq_ok_iff {n high : Nat} {r : Char ⊕ Nat} :
    codeUnit n (some high) = .ok r ↔ (0xDC00 ≤ n ∧ n ≤ 0xDFFF) ∧
      r = .inl (pairChar high n) := by
  unfold codeUnit pairChar
  grind

/-- What stands for one character in a string: the character itself, an escape, or the escapes of a surrogate pair. -/
inductive CharText : List Char → List (Char ⊕ Nat) → Char → Prop where
  | char {c : Char} (hc : 0x20 ≤ c.toNat) (hq : c ≠ '"') (hb : c ≠ '\\') : CharText [c] [.inl c] c
  | escape {c e : Char} (he : simpleEscape? c = some e) : CharText ['\\', c] [.inl e] e
  | unit {ds : List Char} {n : Nat} (hd : HexText ds n) (hn : n < 0xD800 ∨ 0xDFFF < n) :
      CharText ('\\' :: 'u' :: ds) [.inr n] (Char.ofNat n)
  | pair {ds ds' : List Char} {high low : Nat} (hd : HexText ds high) (hd' : HexText ds' low)
      (hh : 0xD800 ≤ high ∧ high ≤ 0xDBFF) (hl : 0xDC00 ≤ low ∧ low ≤ 0xDFFF) :
      CharText ('\\' :: 'u' :: (ds ++ '\\' :: 'u' :: ds')) [.inr high, .inr low]
        (pairChar high low)

variable {t t' : List Char} {us us' : List (Char ⊕ Nat)} {c : Char} {cs : List Char}

theorem CharText.ne_nil (h : CharText t us c) : t ≠ [] := by
  cases h <;> exact List.cons_ne_nil _ _

theorem CharText.append (h : CharText t us c) (ht : StringText t' us') : StringText (t ++ t') (us ++ us') := by
  cases h with
  | char hc hq hb => exact .char hc hq hb ht
  | escape he => exact .escape he ht
  | unit hd hn => exact .unit hd ht
  | pair hd hd' hh hl =>
    simp only [List.cons_append, List.append_assoc]
    exact .unit hd (.unit hd' ht)

theorem CharText.spells (h : CharText t us c) (hs : Spells us' cs) : Spells (us ++ us') (c :: cs) := by
  cases h with
  | char hc hq hb => exact .char hs
  | escape he => exact .char hs
  | unit hd hn => exact .unit hn hs
  | pair hd hd' hh hl => exact .pair hh hl hs

theorem exists_of_stringText_unit {n : Nat} (h : StringText t (.inr n :: us)) :
    ∃ ds t', t = '\\' :: 'u' :: (ds ++ t') ∧ HexText ds n ∧ StringText t' us := by
  cases h with
  | unit hd ht => exact ⟨_, _, rfl, hd, ht⟩

/-- The text of a string with a first character begins with what stands for it. -/
theorem exists_charText (ht : StringText t us) (hs : Spells us (c :: cs)) :
    ∃ t₁ us₁ t₂ us₂, t = t₁ ++ t₂ ∧ CharText t₁ us₁ c ∧ StringText t₂ us₂ ∧ Spells us₂ cs := by
  generalize hx : c :: cs = x at hs
  cases hs with
  | nil => cases hx
  | char hs =>
    obtain ⟨rfl, rfl⟩ := List.cons.inj hx
    cases ht with
    | char hc hq hb ht => exact ⟨_, _, _, _, rfl, .char hc hq hb, ht, hs⟩
    | @escape d _ _ _ he ht => exact ⟨['\\', d], _, _, _, rfl, .escape he, ht, hs⟩
  | unit hn hs =>
    obtain ⟨rfl, rfl⟩ := List.cons.inj hx
    obtain ⟨ds, t', rfl, hd, ht⟩ := exists_of_stringText_unit ht
    exact ⟨'\\' :: 'u' :: ds, _, t', _, rfl, .unit hd hn, ht, hs⟩
  | pair hh hl hs =>
    obtain ⟨hc, rfl⟩ := List.cons.inj hx
    rw [hc]
    obtain ⟨ds, t', rfl, hd, ht⟩ := exists_of_stringText_unit ht
    obtain ⟨ds', t'', rfl, hd', ht⟩ := exists_of_stringText_unit ht
    have hp : CharText ('\\' :: 'u' :: (ds ++ '\\' :: 'u' :: ds')) _ _ := .pair hd hd' hh hl
    refine ⟨_, _, t'', _, ?_, hp, ht, hs⟩
    rw [List.cons_append, List.cons_append, List.append_assoc, List.cons_append, List.cons_append]

/-- A character is read from what stands for it. -/
theorem CharText.read (h : CharText t us c) (done : List Char) (s : List Symbol) :
    readStringRest .plain done true (symbolsOf t ++ s) = readStringRest .plain (c :: done) true s := by
  have hplain (s : List Symbol) : readStringRest .plain done true (some '\\' :: s) =
      readStringRest .escaped done true s := rfl
  have hunit (s : List Symbol) : readStringRest .escaped done true (some 'u' :: s) =
      readStringRest (.code 0 0 none) done true s := rfl
  cases h with
  | char hc hq hb =>
    rw [symbolsOf_cons, List.cons_append, readStringRest]
    · rw [if_neg (Nat.not_lt.2 hc)]
      rfl
    · exact hq
    · exact hb
  | @escape d _ he =>
    have hu : some d ≠ some 'u' := by
      rintro ⟨⟩
      cases he
    rw [symbolsOf_cons, List.cons_append, hplain, symbolsOf_cons, List.cons_append, readStringRest, if_neg hu]
    simp only [Option.bind_some, he]
    rfl
  | unit hd hn =>
    rw [symbolsOf_cons, List.cons_append, hplain, symbolsOf_cons, List.cons_append, hunit, readStringRest_hex hd,
      codeUnit_none_eq_ok_inl_iff.2 ⟨hn, rfl⟩, afterUnit]
  | pair hd hd' hh hl =>
    have hpair (high : Nat) (s : List Symbol) : readStringRest (.pairBackslash high) done true
        (some '\\' :: some 'u' :: s) = readStringRest (.code 0 0 (some high)) done true s := rfl
    rw [symbolsOf_cons, List.cons_append, hplain, symbolsOf_cons, List.cons_append, hunit, symbolsOf_append,
      List.append_assoc, readStringRest_hex hd, codeUnit_none_eq_ok_inr_iff.2 ⟨hh, rfl⟩, afterUnit, symbolsOf_cons,
      symbolsOf_cons, List.cons_append, List.cons_append, hpair, readStringRest_hex hd',
      codeUnit_some_eq_ok_iff.2 ⟨hl, rfl⟩, afterUnit]

/-- Behind the first half of a surrogate pair another escape has to stand. -/
theorem exists_of_readStringRest_pair {unit : Nat} (h : readStringRest (.pairBackslash unit) done true s = .ok r) :
    ∃ s', s = some '\\' :: some 'u' :: s' ∧ readStringRest (.code 0 0 (some unit)) done true s' = .ok r := by
  cases s with
  | nil => cases h
  | cons x s =>
    rw [readStringRest] at h
    split at h
    · rename_i hx
      subst hx
      cases s with
      | nil => cases h
      | cons y s =>
        rw [readStringRest] at h
        split at h
        · rename_i hy
          subst hy
          exact ⟨s, rfl, h⟩
        · cases h
    · cases h

/-- What is read is at its closing quote, or goes on with what stands for a character. -/
theorem readStringRest_cases (h : readStringRest .plain done true s = .ok (str, rest)) :
    (s = some '"' :: rest ∧ str = String.ofList done.reverse) ∨
      ∃ t us c s', s = symbolsOf t ++ s' ∧ CharText t us c ∧
        readStringRest .plain (c :: done) true s' = .ok (str, rest) := by
  cases s with
  | nil => cases h
  | cons x s =>
    rw [readStringRest.eq_def] at h
    dsimp only at h
    split at h
    · exact absurd h (readStringRest_unsound _ _ _)
    · rw [if_pos rfl] at h
      cases h
      exact .inl ⟨rfl, rfl⟩
    · right
      cases s with
      | nil => cases h
      | cons y s =>
        rw [readStringRest] at h
        split at h
        · rename_i hy
          subst hy
          obtain ⟨ds, n, s', rfl, hd, h⟩ := exists_hex_of_readStringRest h
          cases hc : codeUnit n none with
          | error e =>
            rw [hc] at h
            cases h
          | ok u =>
            rw [hc] at h
            cases u with
            | inl c =>
              obtain ⟨hn, rfl⟩ := codeUnit_none_eq_ok_inl_iff.1 hc
              exact ⟨_, _, _, s', rfl, .unit hd hn, h⟩
            | inr high =>
              obtain ⟨hh, rfl⟩ := codeUnit_none_eq_ok_inr_iff.1 hc
              obtain ⟨s, rfl, h⟩ := exists_of_readStringRest_pair h
              obtain ⟨ds', low, s'', rfl, hd', h⟩ := exists_hex_of_readStringRest h
              cases hc' : codeUnit low (some high) with
              | error e =>
                rw [hc'] at h
                cases h
              | ok u =>
                obtain ⟨hl, rfl⟩ := codeUnit_some_eq_ok_iff.1 hc'
                rw [hc'] at h
                refine ⟨_, _, _, s'', ?_, .pair hd hd' hh hl, h⟩
                simp [symbolsOf]
        · split at h
          · rename_i e he
            obtain ⟨d, rfl, he⟩ := Option.bind_eq_some_iff.1 he
            exact ⟨['\\', d], _, e, s, rfl, .escape he, h⟩
          · cases h
    · rename_i c hq hb
      split at h
      · cases h
      · rename_i hc
        exact .inr ⟨[c], _, c, s, rfl, .char (Nat.le_of_not_lt hc) hq hb, h⟩

/-- **Strings**: a string is read just if the characters up to its closing quote are the text of one. -/
theorem readStringRest_eq_ok_iff : readStringRest .plain done true s = .ok (str, rest) ↔
    ∃ t us cs, s = symbolsOf t ++ some '"' :: rest ∧ StringText t us ∧ Spells us cs ∧
      str = String.ofList (done.reverse ++ cs) := by
  constructor
  · intro h
    induction hn : s.length using Nat.strongRecOn generalizing done s with
    | _ n ih =>
      subst hn
      rcases readStringRest_cases h with ⟨rfl, rfl⟩ | ⟨t, us, c, s', rfl, hc, h⟩
      · exact ⟨[], [], [], rfl, .nil, .nil, by rw [List.append_nil]⟩
      · have hlt : s'.length < (symbolsOf t ++ s').length := by
          have := List.length_pos_iff.2 hc.ne_nil
          simp only [symbolsOf, List.length_append, List.length_map]
          omega
        obtain ⟨t', us', cs, rfl, ht, hs, rfl⟩ := ih _ hlt h rfl
        refine ⟨t ++ t', us ++ us', c :: cs, ?_, hc.append ht, hc.spells hs, ?_⟩
        · rw [symbolsOf_append, List.append_assoc]
        · rw [List.reverse_cons, List.append_assoc, List.singleton_append]
  · rintro ⟨t, us, cs, rfl, ht, hs, rfl⟩
    induction cs generalizing t us done with
    | nil =>
      cases hs
      cases ht
      rw [List.append_nil]
      rfl
    | cons c cs ih =>
      obtain ⟨t₁, us₁, t₂, us₂, rfl, hc, ht, hs⟩ := exists_charText ht hs
      rw [symbolsOf_append, List.append_assoc, hc.read, ih _ _ ht hs, List.reverse_cons, List.append_assoc,
        List.singleton_append]

theorem readString_eq_ok_iff : readString s = .ok (str, rest) ↔
    ∃ t us cs, s = symbolsOf t ++ some '"' :: rest ∧ StringText t us ∧ Spells us cs ∧ str = String.ofList cs := by
  rw [readString, readStringRest_eq_ok_iff]
  simp only [List.reverse_nil, List.nil_append]

end Chronicle.Json
