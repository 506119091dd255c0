import Chronicle.Proofs.Feed.Broadcast
import Mathlib.Data.List.Infix

/-!
# Feeds are complete and can be resumed

Somebody who pulls at a feed is given its next change if there is one (`Broadcast.exists_pull`), and enough pulls give
everything from its place on (`Broadcast.exists_pulls`). A feed that is opened behind an item of another one gives the
items behind it (`Follower.Served.resumes`), because both are beginnings of one list of changes. `Broadcast.faithful_run`
puts this together for any interleaving of writers and readers.
-/

namespace Chronicle

namespace Follower

variable {b : Broadcast} {f g : Follower} {place k : Nat}

@[simp]
theorem items_ask (announced : Nat) (f : Follower) : (f.ask announced).items = f.items := by
  rcases f.ask_cases announced with ⟨h, -⟩ | h
  · rw [h]
  · rw [h]
    rfl

/-- The next item of a follower that looks at the log is the next change, if there is one. -/
theorem Served.items_look (h : f.Served b place)
    (hf : place + f.items.length < b.log.size → f.attention = .looking) :
    (f.look b.log).items = f.items ++ ((b.log.change? (place + f.items.length)).map .ok).toList := by
  cases hc : b.log.change? (place + f.items.length) with
  | some c =>
    have hlt : place + f.items.length < b.log.size := by
      refine Nat.lt_of_not_le fun hle => ?_
      rw [EventLog.change?_eq_none_iff.2 hle] at hc
      cases hc
    rw [h.look_of_some (hf hlt) hc]
    rfl
  | none =>
    rw [Option.map_none, Option.toList_none, List.append_nil]
    by_cases hf : f.attention = .looking
    · rw [h.look_of_none hf hc]
    · rw [look_of_ne hf]

/-- Who is asked looks at the log, unless it sleeps and there was no announcement. -/
theorem attention_ask {announced : Nat} (hs : f.attention = .asleep → f.heard < announced) :
    (f.ask announced).attention = .looking := by
  rcases f.ask_cases announced with ⟨ha, hasleep, hidle⟩ | ha
  · rw [ha]
    cases hf : f.attention with
    | idle => exact absurd hf hidle
    | looking => rfl
    | asleep => exact absurd (hs hf) (Nat.not_lt.2 (hasleep hf))
  · rw [ha]
    rfl

/-- A follower that has nothing left to look for was given all changes from its place on. -/
theorem Served.items_eq (h : f.Served b place) (hw : b.log.poll f.feed = .waiting) :
    f.items = (b.log.changesFrom place).map .ok := by
  rw [h.feed, EventLog.poll_ofLog_eq_waiting_iff] at hw
  refine h.items.eq_of_length_le ?_
  rw [List.length_map, EventLog.length_changesFrom]
  omega

/-- A feed `g` resumes a feed `f` behind its item `k`: as far as both have come, it has the items behind that one, and
once neither has anything left, it has all of them. -/
structure Resumes (log : EventLog) (k : Nat) (f g : Follower) : Prop where
  alike : g.items <+: f.items.drop (k + 1) ∨ f.items.drop (k + 1) <+: g.items
  level : log.poll f.feed = .waiting → log.poll g.feed = .waiting → g.items = f.items.drop (k + 1)

/-- A follower that began right behind an item of another one resumes it. -/
theorem Served.resumes (hf : f.Served b place) (hg : g.Served b (place + k + 1)) : Resumes b.log k f g := by
  have hdrop : ((b.log.changesFrom place).map (.ok : Change → Except StoreError Change)).drop (k + 1) =
      (b.log.changesFrom (place + k + 1)).map .ok := by
    rw [← List.map_drop, EventLog.drop_changesFrom, Nat.add_assoc]
  constructor
  case alike =>
    have hrest := hf.items.drop (k + 1)
    rw [hdrop] at hrest
    exact List.prefix_or_prefix_of_prefix hg.items hrest
  case level =>
    intro hwf hwg
    rw [hg.items_eq hwg, hf.items_eq hwf, hdrop]

/-- The items of a follower are documents one after the other, each with its place. -/
theorem Served.item (h : f.Served b place) {item : Except StoreError Change} (hk : f.items[k]? = some item) :
    ∃ d, b.log.documents[place + k]? = some d ∧ item = .ok ⟨d, EventLog.positionOf (place + k)⟩ := by
  obtain ⟨hlt, hitem⟩ := List.getElem?_eq_some_iff.1 hk
  have hi : ((b.log.changesFrom place).map Except.ok)[k]? = some item := by
    rw [List.prefix_iff_getElem?.1 h.items k hlt, hitem]
  rw [List.getElem?_map, EventLog.getElem?_changesFrom, Option.map_eq_some_iff] at hi
  obtain ⟨c, hc, rfl⟩ := hi
  obtain ⟨d, hd, rfl⟩ := EventLog.change?_eq_some_iff.1 hc
  exact ⟨d, hd, rfl⟩

end Follower

namespace Broadcast

open Follower (Served Resumes)

variable {codec : Codec} {b : Broadcast} {f : Follower} {start : StartPosition} {place i k : Nat}

/-! ## Pulling -/

/-- Somebody waits for the next item of a feed: an announcement that is due is made, and the feed is asked and looks at
the log. -/
def pull (i : Nat) : List Action := [.announce, .ask i, .look i]

/-- Somebody pulls at a feed several times. -/
def pulls (i count : Nat) : List Action := (List.replicate count (pull i)).flatten

theorem pulls_succ (i count : Nat) : pulls i (count + 1) = pull i ++ pulls i count := by
  simp [pulls, List.replicate_succ]

theorem log_announce (codec : Codec) (b : Broadcast) : (b.step codec .announce).log = b.log := by
  rw [step]
  split <;> rfl

theorem followers_announce (codec : Codec) (b : Broadcast) : (b.step codec .announce).followers = b.followers := by
  rw [step]
  split <;> rfl

/-- Pulling changes nothing in the log. -/
theorem log_pull (codec : Codec) (b : Broadcast) (i : Nat) : (b.run codec (pull i)).log = b.log := by
  rw [pull, run_cons, run_cons, run_cons]
  exact log_announce codec b

/-- After an announcement a sleeper can hear of what there is for it. -/
theorem heard_lt_announce (h : f.Served b place) (codec : Codec) (hs : f.attention = .asleep)
    (hlt : place + f.items.length < b.log.size) : f.heard < (b.step codec .announce).announced := by
  have hheard := h.heard
  have hawake := h.awake hs hlt
  rw [step]
  split
  · omega
  · dsimp only
    omega

theorem followers_pull (hf : b.followers[i]? = some f) (codec : Codec) :
    (b.run codec (pull i)).followers[i]? = some ((f.ask (b.step codec .announce).announced).look b.log) := by
  have hrun : (b.run codec (pull i)).followers =
      ((b.step codec .announce).followers.modify i (·.ask (b.step codec .announce).announced)).modify i
        (·.look (b.step codec .announce).log) := rfl
  rw [hrun, List.getElem?_modify, List.getElem?_modify, followers_announce, log_announce, hf]
  simp

/-- **Pulling** at a feed gives its next change, if there is one. -/
theorem exists_pull (hf : b.followers[i]? = some f) (h : f.Served b place) (codec : Codec) :
    ∃ g, (b.run codec (pull i)).followers[i]? = some g ∧ g.Served (b.run codec (pull i)) place ∧
      g.items = f.items ++ ((b.log.change? (place + f.items.length)).map .ok).toList := by
  have hlog := log_announce codec b
  have hannounced := h.step (.inl rfl) codec .announce
  have hasked := hannounced.step (.inr (.inl rfl)) codec (.ask i)
  have hlooked := hasked.step (.inr (.inr rfl)) codec (.look i)
  have hitems := hannounced.ask.items_look fun hlt =>
    Follower.attention_ask fun hs => heard_lt_announce h codec hs (by simpa [hlog] using hlt)
  rw [Follower.items_ask, hlog] at hitems
  refine ⟨_, followers_pull hf codec, ?_, hitems⟩
  rw [← hlog]
  exact hlooked

/-- Enough pulls give everything from the place of a feed on. -/
theorem exists_pulls (hf : b.followers[i]? = some f) (h : f.Served b place) (codec : Codec) :
    ∃ count g, (b.run codec (pulls i count)).followers[i]? = some g ∧ g.items = (b.log.changesFrom place).map .ok := by
  -- by induction on how much is left to give
  generalize hleft : b.log.size - (place + f.items.length) = left
  induction left generalizing b f with
  | zero =>
    have hw : b.log.poll f.feed = .waiting := by
      rw [h.feed, EventLog.poll_ofLog_eq_waiting_iff]
      omega
    exact ⟨0, f, hf, h.items_eq hw⟩
  | succ left ih =>
    obtain ⟨g, hg, hs, hitems⟩ := exists_pull hf h codec
    cases hc : b.log.change? (place + f.items.length) with
    | none =>
      have hle := EventLog.change?_eq_none_iff.1 hc
      omega
    | some c =>
      rw [hc] at hitems
      have hlen : g.items.length = f.items.length + 1 := by simp [hitems]
      obtain ⟨count, g', hg', hall⟩ := ih hg hs (by rw [log_pull]; omega)
      refine ⟨count + 1, g', ?_, ?_⟩
      · rw [pulls_succ, run_append]
        exact hg'
      · rw [hall, log_pull]

/-! ## Opening a feed -/

theorem step_openFeed_of_beginsAt (h : start.BeginsAt b.log.size place) (codec : Codec) :
    b.step codec (.openFeed start) =
      { b with followers := b.followers ++ [.fresh start b.log.size b.announced (.ofLog place)] } := by
  simp only [step, EventLog.openFeed_of_beginsAt h]

theorem step_openFeed_of_refused {problem : TokenProblem} (h : start.Refused problem) (codec : Codec) :
    b.step codec (.openFeed start) = b := by
  simp only [step, EventLog.openFeed_of_refused h]

/-- A feed that was opened is served from its place on. -/
theorem exists_served_openFeed (h : start.BeginsAt b.log.size place) (codec : Codec) (rest : List Action) :
    ∃ g, (b.run codec (.openFeed start :: rest)).followers[b.followers.length]? = some g ∧
      g.Served (b.run codec (.openFeed start :: rest)) place := by
  have hat : (b.step codec (.openFeed start)).followers[b.followers.length]? =
      some (.fresh start b.log.size b.announced (.ofLog place)) := by
    rw [step_openFeed_of_beginsAt h, List.getElem?_concat_length]
  have hserved := (Follower.served_fresh h).later (later_step codec b (.openFeed start))
  obtain ⟨g, hg, hs, -⟩ := exists_served_run hat hserved codec rest
  exact ⟨g, hg, hs⟩

/-! ## Faithful feeds -/

/-- The feed `i`, which is `f` by now and began at `place`: what it has given, what it gives, and how it goes on if it is
opened anew. -/
structure Follows (codec : Codec) (b : Broadcast) (i place : Nat) (f : Follower) : Prop where
  /-- It begins where its start says. -/
  begins : f.start.BeginsAt f.opened place
  /-- Its item `k` is the document `k` places behind its own. -/
  item : ∀ k item, f.items[k]? = some item →
    ∃ d, b.log.documents[place + k]? = some d ∧ item = .ok ⟨d, ⟨.int64 (Int64.ofNat (place + k)), place + k⟩⟩
  /-- Whoever pulls at it is given the next change, if there is one. -/
  next : ∃ g, (b.run codec (pull i)).followers[i]? = some g ∧
    g.items = f.items ++ ((b.log.change? (place + f.items.length)).map .ok).toList
  /-- In the end it gives everything from its place on. -/
  all : ∃ count g, (b.run codec (pulls i count)).followers[i]? = some g ∧
    g.items = (b.log.changesFrom place).map .ok
  /-- It is not forgotten while it sleeps. -/
  awake : f.attention = .asleep → place + f.items.length < b.log.size → 0 < b.unannounced ∨ f.heard < b.announced
  /-- A feed that is opened later behind one of its items goes on behind this item, whatever is done in between and
  afterwards. There are never as many documents in memory as a token can count. -/
  resumes : ∀ k d p, f.items[k]? = some (.ok ⟨d, p⟩) → p.sequence < 0x8000000000000000 → ∀ more,
    (∃ feed, (b.run codec more).log.openFeed (.after p) = .ok feed) ∧ ∀ rest, ∃ f' g,
      (b.run codec (more ++ .openFeed (.after p) :: rest)).followers[i]? = some f' ∧
      (b.run codec (more ++ .openFeed (.after p) :: rest)).followers[(b.run codec more).followers.length]? = some g ∧
      Resumes (b.run codec (more ++ .openFeed (.after p) :: rest)).log k f' g

/-- What becomes of the feeds of a log. -/
structure Faithful (codec : Codec) (b : Broadcast) : Prop where
  /-- A feed is opened at the place that its start gives. -/
  opened : ∀ start place, start.BeginsAt b.log.size place →
    b.step codec (.openFeed start) =
      { b with followers := b.followers ++ [.fresh start b.log.size b.announced (.ofLog place)] }
  /-- If its start gives none, then it says what is wrong with the token, and nothing changes. -/
  refused : ∀ start, (∀ place, ¬start.BeginsAt b.log.size place) →
    (∃ problem, start.Refused problem ∧ b.log.openFeed start = .error (.invalidToken problem)) ∧
      b.step codec (.openFeed start) = b
  follows : ∀ i f, b.followers[i]? = some f → ∃ place, Follows codec b i place f

/-- Whatever is done with a log, a feed can be opened behind an item, and gives what is behind it. -/
theorem resumes_of_served (hf : b.followers[i]? = some f) (h : f.Served b place) (codec : Codec) {d : Document}
    {p : Position} (hk : f.items[k]? = some (.ok ⟨d, p⟩)) (hp : p.sequence < 0x8000000000000000)
    (more : List Action) :
    (∃ feed, (b.run codec more).log.openFeed (.after p) = .ok feed) ∧ ∀ rest, ∃ f' g,
      (b.run codec (more ++ .openFeed (.after p) :: rest)).followers[i]? = some f' ∧
      (b.run codec (more ++ .openFeed (.after p) :: rest)).followers[(b.run codec more).followers.length]? = some g ∧
      Resumes (b.run codec (more ++ .openFeed (.after p) :: rest)).log k f' g := by
  obtain ⟨d', -, hd⟩ := h.item hk
  cases hd
  have hb := EventLog.beginsAt_after_positionOf (b.run codec more).log.size hp
  refine ⟨⟨_, EventLog.openFeed_of_beginsAt hb⟩, fun rest => ?_⟩
  obtain ⟨g, hg, hsg⟩ := exists_served_openFeed hb codec rest
  obtain ⟨f', hf', hsf, -⟩ := exists_served_run hf h codec
    (more ++ .openFeed (.after (EventLog.positionOf (place + k))) :: rest)
  rw [run_append] at hf' hsf ⊢
  exact ⟨f', g, hf', hg, hsf.resumes hsg⟩

/-- **Feeds**: however writers and readers interleave, each feed begins where its start says, gives every document from
there on once and in order, and can be resumed behind each of its items. -/
theorem faithful_run (codec : Codec) (log : EventLog) (actions : List Action) :
    Faithful codec ((ofLog log).run codec actions) where
  opened start place h := step_openFeed_of_beginsAt h codec
  refused := by
    intro start hn
    cases ho : ((ofLog log).run codec actions).log.openFeed start with
    | ok feed =>
      obtain ⟨place, hp, -⟩ := EventLog.openFeed_eq_ok_iff.1 ho
      exact absurd hp (hn place)
    | error e =>
      obtain ⟨problem, hp, rfl⟩ := EventLog.openFeed_eq_error_iff.1 ho
      exact ⟨⟨problem, hp, rfl⟩, step_openFeed_of_refused hp codec⟩
  follows := by
    intro i f hf
    obtain ⟨place, h⟩ := serving_run codec log actions i f hf
    refine ⟨place, ?_⟩
    constructor
    case begins => exact h.begins
    case item => exact fun k item hk => h.item hk
    case next =>
      obtain ⟨g, hg, -, hitems⟩ := exists_pull hf h codec
      exact ⟨g, hg, hitems⟩
    case all => exact exists_pulls hf h codec
    case awake => exact h.awake
    case resumes => exact fun k d p hk hp more => resumes_of_served hf h codec hk hp more

/-- Behind the first document comes the second one, and then nothing. -/
example (codec : Codec) :
    (((ofLog ⟨[[], [("n", .int64 1)]], .empty⟩).run codec
      (.openFeed (.after (EventLog.positionOf 0)) :: pulls 0 2)).followers.map Follower.items) =
      [[.ok ⟨[("n", .int64 1)], EventLog.positionOf 1⟩]] := by
  rfl

end Broadcast

end Chronicle
