import Chronicle.Proofs.Feed.Changes
import Chronicle.Proofs.Store.History
import Mathlib.Data.List.Infix

/-!
# A log and those who follow it

A `Broadcast` is a log together with the feeds that were opened on it. It takes the smallest steps there are: an append
commits its batch, and only later announces it; a follower that is asked for an item first notes which announcements
there were, and only then looks at the log; if it finds nothing there, it sleeps until it hears of a new announcement.
Any interleaving of writers and feeds is a run of such steps.

Each follower is `Follower.Served`: the items that it was given are the first changes from its place on. What a step can
do to the followers (`Broadcast.followers_step`) keeps them served, so that runs do (`Broadcast.serving_run`). A sleeper
is never forgotten: if there is something for it, then an announcement is due or has not been heard yet.
-/

namespace Chronicle

/-! ## Followers -/

/-- What a follower of the log is doing. -/
inductive Attention where
  /-- Nobody is asking it for an item. -/
  | idle
  /-- It is about to look at the log. -/
  | looking
  /-- It has found nothing in the log, and sleeps until there is an announcement. -/
  | asleep
deriving DecidableEq

/-- An open feed, and what has become of it. -/
structure Follower where
  start : StartPosition
  /-- The number of documents when it was opened. -/
  opened : Nat
  feed : Feed
  attention : Attention
  /-- The number of announcements when it last listened. -/
  heard : Nat
  /-- What it was given so far. -/
  items : List (Except StoreError Change)

namespace Follower

/-- A feed that has just been opened. -/
def fresh (start : StartPosition) (size announced : Nat) (feed : Feed) : Follower :=
  ⟨start, size, feed, .idle, announced, []⟩

/-- A follower that listens before it looks at the log. -/
def listen (announced : Nat) (f : Follower) : Follower := { f with attention := .looking, heard := announced }

/-- Asks a follower for an item. A sleeper wakes up if there was an announcement since it last listened. -/
def ask (announced : Nat) (f : Follower) : Follower :=
  match f.attention with
  | .idle => f.listen announced
  | .looking => f
  | .asleep => if f.heard < announced then f.listen announced else f

/-- Lets a follower look at the log, if it is about to. -/
def look (log : EventLog) (f : Follower) : Follower :=
  match f.attention with
  | .looking =>
    match log.poll f.feed with
    | .item r rest => { f with feed := rest, attention := .idle, items := f.items ++ [r] }
    | .waiting => { f with attention := .asleep }
    | .ended => { f with attention := .idle }
  | _ => f

/-- A follower may become another: it was opened in the same way, and has not lost an item. -/
structure Precedes (f g : Follower) : Prop where
  start : g.start = f.start
  opened : g.opened = f.opened
  items : f.items <+: g.items

variable {f g h : Follower}

theorem Precedes.refl (f : Follower) : f.Precedes f := ⟨rfl, rfl, List.prefix_refl _⟩

theorem Precedes.trans (h₁ : f.Precedes g) (h₂ : g.Precedes h) : f.Precedes h :=
  ⟨h₂.start.trans h₁.start, h₂.opened.trans h₁.opened, h₁.items.trans h₂.items⟩

theorem precedes_listen (announced : Nat) (f : Follower) : f.Precedes (f.listen announced) :=
  ⟨rfl, rfl, List.prefix_refl _⟩

theorem precedes_ask (announced : Nat) (f : Follower) : f.Precedes (f.ask announced) := by
  unfold ask
  split
  · exact precedes_listen announced f
  · exact .refl f
  · split
    · exact precedes_listen announced f
    · exact .refl f

theorem precedes_look (log : EventLog) (f : Follower) : f.Precedes (f.look log) := by
  unfold look
  split
  · split
    · exact ⟨rfl, rfl, List.prefix_append _ _⟩
    · exact ⟨rfl, rfl, List.prefix_refl _⟩
    · exact ⟨rfl, rfl, List.prefix_refl _⟩
  · exact .refl f

/-- Asking a follower leaves it asleep, or it looks at the log next. -/
theorem ask_cases (announced : Nat) (f : Follower) :
    f.ask announced = f ∧ (f.attention = .asleep → announced ≤ f.heard) ∧ f.attention ≠ .idle ∨
      f.ask announced = f.listen announced := by
  unfold ask
  split
  · exact .inr rfl
  · rename_i ha
    exact .inl ⟨rfl, by simp [ha], by simp [ha]⟩
  · rename_i ha
    split
    · exact .inr rfl
    · rename_i hn
      exact .inl ⟨rfl, fun _ => Nat.not_lt.1 hn, by simp [ha]⟩

end Follower

/-! ## Steps -/

/-- A log, how often something was appended to it without an announcement and with one, and its followers. -/
structure Broadcast where
  log : EventLog
  unannounced : Nat
  announced : Nat
  followers : List Follower

namespace Broadcast

/-- What writers and readers do. -/
inductive Action where
  | append (call : AppendCall)
  /-- An append that has been committed is announced. -/
  | announce
  | openFeed (start : StartPosition)
  /-- Somebody asks a feed for its next item. -/
  | ask (k : Nat)
  /-- A feed that has been asked looks at the log. -/
  | look (k : Nat)

/-- A log that nobody follows. -/
def ofLog (log : EventLog) : Broadcast := ⟨log, 0, 0, []⟩

/-- One step. An append of no events is not announced. -/
def step (codec : Codec) (b : Broadcast) : Action → Broadcast
  | .append call =>
    match b.log.append codec call.stream call.expected call.events with
    | .ok (_, log) => { b with log, unannounced := b.unannounced + if call.events.isEmpty then 0 else 1 }
    | .error _ => b
  | .announce =>
    match b.unannounced with
    | 0 => b
    | due + 1 => { b with unannounced := due, announced := b.announced + 1 }
  | .openFeed start =>
    match b.log.openFeed start with
    | .ok feed => { b with followers := b.followers ++ [.fresh start b.log.size b.announced feed] }
    | .error _ => b
  | .ask k => { b with followers := b.followers.modify k (·.ask b.announced) }
  | .look k => { b with followers := b.followers.modify k (·.look b.log) }

/-- Steps one after the other. -/
def run (codec : Codec) (b : Broadcast) (actions : List Action) : Broadcast := actions.foldl (step codec) b

variable {codec : Codec} {b b' b'' : Broadcast} {a : Action} {f g : Follower} {start : StartPosition} {place i k : Nat}

theorem run_cons (codec : Codec) (b : Broadcast) (a : Action) (actions : List Action) :
    b.run codec (a :: actions) = (b.step codec a).run codec actions := rfl

theorem run_append (codec : Codec) (b : Broadcast) (actions more : List Action) :
    b.run codec (actions ++ more) = (b.run codec actions).run codec more := List.foldl_append

/-- What each step keeps is kept by runs. -/
theorem run_induct {P : Broadcast → Prop} (h : P b) (hstep : ∀ b a, P b → P (b.step codec a)) (actions : List Action) :
    P (b.run codec actions) := by
  induction actions generalizing b with
  | nil => exact h
  | cons a actions ih => exact ih (hstep b a h)

/-! ## What comes later -/

/-- Nothing comes of an append of no events. -/
theorem eq_of_append_nil {log log' : EventLog} {stream : String} {expected : ExpectedVersion} {r : AppendResult}
    (ha : log.append codec stream expected [] = .ok (r, log')) : log' = log := by
  obtain ⟨_, -, ha⟩ := Except.bind_eq_ok_iff.1 ha
  obtain ⟨first, -, ha⟩ := Except.bind_eq_ok_iff.1 ha
  obtain ⟨batch, hb, ha⟩ := Except.bind_eq_ok_iff.1 ha
  cases hb
  cases ha
  rfl

/-- One moment comes after another: documents and announcements stay, and what is new in the log has been announced
since, or is due to be. -/
structure Later (b b' : Broadcast) : Prop where
  documents : b.log.documents <+: b'.log.documents
  announced : b.announced ≤ b'.announced
  due : 0 < b.unannounced ∨ b.log.size < b'.log.size → 0 < b'.unannounced ∨ b.announced < b'.announced

theorem Later.refl (b : Broadcast) : b.Later b where
  documents := List.prefix_refl _
  announced := Nat.le_refl _
  due h := .inl (h.resolve_right (Nat.lt_irrefl _))

theorem Later.trans (h₁ : b.Later b') (h₂ : b'.Later b'') : b.Later b'' where
  documents := h₁.documents.trans h₂.documents
  announced := Nat.le_trans h₁.announced h₂.announced
  due := by
    intro h
    have hann := h₁.announced
    have hann' := h₂.announced
    have hlen : b.log.size ≤ b'.log.size := h₁.documents.length_le
    have hdue := h₁.due
    have hdue' := h₂.due
    omega

theorem later_append (codec : Codec) (b : Broadcast) (call : AppendCall) : b.Later (b.step codec (.append call)) := by
  rw [step]
  split
  · rename_i r log ha
    refine ⟨EventLog.prefix_of_append ha, Nat.le_refl _, ?_⟩
    rintro (h | h)
    · exact .inl (Nat.lt_add_right _ h)
    · cases he : call.events with
      | nil =>
        rw [he] at ha
        rw [eq_of_append_nil ha] at h
        exact absurd h (Nat.lt_irrefl _)
      | cons e es => exact .inl (Nat.succ_pos _)
  · exact .refl b

theorem later_announce (codec : Codec) (b : Broadcast) : b.Later (b.step codec .announce) := by
  rw [step]
  split
  · exact .refl b
  · exact ⟨List.prefix_refl _, Nat.le_succ _, fun _ => .inr (Nat.lt_succ_self _)⟩

/-- What only concerns the followers does not change the log and its announcements. -/
theorem later_of_followers (b : Broadcast) (followers : List Follower) : b.Later { b with followers } :=
  ⟨List.prefix_refl _, Nat.le_refl _, (Later.refl b).due⟩

theorem later_step (codec : Codec) (b : Broadcast) (a : Action) : b.Later (b.step codec a) := by
  cases a with
  | append call => exact later_append codec b call
  | announce => exact later_announce codec b
  | openFeed start =>
    rw [step]
    split
    · exact later_of_followers b _
    · exact .refl b
  | ask k => exact later_of_followers b _
  | look k => exact later_of_followers b _

theorem later_run (codec : Codec) (b : Broadcast) (actions : List Action) : b.Later (b.run codec actions) :=
  run_induct (.refl b) (fun b a h => h.trans (later_step codec b a)) actions

/-! ## What becomes of a follower -/

/-- A step leaves the followers alone, asks one of them, lets one look, or opens a feed. -/
theorem followers_step (codec : Codec) (b : Broadcast) (a : Action) :
    (b.step codec a).followers = b.followers ∨
      (∃ k, (b.step codec a).followers = b.followers.modify k (·.ask b.announced)) ∨
      (∃ k, (b.step codec a).followers = b.followers.modify k (·.look b.log)) ∨
      ∃ start place, start.BeginsAt b.log.size place ∧
        (b.step codec a).followers = b.followers ++ [.fresh start b.log.size b.announced (.ofLog place)] := by
  cases a with
  | append call =>
    rw [step]
    split
    · exact .inl rfl
    · exact .inl rfl
  | announce =>
    rw [step]
    split
    · exact .inl rfl
    · exact .inl rfl
  | openFeed start =>
    rw [step]
    split
    · rename_i feed ho
      obtain ⟨place, hp, rfl⟩ := EventLog.openFeed_eq_ok_iff.1 ho
      exact .inr (.inr (.inr ⟨start, place, hp, rfl⟩))
    · exact .inl rfl
  | ask k => exact .inr (.inl ⟨k, rfl⟩)
  | look k => exact .inr (.inr (.inl ⟨k, rfl⟩))

/-- What a step makes of a follower: the same, one that was asked, or one that looked. -/
def Became (b : Broadcast) (f g : Follower) : Prop := g = f ∨ g = f.ask b.announced ∨ g = f.look b.log

theorem Became.precedes (h : b.Became f g) : f.Precedes g := by
  rcases h with rfl | rfl | rfl
  · exact .refl g
  · exact f.precedes_ask _
  · exact f.precedes_look _

theorem exists_followers_step (hf : b.followers[i]? = some f) (codec : Codec) (a : Action) :
    ∃ g, (b.step codec a).followers[i]? = some g ∧ b.Became f g := by
  rcases followers_step codec b a with h | ⟨k, h⟩ | ⟨k, h⟩ | ⟨start, place, -, h⟩
  · exact ⟨f, h ▸ hf, .inl rfl⟩
  · rw [h, List.getElem?_modify, hf]
    by_cases hk : k = i
    · exact ⟨f.ask b.announced, by simp [hk], .inr (.inl rfl)⟩
    · exact ⟨f, by simp [hk], .inl rfl⟩
  · rw [h, List.getElem?_modify, hf]
    by_cases hk : k = i
    · exact ⟨f.look b.log, by simp [hk], .inr (.inr rfl)⟩
    · exact ⟨f, by simp [hk], .inl rfl⟩
  · rw [h, List.getElem?_append_left (List.getElem?_eq_some_iff.1 hf).1]
    exact ⟨f, hf, .inl rfl⟩

/-- Who follows after a step did so before, or has just opened a feed. -/
theorem followers_step_cases (hg : (b.step codec a).followers[i]? = some g) :
    (∃ f, b.followers[i]? = some f ∧ b.Became f g) ∨
      ∃ start place, start.BeginsAt b.log.size place ∧ g = .fresh start b.log.size b.announced (.ofLog place) := by
  cases hf : b.followers[i]? with
  | some f =>
    obtain ⟨g', hg', hc⟩ := exists_followers_step hf codec a
    rw [hg] at hg'
    cases hg'
    exact .inl ⟨f, rfl, hc⟩
  | none =>
    rcases followers_step codec b a with h | ⟨k, h⟩ | ⟨k, h⟩ | ⟨start, place, hp, h⟩
    · rw [h, hf] at hg
      cases hg
    · rw [h, List.getElem?_modify, hf] at hg
      cases hg
    · rw [h, List.getElem?_modify, hf] at hg
      cases hg
    · rw [h, List.getElem?_append_right (List.getElem?_eq_none_iff.1 hf)] at hg
      exact .inr ⟨start, place, hp, List.mem_singleton.1 (List.mem_of_getElem? hg)⟩

end Broadcast

/-! ## Served followers -/

/-- A follower that began at a place was given the first changes from there on, and goes on behind them. If it sleeps
although there is something for it, then an announcement is due or has not been heard yet. -/
structure Follower.Served (b : Broadcast) (place : Nat) (f : Follower) : Prop where
  begins : f.start.BeginsAt f.opened place
  feed : f.feed = .ofLog (place + f.items.length)
  items : f.items <+: (b.log.changesFrom place).map .ok
  heard : f.heard ≤ b.announced
  awake : f.attention = .asleep → place + f.items.length < b.log.size → 0 < b.unannounced ∨ f.heard < b.announced

namespace Follower

variable {b b' : Broadcast} {f g : Follower} {start : StartPosition} {place : Nat}

theorem served_fresh (h : start.BeginsAt b.log.size place) :
    (fresh start b.log.size b.announced (.ofLog place)).Served b place where
  begins := h
  feed := rfl
  items := List.nil_prefix
  heard := Nat.le_refl _
  awake h := by cases h

theorem Served.later (h : f.Served b place) (hb : b.Later b') : f.Served b' place where
  begins := h.begins
  feed := h.feed
  items := h.items.trans ((EventLog.changesFrom_mono hb.documents place).map _)
  heard := Nat.le_trans h.heard hb.announced
  awake := by
    intro hs hlt
    -- either there was something for it before, or what is there now is new
    have hheard := h.heard
    have hann := hb.announced
    have hdue := hb.due
    have hawake := h.awake hs
    omega

theorem Served.listen (h : f.Served b place) : (f.listen b.announced).Served b place where
  begins := h.begins
  feed := h.feed
  items := h.items
  heard := Nat.le_refl _
  awake h := by cases h

theorem Served.ask (h : f.Served b place) : (f.ask b.announced).Served b place := by
  rcases f.ask_cases b.announced with ⟨ha, -⟩ | ha
  · rw [ha]
    exact h
  · rw [ha]
    exact h.listen

/-- What a follower that looks at the log is given. -/
theorem Served.look_of_some (h : f.Served b place) (hf : f.attention = .looking) {c : Change}
    (hc : b.log.change? (place + f.items.length) = some c) :
    f.look b.log = { f with
      feed := .ofLog (place + f.items.length + 1), attention := .idle, items := f.items ++ [.ok c] } := by
  simp only [look, hf, h.feed, EventLog.poll_ofLog_of_some hc]

theorem Served.look_of_none (h : f.Served b place) (hf : f.attention = .looking)
    (hc : b.log.change? (place + f.items.length) = none) : f.look b.log = { f with attention := .asleep } := by
  simp only [look, hf, h.feed, EventLog.poll_ofLog_of_none hc]

theorem look_of_ne (hf : f.attention ≠ .looking) (log : EventLog) : f.look log = f := by
  unfold look
  split
  · exact absurd ‹_› hf
  · rfl

theorem Served.look (h : f.Served b place) : (f.look b.log).Served b place := by
  by_cases hf : f.attention = .looking
  · cases hc : b.log.change? (place + f.items.length) with
    | some c =>
      rw [h.look_of_some hf hc]
      constructor
      case begins => exact h.begins
      case feed => simp [Nat.add_assoc]
      case items =>
        have hnext : ((b.log.changesFrom place).map (.ok : Change → Except StoreError Change))[f.items.length]? =
            some (.ok c) := by
          simp [hc]
        obtain ⟨hlt, hget⟩ := List.getElem?_eq_some_iff.1 hnext
        rw [← hget]
        exact List.concat_get_prefix h.items hlt
      case heard => exact h.heard
      case awake => exact fun h => by cases h
    | none =>
      rw [h.look_of_none hf hc]
      have hle := EventLog.change?_eq_none_iff.1 hc
      exact ⟨h.begins, h.feed, h.items, h.heard, fun _ hlt => absurd hle (Nat.not_le.2 hlt)⟩
  · rw [look_of_ne hf]
    exact h

/-- One step keeps a follower served. -/
theorem Served.step (h : f.Served b place) (hc : b.Became f g) (codec : Codec) (a : Broadcast.Action) :
    g.Served (b.step codec a) place := by
  have hl := Broadcast.later_step codec b a
  rcases hc with rfl | rfl | rfl
  · exact h.later hl
  · exact h.ask.later hl
  · exact h.look.later hl

end Follower

namespace Broadcast

variable {codec : Codec} {b : Broadcast} {f : Follower} {place i : Nat}

/-- A follower stays, keeps its items, and goes on to be served from its place. -/
theorem exists_served_run (hf : b.followers[i]? = some f) (h : f.Served b place) (codec : Codec)
    (actions : List Action) :
    ∃ g, (b.run codec actions).followers[i]? = some g ∧ g.Served (b.run codec actions) place ∧ f.Precedes g := by
  refine run_induct (P := fun b' => ∃ g, b'.followers[i]? = some g ∧ g.Served b' place ∧ f.Precedes g)
    ⟨f, hf, h, .refl f⟩ ?_ actions
  rintro b' a ⟨g, hg, hs, hfg⟩
  obtain ⟨g', hg', hc⟩ := exists_followers_step hg codec a
  exact ⟨g', hg', hs.step hc codec a, hfg.trans hc.precedes⟩

/-- Every follower is served from its place on. -/
def Serving (b : Broadcast) : Prop :=
  ∀ (i : Nat) (f : Follower), b.followers[i]? = some f → ∃ place, f.Served b place

theorem serving_ofLog (log : EventLog) : (ofLog log).Serving := fun _ _ h => by cases h

theorem Serving.step (h : b.Serving) (codec : Codec) (a : Action) : (b.step codec a).Serving := by
  intro i g hg
  rcases followers_step_cases hg with ⟨f, hf, hc⟩ | ⟨start, place, hp, rfl⟩
  · obtain ⟨place, hs⟩ := h i f hf
    exact ⟨place, hs.step hc codec a⟩
  · exact ⟨place, (Follower.served_fresh hp).later (later_step codec b a)⟩

/-- **Runs**: however writers and readers interleave, every follower is served from its place on. -/
theorem serving_run (codec : Codec) (log : EventLog) (actions : List Action) :
    ((ofLog log).run codec actions).Serving :=
  run_induct (serving_ofLog log) (fun _ a h => h.step codec a) actions

end Broadcast

end Chronicle
