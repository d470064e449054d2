/-
This file describes a writer that wakes waiters by replacing and closing a channel behind each publication.
-/

import BunnyMQ.Library.Transition
import Mathlib.Logic.Function.Basic

namespace Foundation.Notification

/-- An update publishes new content, and a look at the content may find nothing yet. -/
structure Source (Content Update Query : Type) where
  publish : Content → Update → Option Content
  nothing : Content → Query → Bool

/-- A publication is followed by the swap of the channel and the close of the old one. -/
inductive Phase where
  | idle
  | published
  | swapped (old : Nat)
  deriving DecidableEq, Repr

/-- A waiter holds its channel before it looks at the content. -/
inductive Position (Query : Type) where
  | outside
  | ready (query : Query)
  | holding (query : Query) (channel : Nat)
  | blocked (query : Query) (channel : Nat)
  deriving DecidableEq, Repr

/-- Channels are numbered as they are made, and the closed ones are listed with the latest first. -/
structure Board (Content Waiter Query : Type) where
  content : Content
  current : Nat
  closed : List Nat
  phase : Phase
  waiters : Waiter → Position Query

inductive Event (Update Waiter Query : Type) where
  | publish (update : Update)
  | swap
  | close
  | enter (waiter : Waiter) (query : Query)
  | take (waiter : Waiter)
  | look (waiter : Waiter)
  | wake (waiter : Waiter)
  | leave (waiter : Waiter)

variable {Content Update Waiter Query : Type}

def Position.channel? : Position Query → Option Nat
  | .outside => none
  | .ready _ => none
  | .holding _ channel => some channel
  | .blocked _ channel => some channel

namespace Board

def opened (content : Content) : Board Content Waiter Query := ⟨content, 0, [], .idle, fun _ => .outside⟩

/-- A publication in progress will close this channel. -/
def Closing (board : Board Content Waiter Query) (channel : Nat) : Prop :=
  (board.phase = .published ∧ channel = board.current) ∨ board.phase = .swapped channel

instance (board : Board Content Waiter Query) (channel : Nat) : Decidable (board.Closing channel) :=
  inferInstanceAs (Decidable (_ ∨ _))

variable [DecidableEq Waiter]

def move (board : Board Content Waiter Query) (waiter : Waiter) (position : Position Query) :
    Board Content Waiter Query :=
  { board with waiters := Function.update board.waiters waiter position }

@[simp] theorem waiters_move_self (board : Board Content Waiter Query) (waiter : Waiter) (position : Position Query) :
    (board.move waiter position).waiters waiter = position := Function.update_self _ _ _

theorem waiters_move_of_ne {waiter other : Waiter} (differ : other ≠ waiter) (board : Board Content Waiter Query)
    (position : Position Query) : (board.move waiter position).waiters other = board.waiters other :=
  Function.update_of_ne differ _ _

/-- The three steps of the writer come one after the other, and a waiter may give up anywhere. -/
def step (source : Source Content Update Query) (board : Board Content Waiter Query) :
    Event Update Waiter Query → Option (Board Content Waiter Query)
  | .publish update =>
    if board.phase = .idle then
      (source.publish board.content update).map fun content => { board with content := content, phase := .published }
    else none
  | .swap =>
    if board.phase = .published then
      some { board with current := board.current + 1, phase := .swapped board.current }
    else none
  | .close =>
    match board.phase with
    | .swapped old => some { board with closed := old :: board.closed, phase := .idle }
    | .idle => none
    | .published => none
  | .enter waiter query =>
    match board.waiters waiter with
    | .outside => some (board.move waiter (.ready query))
    | _ => none
  | .take waiter =>
    match board.waiters waiter with
    | .ready query => some (board.move waiter (.holding query board.current))
    | _ => none
  | .look waiter =>
    match board.waiters waiter with
    | .holding query channel =>
      some (board.move waiter (if source.nothing board.content query then .blocked query channel else .outside))
    | _ => none
  | .wake waiter =>
    match board.waiters waiter with
    | .blocked query channel => if channel ∈ board.closed then some (board.move waiter (.ready query)) else none
    | _ => none
  | .leave waiter => some (board.move waiter .outside)

/-- The earlier channels are closed but for the one whose close is due. A waiter that is blocked on the current
channel has found nothing in the current content. -/
structure Settled (source : Source Content Update Query) (board : Board Content Waiter Query) : Prop where
  earlier : ∀ channel, channel < board.current → channel ∈ board.closed ∨ board.phase = .swapped channel
  below : ∀ channel ∈ board.closed, channel < board.current
  due : ∀ old, board.phase = .swapped old → old < board.current ∧ old ∉ board.closed
  once : board.closed.Nodup
  known : ∀ waiter channel, (board.waiters waiter).channel? = some channel → channel ≤ board.current
  fresh : ∀ waiter query, board.waiters waiter = .blocked query board.current → board.phase ≠ .published →
    source.nothing board.content query = true

variable {source : Source Content Update Query} {board next : Board Content Waiter Query}

omit [DecidableEq Waiter] in
theorem settled_opened (source : Source Content Update Query) (content : Content) :
    (opened content : Board Content Waiter Query).Settled source where
  earlier channel before := absurd before (Nat.not_lt_zero channel)
  below _ listed := absurd listed List.not_mem_nil
  due _ swapped := absurd swapped nofun
  once := List.nodup_nil
  known _ _ taken := absurd taken nofun
  fresh _ _ blocked := absurd blocked nofun

/-- A waiter may move to a position whose channel exists and whose block has found nothing. -/
theorem Settled.move (settled : board.Settled source) (waiter : Waiter) {position : Position Query}
    (known : ∀ channel, position.channel? = some channel → channel ≤ board.current)
    (fresh : ∀ query, position = .blocked query board.current → source.nothing board.content query = true) :
    (board.move waiter position).Settled source where
  earlier := settled.earlier
  below := settled.below
  due := settled.due
  once := settled.once
  known other channel taken := by
    by_cases same : other = waiter
    · subst same
      rw [waiters_move_self] at taken
      exact known channel taken
    · rw [waiters_move_of_ne same] at taken
      exact settled.known other channel taken
  fresh other query blocked quiet := by
    by_cases same : other = waiter
    · subst same
      rw [waiters_move_self] at blocked
      exact fresh query blocked
    · rw [waiters_move_of_ne same] at blocked
      exact settled.fresh other query blocked quiet

omit [DecidableEq Waiter] in
theorem Settled.publish (settled : board.Settled source) (idle : board.phase = .idle) (content : Content) :
    ({ board with content := content, phase := .published } : Board Content Waiter Query).Settled source where
  earlier channel before := by
    rcases settled.earlier channel before with closed | swapped
    · exact .inl closed
    · rw [idle] at swapped
      cases swapped
  below := settled.below
  due old swapped := absurd swapped nofun
  once := settled.once
  known := settled.known
  fresh waiter query blocked quiet := absurd rfl quiet

omit [DecidableEq Waiter] in
/-- The new channel has no waiter yet. -/
theorem Settled.swap (settled : board.Settled source) (published : board.phase = .published) :
    ({ board with current := board.current + 1, phase := .swapped board.current } :
      Board Content Waiter Query).Settled source where
  earlier channel before := by
    rcases Nat.lt_succ_iff_lt_or_eq.mp before with earlier | rfl
    · rcases settled.earlier channel earlier with closed | swapped
      · exact .inl closed
      · rw [published] at swapped
        cases swapped
    · exact .inr rfl
  below channel listed := Nat.lt_succ_of_lt (settled.below channel listed)
  due old swapped := by
    cases swapped
    exact ⟨Nat.lt_succ_self _, fun listed => Nat.lt_irrefl _ (settled.below _ listed)⟩
  once := settled.once
  known waiter channel taken := Nat.le_succ_of_le (settled.known waiter channel taken)
  fresh waiter query blocked _ := by
    have taken := settled.known waiter (board.current + 1)
    rw [blocked] at taken
    exact absurd (taken rfl) (Nat.not_succ_le_self _)

omit [DecidableEq Waiter] in
theorem Settled.close (settled : board.Settled source) {old : Nat} (swapped : board.phase = .swapped old) :
    ({ board with closed := old :: board.closed, phase := .idle } : Board Content Waiter Query).Settled source where
  earlier channel before := by
    rcases settled.earlier channel before with closed | due
    · exact .inl (List.mem_cons_of_mem _ closed)
    · rw [swapped] at due
      cases due
      exact .inl List.mem_cons_self
  below channel listed := by
    rcases List.mem_cons.mp listed with rfl | listed
    · exact (settled.due _ swapped).1
    · exact settled.below channel listed
  due other due := absurd due nofun
  once := List.nodup_cons.mpr ⟨(settled.due old swapped).2, settled.once⟩
  known := settled.known
  fresh waiter query blocked _ := settled.fresh waiter query blocked (by rw [swapped]; nofun)

/-- Only a publication changes the content. -/
theorem content_step {event : Event Update Waiter Query} (moved : board.step source event = some next) :
    next.content = board.content ∨
      ∃ update, event = .publish update ∧ source.publish board.content update = some next.content := by
  cases event with
  | publish update =>
    obtain ⟨_, moved⟩ := Option.ite_none_right_eq_some.mp moved
    obtain ⟨content, published, rfl⟩ := Option.map_eq_some_iff.mp moved
    exact .inr ⟨update, rfl, published⟩
  | swap | close | enter waiter query | take waiter | look waiter | wake waiter | leave waiter =>
    left
    simp only [Board.step] at moved
    grind [Board.move]

/-- Every step of the writer and of a waiter keeps the board settled. -/
theorem Settled.step (settled : board.Settled source) {event : Event Update Waiter Query}
    (moved : board.step source event = some next) : next.Settled source := by
  cases event with
  | publish update =>
    obtain ⟨idle, moved⟩ := Option.ite_none_right_eq_some.mp moved
    obtain ⟨content, _, rfl⟩ := Option.map_eq_some_iff.mp moved
    exact settled.publish idle content
  | swap =>
    obtain ⟨published, moved⟩ := Option.ite_none_right_eq_some.mp moved
    cases moved
    exact settled.swap published
  | close =>
    simp only [Board.step] at moved
    split at moved
    · next swapped =>
      cases moved
      exact settled.close swapped
    · cases moved
    · cases moved
  | enter waiter query =>
    simp only [Board.step] at moved
    split at moved
    · cases moved
      exact settled.move waiter nofun nofun
    · cases moved
  | take waiter =>
    simp only [Board.step] at moved
    split at moved
    · cases moved
      refine settled.move waiter ?_ nofun
      rintro channel ⟨⟩
      exact Nat.le_refl _
    · cases moved
  | look waiter =>
    simp only [Board.step] at moved
    split at moved
    · next query channel holding =>
      cases moved
      have taken := settled.known waiter channel (by rw [holding]; rfl)
      split
      · next nothing =>
        refine settled.move waiter ?_ ?_
        · rintro same ⟨⟩
          exact taken
        · rintro same ⟨⟩
          exact nothing
      · exact settled.move waiter nofun nofun
    · cases moved
  | wake waiter =>
    simp only [Board.step] at moved
    split at moved
    · obtain ⟨_, moved⟩ := Option.ite_none_right_eq_some.mp moved
      cases moved
      exact settled.move waiter nofun nofun
    · cases moved
  | leave waiter =>
    cases moved
    exact settled.move waiter nofun nofun

omit [DecidableEq Waiter] in
/-- A waiter whose channel stays open has found nothing in what is published. -/
theorem Settled.nothing_new (settled : board.Settled source) {waiter : Waiter} {query : Query} {channel : Nat}
    (blocked : board.waiters waiter = .blocked query channel) (unclosed : channel ∉ board.closed)
    (kept : ¬ board.Closing channel) : source.nothing board.content query = true := by
  have known := settled.known waiter channel (by rw [blocked]; rfl)
  rcases Nat.lt_or_eq_of_le known with earlier | rfl
  · rcases settled.earlier channel earlier with closed | due
    · exact absurd closed unclosed
    · exact absurd (.inr due) kept
  · exact settled.fresh waiter query blocked fun published => kept (.inl ⟨published, rfl⟩)

end Board

end Foundation.Notification
