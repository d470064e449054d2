/-
This file shows that no waiter of a long poll misses the batch that it waits for.
-/

import BunnyMQ.Library.Notification
import BunnyMQ.Proof.Storage.TornTail

namespace BunnyMQ.Storage
open Foundation FileStore Transition Notification StorageImpl

/-- A fetch asks for an offset and a number of bytes. -/
abbrev FetchQuery := Int × Int

/-- An append publishes its data and the next offset together, and a read without batches finds nothing. -/
def appending (cfg : StorageConfig) : Source Serving Bytes FetchQuery where
  publish state batch := state.step cfg (.append batch)
  nothing state query :=
    match state.storage.read state.disk query.1 query.2 with
    | .ok (batches, _) => batches.isEmpty
    | .error _ => false

abbrev LongPolling := Board Serving Nat FetchQuery

/-- The storage has been opened with its first channel, and producers append encoded batches. -/
def longPolling (cfg : StorageConfig) : System LongPolling (Event Bytes Nat FetchQuery) where
  start board := ∃ state, (serving cfg).Reaches Orderly state ∧ Board.opened state = board
  step board event next :=
    (∀ batch, event = .publish batch → Encoded (.append batch)) ∧ board.step (appending cfg) event = some next

/-- Batches, positions and offsets keep to their widths. -/
def Fitting (board : LongPolling) : Event Bytes Nat FetchQuery → Prop
  | .publish batch => Orderly board.content (.append batch)
  | .swap => True
  | .close => True
  | .enter _ _ => True
  | .take _ => True
  | .look _ => True
  | .wake _ => True
  | .leave _ => True

instance fittingDecidable (board : LongPolling) : (event : Event Bytes Nat FetchQuery) → Decidable (Fitting board event)
  | .publish batch => inferInstanceAs (Decidable (Orderly board.content (.append batch)))
  | .swap => .isTrue trivial
  | .close => .isTrue trivial
  | .enter _ _ => .isTrue trivial
  | .take _ => .isTrue trivial
  | .look _ => .isTrue trivial
  | .wake _ => .isTrue trivial
  | .leave _ => .isTrue trivial

section
variable {cfg : StorageConfig} {state : Serving}

/-- A read that returns no batch of a readable log is at or behind its latest offset. -/
theorem Serving.Holds.latest_le (indexable : cfg.Indexable) (holds : state.Holds cfg) {query : FetchQuery}
    (nothing : (appending cfg).nothing state query = true) : state.storage.latestOffset ≤ query.1 := by
  by_contra! below
  have earliest : state.storage.earliestOffset ≤ query.1 := by
    obtain ⟨log, rep, _⟩ := holds
    obtain ⟨closed, segments, _⟩ := rep.handles
    cases stored : state.storage.segments with
    | nil =>
      rw [stored] at segments
      exact absurd segments.symm (List.append_ne_nil_of_right_ne_nil _ (List.cons_ne_nil _ _))
    | cons first later =>
      by_contra! early
      simp only [earliestOffset, stored] at early
      simp only [appending, StorageImpl.read, stored, if_pos early] at nothing
      cases nothing
  obtain ⟨first, rest, nextOffset, read, _, base, inside, _⟩ :=
    (holds.covers indexable).progress query.1 query.2 earliest below
  simp only [appending, read, List.isEmpty_iff, List.flatten_cons, List.append_eq_nil_iff] at nothing
  rw [nothing.1] at base inside
  have empty : endOffsetOf [] ≤ baseOffsetOf [] := by decide
  omega

/-- A step of a long poll leaves a readable log. -/
theorem holds_of_event (indexable : cfg.Indexable) {board next : LongPolling} (holds : board.content.Holds cfg)
    {event : Event Bytes Nat FetchQuery} (encoded : ∀ batch, event = .publish batch → Encoded (.append batch))
    (fitting : Fitting board event) (moved : board.step (appending cfg) event = some next) :
    next.content.Holds cfg := by
  rcases Board.content_step moved with kept | ⟨batch, rfl, published⟩
  · rw [kept]
    exact holds
  · obtain ⟨after, stepped, kept⟩ := holds.step indexable (encoded batch rfl) fitting
    change board.content.step cfg (.append batch) = some next.content at published
    rw [published] at stepped
    cases stepped
    exact kept

end

/-- In every interleaving a waiter whose channel stays open is at or behind the latest offset, and no channel is
closed twice. -/
theorem no_wakeup_lost (cfg : StorageConfig) (indexable : cfg.Indexable) (board : LongPolling)
    (reached : (longPolling cfg).Reaches Fitting board) :
    (∀ waiter offset maxBytes channel, board.waiters waiter = .blocked (offset, maxBytes) channel →
      channel ∉ board.closed → ¬ board.Closing channel → board.content.storage.latestOffset ≤ offset) ∧
      board.closed.Nodup := by
  have kept : board.Settled (appending cfg) ∧ board.content.Holds cfg := by
    refine @System.Reaches.invariant _ _ _ _
      (fun board => board.Settled (appending cfg) ∧ board.content.Holds cfg) ?_ ?_ _ reached
    · rintro _ ⟨state, served, rfl⟩
      exact ⟨Board.settled_opened _ _, Serving.holds_of_reaches indexable served⟩
    · intro board event next kept fitting step
      obtain ⟨settled, holds⟩ := kept
      obtain ⟨encoded, moved⟩ := step
      exact ⟨settled.step moved, holds_of_event indexable holds encoded fitting moved⟩
  obtain ⟨settled, holds⟩ := kept
  refine ⟨?_, settled.once⟩
  intro waiter offset maxBytes channel blocked unclosed untouched
  exact holds.latest_le indexable (settled.nothing_new blocked unclosed untouched)

/-- A step that publishes nothing needs no encoded batch. -/
theorem reaches_quiet {cfg : StorageConfig} {board next : LongPolling} (event : Event Bytes Nat FetchQuery)
    (reached : (longPolling cfg).Reaches System.Free board) (moved : board.step (appending cfg) event = some next)
    (quiet : ∀ batch, event ≠ .publish batch) : (longPolling cfg).Reaches System.Free next :=
  reached.step trivial ⟨fun batch same => absurd same (quiet batch), moved⟩

/-- A publication of a producer that nothing disturbs. -/
theorem reaches_published {cfg : StorageConfig} {board : LongPolling} {batch : Bytes} {next : Serving}
    (reached : (longPolling cfg).Reaches System.Free board) (idle : board.phase = .idle)
    (encoded : Encoded (.append batch)) (appended : board.content.step cfg (.append batch) = some next) :
    (longPolling cfg).Reaches System.Free ⟨next, board.current + 1, board.current :: board.closed, .idle,
      board.waiters⟩ := by
  have published : board.step (appending cfg) (.publish batch) =
      some { board with content := next, phase := .published } := by
    rw [Board.step, if_pos idle]
    exact congrArg (Option.map _) appended
  have first := reached.step trivial
    (show (longPolling cfg).step board (.publish batch) _ from ⟨fun _ same => by cases same; exact encoded, published⟩)
  have second := reaches_quiet .swap first rfl (by simp)
  exact reaches_quiet .close second rfl (by simp)

/-- A waiter for the batch that starts behind two gigabytes reads nothing and stays blocked. -/
theorem wakeup_lost_behind_two_gigabytes : ∃ board, (longPolling wideConfig).Reaches System.Free board ∧
    board.waiters 1 = .blocked (2, 1000) 3 ∧ 3 ∉ board.closed ∧ ¬ board.Closing 3 ∧
      board.content.storage.latestOffset = 3 := by
  obtain ⟨fresh, full, _, _, opened, followed, latest, reads, _⟩ :=
    wide_reopen gigabyteBatch_encoded recordCountOf_gigabyteBatch length_gigabyteBatch.1 length_gigabyteBatch.2
  have encoded : Encoded (.append gigabyteBatch) := gigabyteBatch_encoded.encoded
  generalize gigabyteBatch = wide at followed encoded
  simp only [List.map_cons, List.map_nil, follow, Option.bind_eq_some_iff] at followed
  obtain ⟨one, first, two, second, last, third, same⟩ := followed
  cases same
  have started : (longPolling wideConfig).Reaches System.Free (Board.opened fresh) := .start ⟨fresh, .start opened, rfl⟩
  have published : (longPolling wideConfig).Reaches System.Free ⟨full, 3, [2, 1, 0], .idle, fun _ => .outside⟩ :=
    reaches_published (reaches_published (reaches_published started rfl encoded first) rfl encoded second) rfl
      (stampedBatch_encoded 0) third
  have entered := reaches_quiet (.enter 1 (2, 1000)) published rfl (by simp)
  have taken := reaches_quiet (.take 1) entered rfl (by simp)
  have blocked := reaches_quiet (.look 1) taken rfl (by simp)
  have nothing : (appending wideConfig).nothing full (2, 1000) = true := by simp [appending, reads]
  refine ⟨_, blocked, ?_, show 3 ∉ [2, 1, 0] by decide, ?_, latest⟩
  · rw [Board.waiters_move_self]
    exact if_pos nothing
  · rintro (⟨moving, _⟩ | moving)
    · cases moving
    · cases moving

/-- The first waiter looks before the append and is woken, the second one takes its channel between the append and
the swap, and the first one blocks again behind the new data. -/
def pollingEvents : List (Event Bytes Nat FetchQuery) :=
  [.enter 1 (0, 100), .take 1, .look 1, .publish (stampedBatch 0), .enter 2 (1, 100), .take 2, .look 2, .swap,
    .close, .wake 1, .take 1, .look 1, .enter 1 (1, 100), .take 1, .look 1]

def pollingBoard : LongPolling :=
  (follow (Board.step (appending smallConfig)) (Board.opened freshServing) pollingEvents).get (by decide +kernel)

theorem no_wakeup_lost_two_waiters :
    pollingBoard.waiters 1 = .blocked (1, 100) 1 ∧ pollingBoard.waiters 2 = .blocked (1, 100) 0 ∧
      pollingBoard.closed = [0] ∧ pollingBoard.content.storage.latestOffset ≤ 1 ∧ pollingBoard.closed.Nodup := by
  have steps : ∀ event ∈ pollingEvents, ∀ board after : LongPolling,
      board.step (appending smallConfig) event = some after → (longPolling smallConfig).step board event after := by
    intro event member board after moved
    refine ⟨?_, moved⟩
    rintro batch rfl
    simp only [pollingEvents, List.mem_cons, Event.publish.injEq, reduceCtorEq, false_or, List.not_mem_nil,
      or_false] at member
    rw [member]
    exact stampedBatch_encoded 0
  have reached : (longPolling smallConfig).Reaches Fitting pollingBoard :=
    System.Reaches.follow steps (.start ⟨_, .start freshServing_start, rfl⟩)
      (by decide +kernel : permits _ Fitting _ _) (Option.some_get _).symm
  obtain ⟨latest, once⟩ := no_wakeup_lost smallConfig smallConfig_indexable pollingBoard reached
  have blocked : pollingBoard.waiters 1 = .blocked (1, 100) 1 := by decide +kernel
  exact ⟨blocked, by decide +kernel, by decide +kernel,
    latest 1 1 100 1 blocked (by decide +kernel) (by decide +kernel), once⟩

end BunnyMQ.Storage
