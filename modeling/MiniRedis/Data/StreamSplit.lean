import Mathlib.Data.List.Basic

namespace MiniRedis.Data

/-! Streams that arrive in pieces, from whose front complete items are taken. -/

variable {α β : Type*}

/-- Takes an item off the front of a stream. Symbols that arrive later do not
change an item that is already complete. -/
structure Splitter (α β : Type*) where
  split : List α → Option (β × List α)
  shrinks : ∀ {stream rest : List α} {item : β},
    split stream = some (item, rest) → rest.length < stream.length
  stable : ∀ {stream rest : List α} {item : β} (later : List α),
    split stream = some (item, rest) →
    split (stream ++ later) = some (item, rest ++ later)

namespace Splitter

variable (splitter : Splitter α β)

/-- All complete items at the front of the stream, and what is left of it. -/
def items (stream : List α) : List β × List α :=
  match _hsplit : splitter.split stream with
  | none => ([], stream)
  | some (item, rest) => (item :: (items rest).1, (items rest).2)
  termination_by stream.length
  decreasing_by all_goals exact splitter.shrinks _hsplit

variable {splitter} {stream rest : List α} {item : β}

theorem items_of_none (h : splitter.split stream = none) :
    splitter.items stream = ([], stream) := by
  rw [items]
  split
  next => rfl
  next hsplit =>
    rw [h] at hsplit
    cases hsplit

theorem items_of_some (h : splitter.split stream = some (item, rest)) :
    splitter.items stream =
      (item :: (splitter.items rest).1, (splitter.items rest).2) := by
  rw [items]
  split
  next hsplit =>
    rw [h] at hsplit
    cases hsplit
  next hsplit =>
    rw [h] at hsplit
    cases hsplit
    rfl

variable (splitter)

/-- Splitting each piece as it arrives gives the items of the whole stream. -/
theorem items_append (stream later : List α) :
    splitter.items (stream ++ later) =
      ((splitter.items stream).1 ++
          (splitter.items ((splitter.items stream).2 ++ later)).1,
        (splitter.items ((splitter.items stream).2 ++ later)).2) := by
  induction stream using items.induct splitter with
  | case1 stream hsplit => simp [items_of_none hsplit]
  | case2 stream item rest hsplit ih =>
      rw [items_of_some hsplit, items_of_some (splitter.stable later hsplit), ih]
      rfl

theorem split_items (stream : List α) :
    splitter.split (splitter.items stream).2 = none := by
  induction stream using items.induct splitter with
  | case1 stream hsplit =>
      rw [items_of_none hsplit]
      exact hsplit
  | case2 stream item rest hsplit ih =>
      rw [items_of_some hsplit]
      exact ih

end Splitter

end MiniRedis.Data
