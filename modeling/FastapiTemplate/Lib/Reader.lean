/-
  Reading a text from left to right.

  A reader has a state and gives events while it reads; what it gives for a text
  is what it gives for a part of it, and then for the rest (`rest_append`).
-/
import Mathlib.Data.List.Basic

/-- What reads a text one character at a time; what it still has to say at the end of the text is
    `finish`. -/
structure Reader (ε : Type) where
  State : Type
  start : State
  step : State → Char → State × List ε
  finish : State → List ε

namespace Reader

variable {ε : Type} (r : Reader ε)

/-- The state after a text. -/
def state (s : r.State) : List Char → r.State
  | [] => s
  | c :: text => state (r.step s c).1 text

/-- The events of a text. -/
def output (s : r.State) : List Char → List ε
  | [] => []
  | c :: text => (r.step s c).2 ++ output (r.step s c).1 text

/-- The events of a whole text. -/
def read (text : List Char) : List ε := r.output r.start text ++ r.finish (r.state r.start text)

variable {r} {s : r.State} {old new text : List Char}

@[simp] theorem state_nil : r.state s [] = s := rfl
@[simp] theorem output_nil : r.output s [] = [] := rfl

theorem state_append : r.state s (old ++ text) = r.state (r.state s old) text := by
  induction old generalizing s with
  | nil => rfl
  | cons c old ih => exact ih

theorem output_append :
    r.output s (old ++ text) = r.output s old ++ r.output (r.state s old) text := by
  induction old generalizing s with
  | nil => rfl
  | cons c old ih => rw [List.cons_append, output, output, state, ih, List.append_assoc]

/-- The events of the text that is left, when the reader is in the state. -/
def rest (s : r.State) (text : List Char) : List ε := r.output s text ++ r.finish (r.state s text)

theorem rest_append : rest s (old ++ text) = r.output s old ++ rest (r.state s old) text := by
  rw [rest, rest, output_append, state_append, List.append_assoc]

end Reader
