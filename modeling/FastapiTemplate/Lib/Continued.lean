/-
  Finite sequences continued for ever by one value, and their lexicographic
  order (`pad_lt_iff`): comparing two of them takes no more than to bring the
  shorter one to the length of the other.
-/
import Mathlib.Data.List.Lex
import Mathlib.Order.PiLex

namespace Continued

variable {α : Type*} {d : α} {x y : α} {xs ys : List α} {n : ℕ}

/-- The sequence that goes on with `d`. -/
def seq (d : α) (xs : List α) : Lex (ℕ → α) := toLex fun i => xs.getD i d

/-- The list brought to a length. -/
def pad (d : α) (n : ℕ) (xs : List α) : List α := xs ++ List.replicate (n - xs.length) d

theorem length_pad (h : xs.length ≤ n) : (pad d n xs).length = n := by
  rw [pad, List.length_append, List.length_replicate]
  omega

@[simp] theorem seq_nil (i : ℕ) : seq d [] i = d := rfl

@[simp] theorem seq_cons_zero : seq d (x :: xs) 0 = x := rfl

@[simp] theorem seq_cons_succ (i : ℕ) : seq d (x :: xs) (i + 1) = seq d xs i := rfl

/-- What is continued anyway may be written out. -/
theorem seq_append_replicate : seq d (xs ++ List.replicate n d) = seq d xs := by
  funext i
  induction xs generalizing i with
  | nil =>
    rw [List.nil_append, seq_nil, seq, Pi.toLex_apply, List.getD_eq_getElem?_getD,
      List.getElem?_replicate]
    split_ifs <;> rfl
  | cons x xs ih =>
    cases i with
    | zero => rfl
    | succ i => exact ih i

theorem seq_pad : seq d (pad d n xs) = seq d xs := seq_append_replicate

section
variable [LinearOrder α]

/-- The first values decide, unless they are equal. -/
theorem seq_cons_lt_iff : seq d (x :: xs) < seq d (y :: ys) ↔
    x < y ∨ x = y ∧ seq d xs < seq d ys := by
  constructor
  · rintro ⟨i, heq, hlt⟩
    cases i with
    | zero => exact .inl hlt
    | succ i => exact .inr ⟨heq 0 i.succ_pos, i, fun j hj => heq (j + 1) (Nat.succ_lt_succ hj), hlt⟩
  · rintro (hlt | ⟨rfl, i, heq, hlt⟩)
    · exact ⟨0, fun j hj => absurd hj j.not_lt_zero, hlt⟩
    · refine ⟨i + 1, fun j hj => ?_, hlt⟩
      cases j with
      | zero => rfl
      | succ j => exact heq j (Nat.lt_of_succ_lt_succ hj)

/-- Lists of one length are ordered as their sequences. -/
theorem lt_iff_seq_lt (h : xs.length = ys.length) : xs < ys ↔ seq d xs < seq d ys := by
  induction xs generalizing ys with
  | nil =>
    obtain rfl := List.eq_nil_of_length_eq_zero h.symm
    constructor
    · intro hlt
      cases hlt
    · exact fun hlt => absurd hlt (lt_irrefl _)
  | cons x xs ih =>
    cases ys with
    | nil => cases h
    | cons y ys => rw [List.cons_lt_cons_iff, seq_cons_lt_iff, ih (Nat.succ.inj h)]

/-- **Padding compares sequences**: to any length that neither list exceeds. -/
theorem pad_lt_iff (hxs : xs.length ≤ n) (hys : ys.length ≤ n) :
    pad d n xs < pad d n ys ↔ seq d xs < seq d ys := by
  rw [lt_iff_seq_lt (d := d) ((length_pad hxs).trans (length_pad hys).symm), seq_pad, seq_pad]

end

end Continued
