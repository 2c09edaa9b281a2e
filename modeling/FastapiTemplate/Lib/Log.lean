/-
  Programs whose calls are recorded with their answers: what may be called is
  judged by what was answered before.
-/
import FastapiTemplate.Lib.Pool
import Mathlib.Data.List.Infix

namespace Effects

variable {C : Type} {R : C → Type} {ε : Type}

/-- The calls of a run with their answers, newest first. -/
abbrev Log (C : Type) (R : C → Type) (ε : Type) := List ((c : C) × Except ε (R c))

/-- Every call is permitted and may be answered in any way. -/
def logging : Spec C R ε (Log C R ε) where
  can _ _ := True
  next log c r log' := log' = ⟨c, r⟩ :: log

/-- At most `n` calls were made after `log`, each allowed by what was answered before it. -/
inductive Adds (P : Log C R ε → C → Prop) (log : Log C R ε) : ℕ → Log C R ε → Prop
  | refl {n} : Adds P log n log
  | call {n log' c r} : Adds P log n log' → P log' c → Adds P log (n + 1) (⟨c, r⟩ :: log')

namespace Adds

variable {P Q : Log C R ε → C → Prop} {m n : ℕ} {log log' log'' : Log C R ε}

theorem suffix (h : Adds P log n log') : log <:+ log' := by
  induction h with
  | refl => exact List.suffix_refl log
  | call _ _ ih => exact ih.trans (List.suffix_cons ..)

theorem mono_le (h : Adds P log m log') (hmn : m ≤ n) : Adds P log n log' := by
  induction h generalizing n with
  | refl => exact .refl
  | call _ hc ih =>
    obtain ⟨n, rfl⟩ := Nat.exists_eq_add_of_lt (Nat.lt_of_succ_le hmn)
    exact .call (ih (by omega)) hc

theorem trans (h : Adds P log m log') (h' : Adds P log' n log'') : Adds P log (m + n) log'' := by
  induction h' with
  | refl => exact h.mono_le (Nat.le_add_right ..)
  | call _ hc ih => exact .call ih hc

theorem imp (h : Adds P log n log') (hPQ : ∀ l c, log <:+ l → P l c → Q l c) :
    Adds Q log n log' := by
  induction h with
  | refl => exact .refl
  | call h hc ih => exact .call ih (hPQ _ _ h.suffix hc)

/-- Every call of the log was allowed when it was made. -/
theorem allowed {c : C} {r : Except ε (R c)} (h : Adds P [] n log')
    (hsuffix : ⟨c, r⟩ :: log <:+ log') :
    P log c ∧ ∃ m < n, Adds P [] m log := by
  induction h with
  | refl => exact absurd (List.suffix_nil.1 hsuffix) (List.cons_ne_nil _ _)
  | call h hc ih =>
    rcases List.suffix_cons_iff.1 hsuffix with heq | hsuffix
    · cases heq
      exact ⟨hc, _, Nat.lt_succ_self _, h⟩
    · obtain ⟨hallowed, m, hm, hadds⟩ := ih hsuffix
      exact ⟨hallowed, m, Nat.lt_succ_of_lt hm, hadds⟩

end Adds

/-- **One call**: it is recorded with its answer. -/
theorem wp_perform_logging {c : C} {Q : Except ε (R c) → Log C R ε → Prop} {log : Log C R ε} :
    wp logging (Prog.perform c) Q log ↔ ∀ r, Q r (⟨c, r⟩ :: log) := by
  rw [wp_perform]
  constructor
  · intro h r
    exact h.2 r _ rfl
  · intro h
    refine ⟨trivial, ?_⟩
    rintro r _ rfl
    exact h r

/-! ## Allowed calls -/

/-- A history of at most `n` calls, each allowed by what was answered before, with answers that are
    given. -/
structure Recorded (P : Log C R ε → C → Prop) (answer : (c : C) → Except ε (R c) → Prop) (n : ℕ)
    (log : Log C R ε) : Prop where
  adds : Adds P [] n log
  answers : ∀ e ∈ log, answer e.1 e.2

/-- At most `n` calls, each allowed after the history of the others. -/
def recorded (P : Log C R ε → C → Prop) (answer : (c : C) → Except ε (R c) → Prop) (n : ℕ) :
    Spec C R ε (Log C R ε) where
  can log c := P log c ∧ ∃ m < n, Recorded P answer m log
  next log c r log' := answer c r ∧ log' = ⟨c, r⟩ :: log

section
variable {α : Type} [Inhabited ε] {P : Log C R ε → C → Prop}
    {answer : (c : C) → Except ε (R c) → Prop} {n : ℕ}
  {p : Prog C R ε α} {Q : Except ε α → Log C R ε → Prop} {log : Log C R ε}

theorem exists_of_wp_logging (h : wp logging p Q log) : ∃ out log', log <:+ log' ∧ Q out log' := by
  induction p generalizing log with
  | ret a => exact ⟨.ok a, log, List.suffix_refl log, h⟩
  | raise e => exact ⟨.error e, log, List.suffix_refl log, h⟩
  | call c k ih =>
    obtain ⟨out, log', hsuffix, hq⟩ := ih (.error default) (h.2 _ _ rfl)
    exact ⟨out, log', (List.suffix_cons ..).trans hsuffix, hq⟩

/-- **A program that only adds to its log what is allowed** makes allowed calls only. -/
theorem wp_recorded (h : wp logging p (fun out log' => Adds P [] n log' ∧ Q out log') log)
    (hlog : ∀ e ∈ log, answer e.1 e.2) :
    wp (recorded P answer n) p (fun out log' => Recorded P answer n log' ∧ Q out log') log := by
  induction p generalizing log with
  | ret | raise => exact ⟨⟨h.1, hlog⟩, h.2⟩
  | call c k ih =>
    -- the call is in the log of some run to the end
    obtain ⟨out, log', hsuffix, hadds, -⟩ := exists_of_wp_logging (h.2 (.error default) _ rfl)
    obtain ⟨hallowed, m, hm, hadds⟩ := hadds.allowed hsuffix
    refine ⟨⟨hallowed, m, hm, hadds, hlog⟩, ?_⟩
    rintro r _ ⟨hanswer, rfl⟩
    exact ih r (h.2 r _ rfl) (List.forall_mem_cons.2 ⟨hanswer, hlog⟩)

/-- **The calls of a pool** of such programs, whatever their order. -/
theorem Pool.Keeps.recorded {ι : Type} {task : ι → Prog C R ε α} {P : ι → Log C R ε → C → Prop}
    {Q : ι → Except ε α → Log C R ε → Prop} {workers : ℕ} {entries : List ι} {pool : Pool ι C R ε α}
    (h : ∀ i, wp logging (task i) (fun out log => Adds (P i) [] n log ∧ Q i out log) [])
    (hpool : Pool.Reachable workers task answer entries pool) :
    pool.Keeps task (fun i => Effects.recorded (P i) answer n)
      (fun i out log => Recorded (P i) answer n log ∧ Q i out log) [] :=
  .of_reachable (fun _ _ _ _ hanswer => ⟨_, hanswer, rfl⟩)
    (fun i _ => wp_recorded (h i) fun _ he => absurd he List.not_mem_nil) hpool

end

end Effects
