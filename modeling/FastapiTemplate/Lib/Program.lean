/-
  Programs that call an environment and may raise: syntax, the monad, and
  weakest preconditions against a transition system that answers the calls.

  A program of type `Prog C R ε α` calls `c : C`, is answered in `R c` or by an
  exception of type `ε`, and finally returns an `α` or raises.  A `Spec` says
  which calls are permitted in a state and how an answer changes it; `wp` is
  the weakest precondition for all answers the specification allows.
-/
import Mathlib.Data.Set.Basic

namespace Effects

/-- Programs over calls `c : C` answered in `R c`, returning `α` or raising `ε`. -/
inductive Prog (C : Type) (R : C → Type) (ε α : Type) : Type
  | ret (a : α)
  | raise (e : ε)
  | call (c : C) (k : Except ε (R c) → Prog C R ε α)

namespace Prog

variable {C : Type} {R : C → Type} {ε α β : Type}

/-- Sequencing: an exception of the first program skips the second. -/
def bind : Prog C R ε α → (α → Prog C R ε β) → Prog C R ε β
  | ret a, f => f a
  | raise e, _ => raise e
  | call c k, f => call c fun r => (k r).bind f

/-- `try p except e: h e`. -/
def handle : Prog C R ε α → (ε → Prog C R ε α) → Prog C R ε α
  | ret a, _ => ret a
  | raise e, h => h e
  | call c k, h => call c fun r => (k r).handle h

/-- Run a program and return how it ended. -/
def attempt : Prog C R ε α → Prog C R ε (Except ε α)
  | ret a => ret (.ok a)
  | raise e => ret (.error e)
  | call c k => call c fun r => (k r).attempt

/-- The program that ends as `r` says. -/
def ofExcept : Except ε α → Prog C R ε α
  | .ok a => ret a
  | .error e => raise e

/-- A single call whose exceptional answer is raised. -/
def perform (c : C) : Prog C R ε (R c) := call c ofExcept

instance : Monad (Prog C R ε) where
  pure := ret
  bind := bind

instance : MonadExceptOf ε (Prog C R ε) where
  throw := raise
  tryCatch := handle

end Prog

/-! ## Exceptions -/

section
variable {C : Type} {R : C → Type} {ε α β : Type}

/-- Every run of the program raises. -/
inductive Raises : Prog C R ε α → Prop
  | raise (e : ε) : Raises (.raise e)
  | call {c : C} {k : Except ε (R c) → Prog C R ε α} : (∀ r, Raises (k r)) → Raises (.call c k)

/-- A run that gets an exception raises: none is swallowed. -/
inductive Strict : Prog C R ε α → Prop
  | ret (a : α) : Strict (.ret a)
  | raise (e : ε) : Strict (.raise e)
  | call {c : C} {k : Except ε (R c) → Prog C R ε α} : (∀ a, Strict (k (.ok a))) →
      (∀ e, Raises (k (.error e))) → Strict (.call c k)

namespace Raises

theorem bind {p : Prog C R ε α} (h : Raises p) (f : α → Prog C R ε β) : Raises (p >>= f) := by
  induction h with
  | raise e => exact .raise e
  | call _ ih => exact .call ih

/-- A program that ends by raising, whatever comes before. -/
theorem after (p : Prog C R ε α) {f : α → Prog C R ε β} (h : ∀ a, Raises (f a)) :
    Raises (p >>= f) := by
  induction p with
  | ret a => exact h a
  | raise e => exact .raise e
  | call c k ih => exact .call ih

theorem handle {p : Prog C R ε α} (hp : Raises p) {h : ε → Prog C R ε α} (hh : ∀ e, Raises (h e)) :
    Raises (p.handle h) := by
  induction hp with
  | raise e => exact hh e
  | call _ ih => exact .call ih

theorem strict {p : Prog C R ε α} (h : Raises p) : Strict p := by
  induction h with
  | raise e => exact .raise e
  | call hk ih => exact .call (fun a => ih (.ok a)) fun e => hk (.error e)

theorem attempt {p : Prog C R ε α} (hp : Raises p) {f : Except ε α → Prog C R ε β}
    (hf : ∀ e, Raises (f (.error e))) : Raises (p.attempt >>= f) := by
  induction hp with
  | raise e => exact hf e
  | call _ ih => exact .call ih

end Raises

namespace Strict

theorem bind {p : Prog C R ε α} (h : Strict p) {f : α → Prog C R ε β} (hf : ∀ a, Strict (f a)) :
    Strict (p >>= f) := by
  induction h with
  | ret a => exact hf a
  | raise e => exact .raise e
  | call _ he ih => exact .call ih fun e => (he e).bind f

theorem handle {p : Prog C R ε α} (hp : Strict p) {h : ε → Prog C R ε α}
    (hh : ∀ e, Raises (h e)) : Strict (p.handle h) := by
  induction hp with
  | ret a => exact .ret a
  | raise e => exact (hh e).strict
  | call _ he ih => exact .call ih fun e => (he e).handle hh

theorem attempt {p : Prog C R ε α} (hp : Strict p) {f : Except ε α → Prog C R ε β}
    (hok : ∀ a, Strict (f (.ok a))) (herror : ∀ e, Raises (f (.error e))) :
    Strict (p.attempt >>= f) := by
  induction hp with
  | ret a => exact hok a
  | raise e => exact (herror e).strict
  | call _ he ih => exact .call ih fun e => (he e).attempt herror

theorem ofExcept (r : Except ε α) : Strict (Prog.ofExcept r : Prog C R ε α) := by
  cases r with
  | ok a => exact .ret a
  | error e => exact .raise e

theorem perform (c : C) : Strict (Prog.perform c : Prog C R ε (R c)) :=
  .call (fun a => .ret a) fun e => .raise e

theorem pure (a : α) : Strict (Pure.pure a : Prog C R ε α) := .ret a

theorem throw (e : ε) : Strict (MonadExcept.throw e : Prog C R ε α) := .raise e

end Strict

end

/-! ## Weakest preconditions -/

/-- What a program may call in a state of type `σ`, and how answers change the state. -/
structure Spec (C : Type) (R : C → Type) (ε σ : Type) where
  can : σ → C → Prop
  next : σ → (c : C) → Except ε (R c) → σ → Prop

section
variable {C : Type} {R : C → Type} {ε σ α β : Type} (S : Spec C R ε σ)

/-- From `s`, every run of the program makes permitted calls only and ends in `Q`. -/
def wp : Prog C R ε α → (Except ε α → σ → Prop) → σ → Prop
  | .ret a, Q, s => Q (.ok a) s
  | .raise e, Q, s => Q (.error e) s
  | .call c k, Q, s => S.can s c ∧ ∀ r s', S.next s c r s' → wp (k r) Q s'

/-- How a run continues after its first part ended as `r`. -/
def cont (f : α → Prog C R ε β) (Q : Except ε β → σ → Prop) : Except ε α → σ → Prop
  | .ok a, s => wp S (f a) Q s
  | .error e, s => Q (.error e) s

variable {S}

theorem wp_mono {p : Prog C R ε α} {Q Q' : Except ε α → σ → Prop} {s : σ}
    (h : ∀ r s, Q r s → Q' r s) (hp : wp S p Q s) : wp S p Q' s := by
  induction p generalizing s with
  | ret | raise => exact h _ _ hp
  | call c k ih => exact ⟨hp.1, fun r s' hs => ih r (hp.2 r s' hs)⟩

theorem wp_bind {p : Prog C R ε α} {f : α → Prog C R ε β} {Q : Except ε β → σ → Prop} {s : σ} :
    wp S (p >>= f) Q s ↔ wp S p (cont S f Q) s := by
  change wp S (p.bind f) Q s ↔ _
  induction p generalizing s with
  | ret | raise => rfl
  | call c k ih => simp only [Prog.bind, wp, ih]

theorem wp_handle {p : Prog C R ε α} {h : ε → Prog C R ε α} {Q : Except ε α → σ → Prop} {s : σ} :
    wp S (p.handle h) Q s ↔
      wp S p (fun r s => match r with
        | .ok a => Q (.ok a) s
        | .error e => wp S (h e) Q s) s := by
  induction p generalizing s with
  | ret | raise => rfl
  | call c k ih => simp only [Prog.handle, wp, ih]

theorem wp_attempt {p : Prog C R ε α} {Q : Except ε (Except ε α) → σ → Prop} {s : σ} :
    wp S p.attempt Q s ↔ wp S p (fun r s => Q (.ok r) s) s := by
  induction p generalizing s with
  | ret | raise => rfl
  | call c k ih => simp only [Prog.attempt, wp, ih]

theorem wp_ofExcept {r : Except ε α} {Q : Except ε α → σ → Prop} {s : σ} :
    wp S (Prog.ofExcept r) Q s ↔ Q r s := by
  cases r <;> rfl

theorem wp_perform {c : C} {Q : Except ε (R c) → σ → Prop} {s : σ} :
    wp S (Prog.perform c) Q s ↔ S.can s c ∧ ∀ r s', S.next s c r s' → Q r s' := by
  simp only [Prog.perform, wp, wp_ofExcept]

@[simp] theorem wp_pure {a : α} {Q : Except ε α → σ → Prop} {s : σ} :
    wp S (pure a) Q s ↔ Q (.ok a) s := Iff.rfl

@[simp] theorem wp_throw {e : ε} {Q : Except ε α → σ → Prop} {s : σ} :
    wp S (throw e : Prog C R ε α) Q s ↔ Q (.error e) s := Iff.rfl

/-- The bind rule used forwards: a first part with postcondition `P`. -/
theorem wp_seq {p : Prog C R ε α} {f : α → Prog C R ε β} {P : Except ε α → σ → Prop}
    {Q : Except ε β → σ → Prop} {s : σ} (hp : wp S p P s)
    (ok : ∀ a s, P (.ok a) s → wp S (f a) Q s) (error : ∀ e s, P (.error e) s → Q (.error e) s) :
    wp S (p >>= f) Q s := by
  refine wp_bind.2 (wp_mono (fun r s hr => ?_) hp)
  cases r with
  | ok a => exact ok a s hr
  | error e => exact error e s hr

end

/-! ## Runs -/

section
variable {C : Type} {R : C → Type} {ε σ α β : Type}

/-- Big-step runs against the answers `next` allows. -/
inductive Runs (next : σ → (c : C) → Except ε (R c) → σ → Prop) :
    Prog C R ε α → σ → Except ε α → σ → Prop
  | ret {a s} : Runs next (.ret a) s (.ok a) s
  | raise {e s} : Runs next (.raise e) s (.error e) s
  | call {c k s r s' out t} : next s c r s' → Runs next (k r) s' out t →
      Runs next (.call c k) s out t

/-- A run of a sequence: a run of the first program, and of the second unless the first raised. -/
theorem Runs.bind_inv {next : σ → (c : C) → Except ε (R c) → σ → Prop} {p : Prog C R ε α}
    {f : α → Prog C R ε β} {s t : σ} {out : Except ε β} (h : Runs next (p >>= f) s out t) :
    (∃ a s', Runs next p s (.ok a) s' ∧ Runs next (f a) s' out t) ∨
      ∃ e, Runs next p s (.error e) t ∧ out = .error e := by
  induction p generalizing s with
  | ret a => exact Or.inl ⟨a, s, .ret, h⟩
  | raise e =>
    cases h with
    | raise => exact Or.inr ⟨e, .raise, rfl⟩
  | call c k ih =>
    cases h with
    | call hn hk =>
      rcases ih _ hk with ⟨a, s', h₁, h₂⟩ | ⟨e, h₁, rfl⟩
      · exact Or.inl ⟨a, s', .call hn h₁, h₂⟩
      · exact Or.inr ⟨e, .call hn h₁, rfl⟩

/-- An exception of the first program ends the sequence. -/
theorem Runs.bind_error {next : σ → (c : C) → Except ε (R c) → σ → Prop} {p : Prog C R ε α}
    {f : α → Prog C R ε β} {s t : σ} {e : ε} (h : Runs next p s (.error e) t) :
    Runs next (p >>= f) s (.error e) t := by
  generalize hout : (Except.error e : Except ε α) = out at h
  induction h with
  | ret => cases hout
  | raise =>
    cases hout
    exact .raise
  | call hn _ ih => exact .call hn (ih hout)

/-- A run of `try p except e: h e`. -/
theorem Runs.handle_inv {next : σ → (c : C) → Except ε (R c) → σ → Prop} {p : Prog C R ε α}
    {h : ε → Prog C R ε α} {s t : σ} {out : Except ε α} (hr : Runs next (p.handle h) s out t) :
    (∃ a, Runs next p s (.ok a) t ∧ out = .ok a) ∨
      ∃ e s', Runs next p s (.error e) s' ∧ Runs next (h e) s' out t := by
  induction p generalizing s with
  | ret a =>
    cases hr with
    | ret => exact Or.inl ⟨a, .ret, rfl⟩
  | raise e => exact Or.inr ⟨e, s, .raise, hr⟩
  | call c k ih =>
    cases hr with
    | call hn hk =>
      rcases ih _ hk with ⟨a, h₁, rfl⟩ | ⟨e, s', h₁, h₂⟩
      · exact Or.inl ⟨a, .call hn h₁, rfl⟩
      · exact Or.inr ⟨e, s', .call hn h₁, h₂⟩

/-- **Soundness of weakest preconditions**: every run ends in the postcondition. -/
theorem wp_sound {S : Spec C R ε σ} {p : Prog C R ε α} {Q : Except ε α → σ → Prop} {s t : σ}
    {out : Except ε α} (h : wp S p Q s) (hr : Runs S.next p s out t) : Q out t := by
  induction hr with
  | ret | raise => exact h
  | call hn _ ih => exact ih (h.2 _ _ hn)

/-- Programs always finish: where every permitted call is answered, there is a run. -/
theorem exists_runs {S : Spec C R ε σ} (hS : ∀ s c, S.can s c → ∃ r s', S.next s c r s')
    {p : Prog C R ε α} {Q : Except ε α → σ → Prop} {s : σ} (h : wp S p Q s) :
    ∃ out t, Runs S.next p s out t := by
  induction p generalizing s with
  | ret a => exact ⟨_, _, .ret⟩
  | raise e => exact ⟨_, _, .raise⟩
  | call c k ih =>
    obtain ⟨r, s', hn⟩ := hS s c h.1
    obtain ⟨out, t, hr⟩ := ih r (h.2 r s' hn)
    exact ⟨out, t, .call hn hr⟩

/-- **Simulation**: a program that keeps to `S` keeps to `S'`, where the states of `S'` that satisfy
    `J` stand for states of `S`. -/
theorem wp_simulate {τ : Type} {S : Spec C R ε σ} {S' : Spec C R ε τ} {f : τ → σ} {J : τ → Prop}
    (can : ∀ s c, J s → S.can (f s) c → S'.can s c)
    (next : ∀ s c r t, J s → S.can (f s) c → S'.next s c r t → S.next (f s) c r (f t) ∧ J t)
    {p : Prog C R ε α} {Q : Except ε α → σ → Prop} {s : τ} (hs : J s) (h : wp S p Q (f s)) :
    wp S' p (fun r t => Q r (f t) ∧ J t) s := by
  induction p generalizing s with
  | ret a => exact ⟨h, hs⟩
  | raise e => exact ⟨h, hs⟩
  | call c k ih =>
    refine ⟨can s c hs h.1, fun r t hn => ?_⟩
    obtain ⟨hn', ht⟩ := next s c r t hs h.1 hn
    exact ih r ht (h.2 r (f t) hn')

end

end Effects
