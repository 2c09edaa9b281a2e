/-
  Tasks that call the methods of one object.

  A task is idle or in the middle of a method, whose program (`Prog`) it runs
  call by call; it calls methods in any order, it may start other tasks, which
  get a copy of what it carries, and it may end, which takes what it carries
  out of the world.  `Contract.Sound.annotated` is the proof
  rule for one run of all tasks, and `Object.projects` takes a run apart: what a
  task does and observes is a run of its own.
-/
import FastapiTemplate.Lib.Program
import Mathlib.Logic.Function.Basic

namespace Effects

/-- What happens in a step. -/
inductive Moment (Op C : Type) (R : C → Type) (ε Out : Type) where
  | start (pid : ℕ) (op : Op)
  | call (pid : ℕ) (c : C) (answer : Except ε (R c))
  | finish (pid : ℕ) (op : Op) (out : Except ε Out)
  | fork (parent child : ℕ)
  | stop (pid : ℕ)

/-- What a task is doing: it is not started yet, or outside of any method, or inside one, or
    over. -/
inductive Task (Op C : Type) (R : C → Type) (ε Out : Type) where
  | absent
  | idle
  | busy (op : Op) (prog : Prog C R ε Out)
  | ended

/-- The shared state, the tasks, and what happened, newest first. -/
structure Clients (σ Op C : Type) (R : C → Type) (ε Out : Type) where
  shared : σ
  tasks : ℕ → Task Op C R ε Out
  history : List (Moment Op C R ε Out)

/-- An object: its methods, the answers to the calls they make, and what a new task gets from the
    task that starts it. -/
structure Object (σ Op C : Type) (R : C → Type) (ε Out : Type) where
  method : Op → Prog C R ε Out
  answer : ℕ → σ → (c : C) → Except ε (R c) → σ → Prop
  fork : ℕ → ℕ → σ → σ

variable {σ Op C : Type} {R : C → Type} {ε Out : Type}

/-- The task has started and is not over. -/
def Task.alive : Task Op C R ε Out → Bool
  | idle | busy _ _ => true
  | absent | ended => false

/-- The task that takes the step; starting a task is no step of a method. -/
def Moment.By (i : ℕ) : Moment Op C R ε Out → Prop
  | start j _ | call j _ _ | finish j _ _ | stop j => j = i
  | fork _ _ => False

instance (i : ℕ) : DecidablePred (fun m : Moment Op C R ε Out => m.By i)
  | .start j _ | .call j _ _ | .finish j _ _ | .stop j => inferInstanceAs (Decidable (j = i))
  | .fork _ _ => inferInstanceAs (Decidable False)

namespace Moment
variable {i j k : ℕ}

@[simp] theorem by_start {op : Op} : By i (.start j op : Moment Op C R ε Out) ↔ j = i := Iff.rfl

@[simp] theorem by_call {c : C} {r : Except ε (R c)} :
    By i (.call j c r : Moment Op C R ε Out) ↔ j = i := Iff.rfl

@[simp] theorem by_finish {op : Op} {out : Except ε Out} :
    By i (.finish j op out : Moment Op C R ε Out) ↔ j = i := Iff.rfl

@[simp] theorem not_by_fork : ¬By i (.fork j k : Moment Op C R ε Out) := id

@[simp] theorem by_stop : By i (.stop j : Moment Op C R ε Out) ↔ j = i := Iff.rfl

end Moment

namespace Clients

/-- The world after a step of task `i`, which is doing `t` afterwards. -/
def after (w : Clients σ Op C R ε Out) (s : σ) (i : ℕ) (t : Task Op C R ε Out)
    (m : Moment Op C R ε Out) : Clients σ Op C R ε Out :=
  ⟨s, Function.update w.tasks i t, m :: w.history⟩

variable (w : Clients σ Op C R ε Out) (s : σ) (i j : ℕ) (t : Task Op C R ε Out)
  (m : Moment Op C R ε Out)

@[simp] theorem after_shared : (w.after s i t m).shared = s := rfl
@[simp] theorem after_history : (w.after s i t m).history = m :: w.history := rfl
@[simp] theorem after_self : (w.after s i t m).tasks i = t := by simp [after]
@[simp] theorem after_ne (h : j ≠ i) : (w.after s i t m).tasks j = w.tasks j := by
  simp [after, h]

end Clients

/-- One task, and nothing happened. -/
def Object.start (root : ℕ) (s : σ) : Clients σ Op C R ε Out :=
  ⟨s, fun i => if i = root then .idle else .absent, []⟩

namespace Object
variable (O : Object σ Op C R ε Out)

/-- One step of one task. -/
inductive Step : Clients σ Op C R ε Out → Moment Op C R ε Out → Clients σ Op C R ε Out → Prop
  | start {w i op} : w.tasks i = .idle →
      Step w (.start i op) (w.after w.shared i (.busy op (O.method op)) (.start i op))
  | call {w i op c k r s} : w.tasks i = .busy op (.call c k) → O.answer i w.shared c r s →
      Step w (.call i c r) (w.after s i (.busy op (k r)) (.call i c r))
  | finish {w i op out} : w.tasks i = .busy op (Prog.ofExcept out) →
      Step w (.finish i op out) (w.after w.shared i .idle (.finish i op out))
  | fork {w i j} : (w.tasks i).alive = true → w.tasks j = .absent →
      Step w (.fork i j) (w.after (O.fork i j w.shared) j .idle (.fork i j))
  | stop {w i} : w.tasks i = .idle → Step w (.stop i) (w.after w.shared i .ended (.stop i))

/-- The worlds of the runs that start with the task `root` in the state `s₀`, and whose steps all
    satisfy `P`. -/
inductive ReachableIf (P : Clients σ Op C R ε Out → Moment Op C R ε Out → Prop) (root : ℕ)
    (s₀ : σ) :
    Clients σ Op C R ε Out → Prop
  | start : ReachableIf P root s₀ (Object.start root s₀)
  | step {w m w'} : ReachableIf P root s₀ w → O.Step w m w' → P w m → ReachableIf P root s₀ w'

/-- The worlds in which `root` is the only task. -/
def Solo (root : ℕ) (s₀ : σ) : Clients σ Op C R ε Out → Prop :=
  O.ReachableIf (fun _ m => Moment.By root m) root s₀

variable {O}

theorem Step.history {w w' : Clients σ Op C R ε Out} {m : Moment Op C R ε Out} (h : O.Step w m w') :
    w'.history = m :: w.history := by
  cases h <;> rfl

/-- A step leaves the other tasks alone; only a new task appears. -/
theorem Step.tasks_ne {w w' : Clients σ Op C R ε Out} {m : Moment Op C R ε Out} (h : O.Step w m w')
    {j : ℕ} (hj : w.tasks j ≠ .absent) (hm : ¬Moment.By j m) : w'.tasks j = w.tasks j := by
  cases h with
  | start | call | finish | stop => exact Clients.after_ne _ _ _ _ _ _ fun h => hm h.symm
  | fork _ hk => exact Clients.after_ne _ _ _ _ _ _ fun h => hj (h ▸ hk)

/-- The task that takes a step is alive. -/
theorem Step.alive {w w' : Clients σ Op C R ε Out} {m : Moment Op C R ε Out} (h : O.Step w m w')
    {i : ℕ} (hm : Moment.By i m) : (w.tasks i).alive = true := by
  cases h with
  | start hi | call hi _ | finish hi | stop hi =>
    obtain rfl : _ = i := hm
    rw [hi]
    rfl
  | fork => exact hm.elim

/-- Where only tasks below `n` are started, there are no others. -/
theorem ReachableIf.absent {P : Clients σ Op C R ε Out → Moment Op C R ε Out → Prop} {root n : ℕ}
    {s₀ : σ} {w : Clients σ Op C R ε Out} (hw : O.ReachableIf P root s₀ w) (hroot : root < n)
    (hP : ∀ v i j, P v (.fork i j) → j < n) : ∀ j, n ≤ j → w.tasks j = .absent := by
  induction hw with
  | start => exact fun j hj => if_neg (by omega)
  | step _ hs hp ih =>
    intro j hj
    have hbefore := ih j hj
    cases hs with
    | start hi | call hi _ | finish hi | stop hi =>
      rw [Clients.after_ne _ _ _ _ _ _ (by rintro rfl; rw [hbefore] at hi; cases hi), hbefore]
    | fork =>
      have hlt := hP _ _ _ hp
      rw [Clients.after_ne _ _ _ _ _ _ (by omega), hbefore]

/-- A run whose steps satisfy `P` is one whose steps satisfy `Q`, if the steps that are taken do. -/
theorem ReachableIf.imp {P Q : Clients σ Op C R ε Out → Moment Op C R ε Out → Prop} {root : ℕ}
    {s₀ : σ} {w : Clients σ Op C R ε Out} (hw : O.ReachableIf P root s₀ w)
    (h : ∀ v m v', O.ReachableIf P root s₀ v → O.Step v m v' → P v m → Q v m) :
    O.ReachableIf Q root s₀ w := by
  induction hw with
  | start => exact .start
  | step hv hs hp ih => exact .step ih hs (h _ _ _ hv hs hp)

/-- **Every moment of a history was a step of the run.** -/
theorem ReachableIf.at_moment {P : Clients σ Op C R ε Out → Moment Op C R ε Out → Prop} {root : ℕ}
    {s₀ : σ} {w : Clients σ Op C R ε Out} (hw : O.ReachableIf P root s₀ w)
    {h₁ h₂ : List (Moment Op C R ε Out)} {m : Moment Op C R ε Out}
    (h : w.history = h₁ ++ m :: h₂) :
    ∃ v v', O.ReachableIf P root s₀ v ∧ O.Step v m v' ∧ P v m ∧ v.history = h₂ := by
  induction hw generalizing h₁ with
  | start => simp [Object.start] at h
  | @step v n v' hv hs hp ih =>
    rw [hs.history] at h
    cases h₁ with
    | nil =>
      obtain ⟨hm, hrest⟩ := List.cons.inj (h.trans (List.nil_append _))
      subst hm
      exact ⟨v, v', hv, hs, hp, hrest⟩
    | cons n' h₁ => exact ih (List.cons.inj h).2

/-! ## Projections -/

/-- **A run taken apart.**  `Rel i` relates the shared state to a state of the object that task `i`
    has for itself.  If the calls of `i` are answered the same there, and nothing else `i` cannot
    see matters, then the moments of `i` are those of a run in which `i` is the only task. -/
theorem projects {P : Clients σ Op C R ε Out → Moment Op C R ε Out → Prop} {root i : ℕ} {s₀ p₀ : σ}
    {Rel : σ → σ → Prop} (hroot : root = i → Rel s₀ p₀)
    (own : ∀ w op c k p r s', O.ReachableIf P root s₀ w → w.tasks i = .busy op (.call c k) →
      Rel w.shared p → O.answer i w.shared c r s' → ∃ p', O.answer i p c r p' ∧ Rel s' p')
    (other : ∀ w j op c k p r s', O.ReachableIf P root s₀ w → j ≠ i →
      w.tasks j = .busy op (.call c k) → Rel w.shared p → O.answer j w.shared c r s' → Rel s' p)
    (fork : ∀ s p j k, k ≠ i → Rel s p → Rel (O.fork j k s) p)
    (born : ∀ w j, O.ReachableIf P root s₀ w → w.tasks i = .absent → P w (.fork j i) →
      Rel (O.fork j i w.shared) p₀)
    {w : Clients σ Op C R ε Out} (hw : O.ReachableIf P root s₀ w) :
    (w.tasks i = .absent → ∀ m ∈ w.history, ¬Moment.By i m) ∧
    (w.tasks i ≠ .absent → ∃ v, O.Solo i p₀ v ∧ Rel w.shared v.shared ∧ v.tasks i = w.tasks i ∧
      v.history = w.history.filter fun m => Moment.By i m) := by
  induction hw with
  | start =>
    refine ⟨fun _ m hm => (List.not_mem_nil hm).elim, fun hi => ?_⟩
    have hri : root = i := by
      by_contra hne
      exact hi (if_neg fun h => hne h.symm)
    subst hri
    exact ⟨_, .start, hroot rfl, rfl, rfl⟩
  | @step w m w' hw hs hp ih =>
    -- a step of another task
    have hother : w.tasks i ≠ .absent → ¬Moment.By i m → (∀ p, Rel w.shared p → Rel w'.shared p) →
        ∃ v, O.Solo i p₀ v ∧ Rel w'.shared v.shared ∧ v.tasks i = w'.tasks i ∧
          v.history = w'.history.filter fun m => Moment.By i m := by
      intro hi hm hrel
      obtain ⟨v, hv, hr, ht, hh⟩ := ih.2 hi
      refine ⟨v, hv, hrel _ hr, ht.trans (hs.tasks_ne hi hm).symm, ?_⟩
      rw [hs.history, List.filter_cons_of_neg (by simpa using hm), hh]
    -- a step of task `i` itself, also possible alone
    have hown : ∀ v v', O.Solo i p₀ v → O.Step v m v' → Moment.By i m → Rel w'.shared v'.shared →
        v'.tasks i = w'.tasks i → v.history = (w.history.filter fun m => Moment.By i m) →
        ∃ v, O.Solo i p₀ v ∧ Rel w'.shared v.shared ∧ v.tasks i = w'.tasks i ∧
          v.history = w'.history.filter fun m => Moment.By i m := by
      intro v v' hv hs' hm hr ht hh
      refine ⟨v', hv.step hs' hm, hr, ht, ?_⟩
      rw [hs'.history, hs.history, List.filter_cons_of_pos (by simpa using hm), hh]
    have hnone : w.tasks i = .absent → w'.tasks i = .absent ∨ ∃ j, m = .fork j i := by
      intro hi
      cases hs with
      | @start k op hk =>
        exact Or.inl
          ((Clients.after_ne _ _ _ _ _ _ (by rintro rfl; rw [hi] at hk; cases hk)).trans hi)
      | @call k op c f r s hk _ =>
        exact Or.inl
          ((Clients.after_ne _ _ _ _ _ _ (by rintro rfl; rw [hi] at hk; cases hk)).trans hi)
      | @finish k op out hk =>
        exact Or.inl
          ((Clients.after_ne _ _ _ _ _ _ (by rintro rfl; rw [hi] at hk; cases hk)).trans hi)
      | @stop k hk =>
        exact Or.inl
          ((Clients.after_ne _ _ _ _ _ _ (by rintro rfl; rw [hi] at hk; cases hk)).trans hi)
      | @fork j k _ hk =>
        by_cases hki : k = i
        · exact Or.inr ⟨j, by rw [hki]⟩
        · exact Or.inl ((Clients.after_ne _ _ _ _ _ _ fun h => hki h.symm).trans hi)
    refine ⟨fun hi n hn => ?_, fun hi => ?_⟩
    · -- absent afterwards, so absent before, and the step is not its own
      have hbefore : w.tasks i = .absent := by
        by_contra hne
        by_cases hm : Moment.By i m
        · cases hs with
          | fork => exact hm
          | start | call | finish | stop =>
            obtain rfl : _ = i := hm
            rw [Clients.after_self] at hi
            cases hi
        · rw [hs.tasks_ne hne hm] at hi
          exact hne hi
      rw [hs.history] at hn
      rcases List.mem_cons.1 hn with rfl | hn
      · intro hm
        cases hs with
        | fork => exact hm
        | start hk | call hk _ | finish hk | stop hk =>
          obtain rfl : _ = i := hm
          rw [hbefore] at hk
          cases hk
      · exact ih.1 hbefore n hn
    · by_cases hbefore : w.tasks i = .absent
      · rcases hnone hbefore with h | ⟨j, rfl⟩
        · exact absurd h hi
        · cases hs with
          | fork hj hk =>
            refine ⟨Object.start i p₀, .start, born w j hw hbefore hp, ?_, ?_⟩
            · rw [Clients.after_self]
              exact if_pos rfl
            · rw [Clients.after_history, List.filter_cons_of_neg (by simp)]
              exact (List.filter_eq_nil_iff.2 fun n hn => by simpa using ih.1 hbefore n hn).symm
      · obtain ⟨v, hv, hr, ht, hh⟩ := ih.2 hbefore
        cases hs with
        | @start k op hk =>
          by_cases hki : k = i
          · subst hki
            exact hown v _ hv (.start (ht.trans hk)) rfl hr (by simp) hh
          · exact hother hbefore hki fun p hp => hp
        | @call k op c f r s hk ha =>
          by_cases hki : k = i
          · subst hki
            obtain ⟨p', ha', hr'⟩ := own _ _ _ _ _ _ _ hw hk hr ha
            exact hown v _ hv (.call (ht.trans hk) ha') rfl hr' (by simp) hh
          · exact hother hbefore hki fun p hp => other _ _ _ _ _ _ _ _ hw hki hk hp ha
        | @finish k op out hk =>
          by_cases hki : k = i
          · subst hki
            exact hown v _ hv (.finish (ht.trans hk)) rfl hr (by simp) hh
          · exact hother hbefore hki fun p hp => hp
        | @stop k hk =>
          by_cases hki : k = i
          · subst hki
            exact hown v _ hv (.stop (ht.trans hk)) rfl hr (by simp) hh
          · exact hother hbefore hki fun p hp => hp
        | @fork j k hj hk =>
          have hki : k ≠ i := by
            rintro rfl
            exact hbefore hk
          exact hother hbefore id fun p hp => fork _ _ _ _ hki hp

end Object

/-! ## Schedules -/

/-- A step that leaves nothing open: a call is answered as the choice says. -/
inductive Command (Op Ch : Type) where
  | start (pid : ℕ) (op : Op)
  | answer (pid : ℕ) (choice : Ch)
  | finish (pid : ℕ)
  | fork (parent child : ℕ)
  | stop (pid : ℕ)

section
variable {Ch : Type} (O : Object σ Op C R ε Out)
  (perform : ℕ → σ → (c : C) → Ch → Option (Except ε (R c) × σ))

/-- Execute a command: the step it takes and the world after it. -/
def Object.act (w : Clients σ Op C R ε Out) :
    Command Op Ch → Option (Moment Op C R ε Out × Clients σ Op C R ε Out)
  | .start i op =>
    match w.tasks i with
    | .idle => some (.start i op, w.after w.shared i (.busy op (O.method op)) (.start i op))
    | _ => none
  | .answer i ch =>
    match w.tasks i with
    | .busy op (.call c k) => (perform i w.shared c ch).map fun r =>
        (.call i c r.1, w.after r.2 i (.busy op (k r.1)) (.call i c r.1))
    | _ => none
  | .finish i =>
    match w.tasks i with
    | .busy op (.ret a) =>
      some (.finish i op (.ok a), w.after w.shared i .idle (.finish i op (.ok a)))
    | .busy op (.raise e) =>
      some (.finish i op (.error e), w.after w.shared i .idle (.finish i op (.error e)))
    | _ => none
  | .fork i j =>
    match (w.tasks i).alive, w.tasks j with
    | true, .absent => some (.fork i j, w.after (O.fork i j w.shared) j .idle (.fork i j))
    | _, _ => none
  | .stop i =>
    match w.tasks i with
    | .idle => some (.stop i, w.after w.shared i .ended (.stop i))
    | _ => none

/-- Execute a schedule from `w`, every step of which must pass the check. -/
def Object.schedule (check : Clients σ Op C R ε Out → Moment Op C R ε Out → Bool)
    (w : Clients σ Op C R ε Out) (commands : List (Command Op Ch)) :
    Option (Clients σ Op C R ε Out) :=
  commands.foldlM (fun w c => (O.act perform w c).bind fun r =>
    if check w r.1 then some r.2 else none) w

variable {O perform}
variable (answers : ∀ i s c ch r s', perform i s c ch = some (r, s') → O.answer i s c r s')
include answers

theorem Object.act_step {w w' : Clients σ Op C R ε Out} {c : Command Op Ch}
    {m : Moment Op C R ε Out} (h : O.act perform w c = some (m, w')) : O.Step w m w' := by
  cases c with
  | start i op =>
    simp only [act] at h
    split at h <;> cases h
    exact .start ‹_›
  | answer i ch =>
    simp only [act] at h
    split at h
    · obtain ⟨⟨r, s⟩, hr, hw⟩ := Option.map_eq_some_iff.1 h
      cases hw
      exact .call ‹_› (answers _ _ _ _ _ _ hr)
    · cases h
  | finish i =>
    simp only [act] at h
    split at h <;> cases h
    · exact .finish ‹_›
    · exact .finish ‹_›
  | fork i j =>
    simp only [act] at h
    split at h <;> cases h
    exact .fork ‹_› ‹_›
  | stop i =>
    simp only [act] at h
    split at h <;> cases h
    exact .stop ‹_›

/-- A schedule is a run. -/
theorem Object.schedule_reachableIf {check : Clients σ Op C R ε Out → Moment Op C R ε Out → Bool}
    {P : Clients σ Op C R ε Out → Moment Op C R ε Out → Prop} {root : ℕ} {s₀ : σ}
    (hP : ∀ v m v', O.ReachableIf P root s₀ v → O.Step v m v' → check v m = true → P v m)
    {w w' : Clients σ Op C R ε Out} {commands : List (Command Op Ch)}
    (hw : O.ReachableIf P root s₀ w) (h : O.schedule perform check w commands = some w') :
    O.ReachableIf P root s₀ w' := by
  induction commands generalizing w with
  | nil =>
    cases h
    exact hw
  | cons c commands ih =>
    obtain ⟨v, hv, h⟩ := Option.bind_eq_some_iff.1 h
    obtain ⟨⟨m, u⟩, hu, hv⟩ := Option.bind_eq_some_iff.1 hv
    split at hv
    · cases hv
      have hs := Object.act_step answers hu
      exact ih (hw.step hs (hP _ _ _ hw hs ‹_›)) h
    · cases hv

end

/-! ## Contracts -/

/-- A contract for the methods of an object: the local states a method passes through, where it
    starts, how it may end, and what a local state knows of the world. -/
structure Contract (σ Op C : Type) (R : C → Type) (ε Out Loc : Type) where
  spec : Op → Spec C R ε Loc
  start : Loc
  fin : Op → Except ε Out → Loc → Prop
  knows : Clients σ Op C R ε Out → ℕ → Op → Loc → Prop

namespace Contract
variable {Loc : Type} (K : Contract σ Op C R ε Out Loc)

/-- Every method that is running is at some local state. -/
def Annotated (w : Clients σ Op C R ε Out) : Prop :=
  ∀ i op p, w.tasks i = .busy op p → ∃ l, wp (K.spec op) p (K.fin op) l ∧ K.knows w i op l

/-- What a step must preserve for the contract to describe every run; `P` is the condition on the
    steps. -/
structure Sound (O : Object σ Op C R ε Out)
    (P : Clients σ Op C R ε Out → Moment Op C R ε Out → Prop)
    (I : Clients σ Op C R ε Out → Prop) : Prop where
  conforms : ∀ op, wp (K.spec op) (O.method op) (K.fin op) K.start
  start : ∀ w i op, I w → w.tasks i = .idle → P w (.start i op) →
    I (w.after w.shared i (.busy op (O.method op)) (.start i op)) ∧
      K.knows (w.after w.shared i (.busy op (O.method op)) (.start i op)) i op K.start
  call : ∀ w i op c k r s l, I w → K.knows w i op l → (K.spec op).can l c →
    w.tasks i = .busy op (.call c k) → O.answer i w.shared c r s → P w (.call i c r) →
    I (w.after s i (.busy op (k r)) (.call i c r)) ∧ ∃ l', (K.spec op).next l c r l' ∧
      K.knows (w.after s i (.busy op (k r)) (.call i c r)) i op l'
  finish : ∀ w i op out l, I w → K.knows w i op l → K.fin op out l →
    w.tasks i = .busy op (Prog.ofExcept out) → P w (.finish i op out) →
    I (w.after w.shared i .idle (.finish i op out))
  fork : ∀ w i j, I w → (w.tasks i).alive = true → w.tasks j = .absent → P w (.fork i j) →
    I (w.after (O.fork i j w.shared) j .idle (.fork i j))
  stop : ∀ w i, I w → w.tasks i = .idle → P w (.stop i) →
    I (w.after w.shared i .ended (.stop i))
  /-- what a method knows stays right when another task takes a step -/
  other : ∀ w m w' j op l, I w → O.Step w m w' → P w m → ¬Moment.By j m →
    (∀ i op p, Moment.By i m → w.tasks i = .busy op p →
      ∃ l, wp (K.spec op) p (K.fin op) l ∧ K.knows w i op l) →
    w.tasks j ≠ .absent → K.knows w j op l → K.knows w' j op l

/-- **The contract rule**: in every world of a run the invariant holds and every method that is
    running is at a local state of its contract. -/
theorem Sound.annotated {K : Contract σ Op C R ε Out Loc} {O : Object σ Op C R ε Out}
    {P : Clients σ Op C R ε Out → Moment Op C R ε Out → Prop} {I : Clients σ Op C R ε Out → Prop}
    (h : K.Sound O P I) {root : ℕ} {s₀ : σ} (init : I (Object.start root s₀))
    {w : Clients σ Op C R ε Out} (hw : O.ReachableIf P root s₀ w) : I w ∧ K.Annotated w := by
  induction hw with
  | start =>
    refine ⟨init, fun i op p hp => ?_⟩
    simp only [Object.start] at hp
    split at hp <;> cases hp
  | @step w m w' _ hs hp ih =>
    obtain ⟨hI, hA⟩ := ih
    have hother : ∀ j op p, ¬Moment.By j m → w.tasks j = .busy op p → ∃ l,
        wp (K.spec op) p (K.fin op) l ∧ K.knows w' j op l := by
      intro j op p hj hp'
      obtain ⟨l, hwp, hk⟩ := hA j op p hp'
      exact ⟨l, hwp, h.other w m w' j op l hI hs hp hj (fun i op p _ => hA i op p)
        (by rw [hp']; exact fun h => by cases h) hk⟩
    cases hs with
    | @start i op hi =>
      obtain ⟨hI', hk⟩ := h.start w i op hI hi hp
      refine ⟨hI', fun j op' p hj => ?_⟩
      by_cases hij : j = i
      · subst hij
        rw [Clients.after_self] at hj
        cases hj
        exact ⟨_, h.conforms op, hk⟩
      · rw [Clients.after_ne _ _ _ _ _ _ hij] at hj
        exact hother j op' p (fun h => hij h.symm) hj
    | @call i op c k r s hi ha =>
      obtain ⟨l, hwp, hk⟩ := hA i _ _ hi
      obtain ⟨hI', l', hn, hk'⟩ := h.call w i op c k r s l hI hk hwp.1 hi ha hp
      refine ⟨hI', fun j op' p hj => ?_⟩
      by_cases hij : j = i
      · subst hij
        rw [Clients.after_self] at hj
        cases hj
        exact ⟨l', hwp.2 r l' hn, hk'⟩
      · rw [Clients.after_ne _ _ _ _ _ _ hij] at hj
        exact hother j op' p (fun h => hij h.symm) hj
    | @finish i op out hi =>
      obtain ⟨l, hwp, hk⟩ := hA i _ _ hi
      have hfin : K.fin op out l := by
        cases out <;> exact hwp
      refine ⟨h.finish w i op out l hI hk hfin hi hp, fun j op' p hj => ?_⟩
      by_cases hij : j = i
      · subst hij
        rw [Clients.after_self] at hj
        cases hj
      · rw [Clients.after_ne _ _ _ _ _ _ hij] at hj
        exact hother j op' p (fun h => hij h.symm) hj
    | @fork i k hi hk =>
      refine ⟨h.fork w i k hI hi hk hp, fun j op' p hj => ?_⟩
      by_cases hjk : j = k
      · subst hjk
        rw [Clients.after_self] at hj
        cases hj
      · rw [Clients.after_ne _ _ _ _ _ _ hjk] at hj
        exact hother j op' p id hj
    | @stop i hi =>
      refine ⟨h.stop w i hI hi hp, fun j op' p hj => ?_⟩
      by_cases hij : j = i
      · subst hij
        rw [Clients.after_self] at hj
        cases hj
      · rw [Clients.after_ne _ _ _ _ _ _ hij] at hj
        exact hother j op' p (fun h => hij h.symm) hj

end Contract

end Effects
