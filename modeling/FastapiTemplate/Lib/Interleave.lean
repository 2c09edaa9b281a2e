/-
  Interleaved processes over a shared state.

  Any number of processes run programs (`Prog`) against one shared state; a
  step answers one call of one process, starts a process, or lets the
  environment change the shared state.  `System.annotated` is the proof rule:
  if every program follows a protocol (`wp` over local states) and what a local
  state says of the world survives the steps of the others, then in every
  reachable world every process is at such a local state.
-/
import FastapiTemplate.Lib.Program

namespace Effects

/-- A call of process `pid` and its answer. -/
structure Event (C : Type) (R : C → Type) (ε : Type) where
  pid : ℕ
  call : C
  answer : Except ε (R call)

/-- A process: the request it serves and what remains of its program. -/
structure Proc (Req C : Type) (R : C → Type) (ε Out : Type) where
  request : Req
  prog : Prog C R ε Out

/-- The shared state, the processes, and the history of calls, newest first. -/
structure World (σ Req C : Type) (R : C → Type) (ε Out : Type) where
  shared : σ
  procs : ℕ → Option (Proc Req C R ε Out)
  trace : List (Event C R ε)

/-- What happens in a step. -/
inductive Label (Req C : Type) where
  | spawn (pid : ℕ) (request : Req)
  | call (pid : ℕ) (call : C)
  | environment

/-- The process that takes the step. -/
def Label.pid {Req C : Type} : Label Req C → Option ℕ
  | spawn i _ | call i _ => some i
  | environment => none

/-- Processes that serve requests over a shared state. -/
structure System (σ Req C : Type) (R : C → Type) (ε Out : Type) where
  init : σ → Prop
  allowed : Req → Prop
  execute : Req → Prog C R ε Out
  answer : ℕ → σ → (c : C) → Except ε (R c) → σ → Prop
  environment : σ → σ → Prop

variable {σ Req C : Type} {R : C → Type} {ε Out : Type}

namespace World

/-- Process `i` becomes `p`. -/
def setProc (w : World σ Req C R ε Out) (i : ℕ) (p : Proc Req C R ε Out) : World σ Req C R ε Out :=
  { w with procs := Function.update w.procs i (some p) }

/-- Process `i` is answered `r`: it goes on with `p` in the shared state `s`. -/
def reply (w : World σ Req C R ε Out) (i : ℕ) (c : C) (r : Except ε (R c)) (s : σ)
    (p : Proc Req C R ε Out) : World σ Req C R ε Out :=
  ⟨s, Function.update w.procs i (some p), ⟨i, c, r⟩ :: w.trace⟩

variable (w : World σ Req C R ε Out) (i j : ℕ) (p : Proc Req C R ε Out)

@[simp] theorem setProc_shared : (w.setProc i p).shared = w.shared := rfl
@[simp] theorem setProc_trace : (w.setProc i p).trace = w.trace := rfl
@[simp] theorem setProc_self : (w.setProc i p).procs i = some p := by simp [setProc]
@[simp] theorem setProc_ne (h : j ≠ i) : (w.setProc i p).procs j = w.procs j := by
  simp [setProc, h]

variable (c : C) (r : Except ε (R c)) (s : σ)

@[simp] theorem reply_shared : (w.reply i c r s p).shared = s := rfl
@[simp] theorem reply_trace : (w.reply i c r s p).trace = ⟨i, c, r⟩ :: w.trace := rfl
@[simp] theorem reply_self : (w.reply i c r s p).procs i = some p := by simp [reply]
@[simp] theorem reply_ne (h : j ≠ i) : (w.reply i c r s p).procs j = w.procs j := by
  simp [reply, h]

/-- Process `i` called `c` and got the answer `a`. -/
def Saw (w : World σ Req C R ε Out) (i : ℕ) (c : C) (a : R c) : Prop := ⟨i, c, .ok a⟩ ∈ w.trace

variable {w i j p c r s} in
theorem saw_reply {c' : C} {a : R c'} (h : (w.reply i c r s p).Saw j c' a) :
    w.Saw j c' a ∨ j = i ∧ (⟨c, r⟩ : Σ c, Except ε (R c)) = ⟨c', .ok a⟩ := by
  rcases List.mem_cons.1 h with h | h
  · cases h
    exact Or.inr ⟨rfl, rfl⟩
  · exact Or.inl h

end World

namespace System
variable (S : System σ Req C R ε Out)

/-- One step of the system. -/
inductive Step : World σ Req C R ε Out → Label Req C → World σ Req C R ε Out → Prop
  | spawn {w i req} : w.procs i = none → S.allowed req →
      Step w (.spawn i req) (w.setProc i ⟨req, S.execute req⟩)
  | call {w i req c k r s} : w.procs i = some ⟨req, .call c k⟩ → S.answer i w.shared c r s →
      Step w (.call i c) (w.reply i c r s ⟨req, k r⟩)
  | environment {w s} : S.environment w.shared s → Step w .environment { w with shared := s }

/-- The worlds of runs whose steps all satisfy `P`, a condition on the world before a step and
    on what the step does. -/
inductive ReachableIf (P : World σ Req C R ε Out → Label Req C → Prop) :
    World σ Req C R ε Out → Prop
  | init {s} : S.init s → ReachableIf P ⟨s, fun _ => none, []⟩
  | step {w l w'} : ReachableIf P w → S.Step w l w' → P w l → ReachableIf P w'

/-- The worlds of all runs. -/
def Reachable : World σ Req C R ε Out → Prop := S.ReachableIf fun _ _ => True

/-- The runs that start in `w`. -/
inductive Leads (w : World σ Req C R ε Out) : World σ Req C R ε Out → Prop
  | refl : Leads w w
  | step {v l v'} : Leads w v → S.Step v l v' → Leads w v'

variable {S}

theorem ReachableIf.reachable {P : World σ Req C R ε Out → Label Req C → Prop}
    {w : World σ Req C R ε Out} (h : S.ReachableIf P w) : S.Reachable w := by
  induction h with
  | init h => exact .init h
  | step _ hs _ ih => exact .step ih hs trivial

theorem Reachable.reachableIf {P : World σ Req C R ε Out → Label Req C → Prop}
    (hP : ∀ w l, P w l) {w : World σ Req C R ε Out} (h : S.Reachable w) : S.ReachableIf P w := by
  induction h with
  | init h => exact .init h
  | step _ hs _ ih => exact .step ih hs (hP _ _)

theorem Reachable.leads {w v : World σ Req C R ε Out} (h : S.Reachable w) (hl : S.Leads w v) :
    S.Reachable v := by
  induction hl with
  | refl => exact h
  | step _ hs ih => exact .step ih hs trivial

/-- **Invariants**: what holds initially and is preserved by steps between reachable worlds holds
    in every world of a run. -/
theorem ReachableIf.induct {P : World σ Req C R ε Out → Label Req C → Prop}
    {I : World σ Req C R ε Out → Prop} (init : ∀ s, S.init s → I ⟨s, fun _ => none, []⟩)
    (step : ∀ w l w', S.Reachable w → S.Step w l w' → P w l → I w → I w')
    {w : World σ Req C R ε Out} (h : S.ReachableIf P w) : I w := by
  induction h with
  | init hs => exact init _ hs
  | step hr hs hp ih => exact step _ _ _ hr.reachable hs hp ih

/-- A process that exists keeps existing, with its request. -/
theorem Step.request {w w' : World σ Req C R ε Out} {l : Label Req C} (h : S.Step w l w') {i : ℕ}
    {p : Proc Req C R ε Out} (hp : w.procs i = some p) :
    ∃ p', w'.procs i = some p' ∧ p'.request = p.request := by
  cases h with
  | @spawn j req hj _ =>
    have hne : i ≠ j := by rintro rfl; rw [hj] at hp; cases hp
    exact ⟨p, by rw [World.setProc_ne _ _ _ _ hne, hp], rfl⟩
  | @call j req c k r s hj _ =>
    by_cases hij : i = j
    · subst hij; rw [hj] at hp; cases hp; exact ⟨_, World.reply_self .., rfl⟩
    · exact ⟨p, by rw [World.reply_ne _ _ _ _ _ _ _ hij, hp], rfl⟩
  | environment => exact ⟨p, hp, rfl⟩

end System

/-! ## The steps of one process -/

section
variable {τ : Type} (S : System σ Req C R ε Out) (view : σ → τ) (i : ℕ)

/-- A run with what the steps of process `i` did to a part of the shared state: the values before
    and after each of them, newest first. -/
inductive System.Trail : World σ Req C R ε Out → List (τ × τ) → Prop
  | init {s} : S.init s → Trail ⟨s, fun _ => none, []⟩ []
  | own {w l w' cs} : Trail w cs → S.Step w l w' → l.pid = some i →
      Trail w' ((view w.shared, view w'.shared) :: cs)
  | other {w l w' cs} : Trail w cs → S.Step w l w' → l.pid ≠ some i → Trail w' cs

variable {S view i} {w : World σ Req C R ε Out} {cs : List (τ × τ)}

theorem System.Trail.reachable (h : S.Trail view i w cs) : S.Reachable w := by
  induction h with
  | init hs => exact .init hs
  | own _ hs _ ih | other _ hs _ ih => exact .step ih hs trivial

theorem System.Reachable.trail (h : S.Reachable w) : ∃ cs, S.Trail view i w cs := by
  induction h with
  | init hs => exact ⟨[], .init hs⟩
  | @step w l w' _ hs _ ih =>
    obtain ⟨cs, hcs⟩ := ih
    by_cases hl : l.pid = some i
    · exact ⟨_, hcs.own hs hl⟩
    · exact ⟨cs, hcs.other hs hl⟩

end

/-! ## A process running by itself -/

/-- A run of the rest of a process is a run of the system; `Good` is what is known of the answers
    it gets. -/
theorem Runs.leads {S : System σ Req C R ε Out} {i : ℕ}
    {next : σ → (c : C) → Except ε (R c) → σ → Prop} {Good : (c : C) → Except ε (R c) → Prop}
    (hnext : ∀ s c r s', next s c r s' → S.answer i s c r s' ∧ Good c r)
    {p : Prog C R ε Out} {s t : σ} {out : Except ε Out} (h : Runs next p s out t)
    {w : World σ Req C R ε Out} {req : Req} (hi : w.procs i = some ⟨req, p⟩) (hs : w.shared = s)
    (hg : ∀ c r, ⟨i, c, r⟩ ∈ w.trace → Good c r) :
    ∃ w', S.Leads w w' ∧ w'.procs i = some ⟨req, Prog.ofExcept out⟩ ∧ w'.shared = t ∧
      ∀ c r, ⟨i, c, r⟩ ∈ w'.trace → Good c r := by
  have key : ∀ {v}, S.Leads w v → v.procs i = some ⟨req, p⟩ → v.shared = s →
      (∀ c r, ⟨i, c, r⟩ ∈ v.trace → Good c r) →
      ∃ w', S.Leads w w' ∧ w'.procs i = some ⟨req, Prog.ofExcept out⟩ ∧ w'.shared = t ∧
        ∀ c r, ⟨i, c, r⟩ ∈ w'.trace → Good c r := by
    clear hi hs hg
    induction h with
    | ret | raise => exact fun hl hi hs hg => ⟨_, hl, hi, hs, hg⟩
    | @call c k s r s' out t hn _ ih =>
      intro v hl hi hs hg
      subst hs
      obtain ⟨ha, hgood⟩ := hnext _ _ _ _ hn
      refine ih (hl.step (.call hi ha)) (World.reply_self ..) rfl fun c' r' he => ?_
      rcases List.mem_cons.1 he with he | he
      · cases he
        exact hgood
      · exact hg c' r' he
  exact key .refl hi hs hg

/-! ## Schedules -/

/-- A step that leaves nothing open: a process starts, or a call of a process is answered as the
    choice says. -/
inductive Action (Req Ch : Type) where
  | spawn (pid : ℕ) (request : Req)
  | answer (pid : ℕ) (choice : Ch)

def Action.pid {Req Ch : Type} : Action Req Ch → ℕ
  | spawn i _ | answer i _ => i

section
variable {Ch : Type} (S : System σ Req C R ε Out)
  (perform : ℕ → σ → (c : C) → Ch → Option (Except ε (R c) × σ))

def System.act (w : World σ Req C R ε Out) : Action Req Ch → Option (World σ Req C R ε Out)
  | .spawn i req =>
    match w.procs i with
    | none => some (w.setProc i ⟨req, S.execute req⟩)
    | some _ => none
  | .answer i ch =>
    match w.procs i with
    | some ⟨req, .call c k⟩ =>
      (perform i w.shared c ch).map fun r => w.reply i c r.1 r.2 ⟨req, k r.1⟩
    | _ => none

/-- Execute a schedule from `w`. -/
def System.schedule (w : World σ Req C R ε Out) (actions : List (Action Req Ch)) :
    Option (World σ Req C R ε Out) :=
  actions.foldlM (S.act perform) w

variable {S perform}
variable (allowed : ∀ req, S.allowed req)
  (answers : ∀ i s c ch r s', perform i s c ch = some (r, s') → S.answer i s c r s')
include allowed answers

theorem System.act_step {w w' : World σ Req C R ε Out} {a : Action Req Ch}
    (h : S.act perform w a = some w') : ∃ l, S.Step w l w' ∧ l.pid = some a.pid := by
  cases a with
  | spawn i req =>
    simp only [act] at h
    split at h <;> cases h
    exact ⟨_, .spawn ‹_› (allowed req), rfl⟩
  | answer i ch =>
    simp only [act] at h
    split at h
    · obtain ⟨⟨r, s⟩, hr, hw⟩ := Option.map_eq_some_iff.1 h
      cases hw
      exact ⟨_, .call ‹_› (answers _ _ _ _ _ _ hr), rfl⟩
    · cases h

/-- A schedule is a run of its processes. -/
theorem System.schedule_reachableIf {P : World σ Req C R ε Out → Label Req C → Prop}
    {w w' : World σ Req C R ε Out} {actions : List (Action Req Ch)}
    (hP : ∀ a ∈ actions, ∀ v l, l.pid = some a.pid → P v l) (hw : S.ReachableIf P w)
    (h : S.schedule perform w actions = some w') : S.ReachableIf P w' := by
  induction actions generalizing w with
  | nil =>
    cases h
    exact hw
  | cons a actions ih =>
    obtain ⟨u, hu, h⟩ := Option.bind_eq_some_iff.1 h
    obtain ⟨l, hs, hl⟩ := System.act_step allowed answers hu
    exact ih (fun b hb => hP b (List.mem_cons_of_mem a hb))
      (hw.step hs (hP a (List.mem_cons_self ..) w l hl)) h

end

/-! ## Exceptions -/

/-- Events are of processes that exist. -/
theorem System.procs_of_event {S : System σ Req C R ε Out} {w : World σ Req C R ε Out}
    (hw : S.Reachable w) : ∀ e ∈ w.trace, w.procs e.pid ≠ none := by
  refine ReachableIf.induct (I := fun w => ∀ e ∈ w.trace, w.procs e.pid ≠ none) nofun ?_ hw
  intro w l w' _ hs _ ih e he
  have hold : e ∈ w.trace → w'.procs e.pid ≠ none := by
    intro he
    obtain ⟨p, hp⟩ := Option.ne_none_iff_exists'.1 (ih e he)
    obtain ⟨p', hp', -⟩ := hs.request hp
    rw [hp']
    exact Option.some_ne_none p'
  cases hs with
  | spawn | environment => exact hold he
  | call =>
    rcases List.mem_cons.1 he with rfl | he
    · rw [World.reply_self]
      exact Option.some_ne_none _
    · exact hold he

/-- **If every program is strict, a process that got an exception does not return.** -/
theorem System.raises_of_error {S : System σ Req C R ε Out} (hS : ∀ req, Strict (S.execute req))
    {w : World σ Req C R ε Out} (hw : S.Reachable w) : ∀ i p, w.procs i = some p →
      Strict p.prog ∧ ∀ c e, ⟨i, c, .error e⟩ ∈ w.trace → Raises p.prog := by
  refine ReachableIf.induct (I := fun w => ∀ i p, w.procs i = some p →
    Strict p.prog ∧ ∀ c e, ⟨i, c, .error e⟩ ∈ w.trace → Raises p.prog) nofun ?_ hw
  intro w l w' hw hs _ ih i p hp
  cases hs with
  | environment => exact ih i p hp
  | @spawn j req hj _ =>
    by_cases hij : i = j
    · subst hij
      rw [World.setProc_self] at hp
      cases hp
      exact ⟨hS req, fun c e he => absurd hj (procs_of_event hw _ he)⟩
    · rw [World.setProc_ne _ _ _ _ hij] at hp
      exact ih i p hp
  | @call j req c k r s hj _ =>
    by_cases hij : i = j
    · subst hij
      rw [World.reply_self] at hp
      cases hp
      obtain ⟨hstrict, hraises⟩ := ih i _ hj
      cases hstrict with
      | call hok herror =>
        have hkr : Raises (Prog.call c k) → Raises (k r) := fun h => by
          cases h with
          | call h => exact h r
        refine ⟨?_, fun c' e he => ?_⟩
        · cases r with
          | ok a => exact hok a
          | error e => exact (herror e).strict
        · rcases List.mem_cons.1 he with he | he
          · cases he
            exact herror e
          · exact hkr (hraises c' e he)
    · rw [World.reply_ne _ _ _ _ _ _ _ hij] at hp
      refine ⟨(ih i p hp).1, fun c' e he => ?_⟩
      rcases List.mem_cons.1 he with he | he
      · cases he
        exact absurd rfl hij
      · exact (ih i p hp).2 c' e he

/-! ## Protocols -/

/-- A protocol for the processes of a system: the local states a process passes through, where
    it starts, how it may end, and what a local state knows of the world. -/
structure Protocol (σ Req C : Type) (R : C → Type) (ε Out Loc : Type) where
  spec : Req → Spec C R ε Loc
  start : Loc
  fin : Req → Except ε Out → Loc → Prop
  knows : World σ Req C R ε Out → ℕ → Req → Loc → Prop

namespace Protocol
variable {Loc : Type} (P : Protocol σ Req C R ε Out Loc)

/-- Process `i` is at local state `l`: what remains of its program follows the protocol from
    `l`, and `l` is right about the world. -/
def At (w : World σ Req C R ε Out) (i : ℕ) (p : Proc Req C R ε Out) (l : Loc) : Prop :=
  wp (P.spec p.request) p.prog (P.fin p.request) l ∧ P.knows w i p.request l

/-- Every process is at some local state. -/
def Annotated (w : World σ Req C R ε Out) : Prop :=
  ∀ i p, w.procs i = some p → ∃ l, P.At w i p l

/-- What a step must preserve for the protocol to describe every run. -/
structure Sound (S : System σ Req C R ε Out) (I : World σ Req C R ε Out → Prop) : Prop where
  init : ∀ s, S.init s → I ⟨s, fun _ => none, []⟩
  /-- allowed requests follow the protocol -/
  conforms : ∀ req, S.allowed req → wp (P.spec req) (S.execute req) (P.fin req) P.start
  spawn : ∀ w i req, I w → w.procs i = none → S.allowed req →
    I (w.setProc i ⟨req, S.execute req⟩) ∧ P.knows (w.setProc i ⟨req, S.execute req⟩) i req P.start
  spawn_other : ∀ w i p j req l, I w → w.procs i = none → j ≠ i → P.knows w j req l →
    P.knows (w.setProc i p) j req l
  /-- a process moves to a local state that is right about the new world -/
  own : ∀ w i req l c k r s, I w → P.knows w i req l → (P.spec req).can l c →
    w.procs i = some ⟨req, .call c k⟩ → S.answer i w.shared c r s →
    I (w.reply i c r s ⟨req, k r⟩) ∧
      ∃ l', (P.spec req).next l c r l' ∧ P.knows (w.reply i c r s ⟨req, k r⟩) i req l'
  /-- and the others stay right -/
  other : ∀ w i req l c k r s, I w → P.knows w i req l → (P.spec req).can l c →
    w.procs i = some ⟨req, .call c k⟩ → S.answer i w.shared c r s →
    ∀ j req' l', j ≠ i → P.knows w j req' l' → P.knows (w.reply i c r s ⟨req, k r⟩) j req' l'
  environment : ∀ w s, I w → S.environment w.shared s →
    I { w with shared := s } ∧ ∀ j req l, P.knows w j req l → P.knows { w with shared := s } j req l

/-- **The protocol rule**: in every reachable world the invariant holds and every process is at a
    local state of its protocol. -/
theorem Sound.annotated {P : Protocol σ Req C R ε Out Loc} {S : System σ Req C R ε Out}
    {I : World σ Req C R ε Out → Prop} (h : P.Sound S I) {w : World σ Req C R ε Out}
    (hw : S.Reachable w) : I w ∧ P.Annotated w := by
  refine System.ReachableIf.induct (I := fun w => I w ∧ P.Annotated w)
    (fun s hs => ⟨h.init s hs, fun i p hp => by cases hp⟩) ?_ hw
  rintro w l w' - hs - ⟨hI, hA⟩
  cases hs with
  | @spawn i req hi ha =>
    obtain ⟨hI', hk⟩ := h.spawn w i req hI hi ha
    refine ⟨hI', fun j p hp => ?_⟩
    by_cases hij : j = i
    · subst hij
      rw [World.setProc_self] at hp; cases hp
      exact ⟨P.start, h.conforms req ha, hk⟩
    · rw [World.setProc_ne _ _ _ _ hij] at hp
      obtain ⟨l, hwp, hl⟩ := hA j p hp
      exact ⟨l, hwp, h.spawn_other w i _ j _ l hI hi hij hl⟩
  | @call i req c k r s hi ha =>
    obtain ⟨l, hwp, hl⟩ := hA i _ hi
    obtain ⟨hI', l', hn, hl'⟩ := h.own w i req l c k r s hI hl hwp.1 hi ha
    refine ⟨hI', fun j p hp => ?_⟩
    by_cases hij : j = i
    · subst hij
      rw [World.reply_self] at hp; cases hp
      exact ⟨l', hwp.2 r l' hn, hl'⟩
    · rw [World.reply_ne _ _ _ _ _ _ _ hij] at hp
      obtain ⟨m, hm, hk⟩ := hA j p hp
      exact ⟨m, hm, h.other w i req l c k r s hI hl hwp.1 hi ha j _ m hij hk⟩
  | environment he =>
    obtain ⟨hI', hk⟩ := h.environment w _ hI he
    exact ⟨hI', fun j p hp => by
      obtain ⟨l, hwp, hl⟩ := hA j p hp
      exact ⟨l, hwp, hk j _ l hl⟩⟩

end Protocol

end Effects
