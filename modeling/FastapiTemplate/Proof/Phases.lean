/-
  What one method of the unit of work does: the phases it passes through, the
  calls it makes in each, and how it ends (`run_conforms`, `proper`).

  The phase of a task is read off the history, so that the invariants of the
  whole run can be stated with it.
-/
import FastapiTemplate.Infrastructure.SharedUnitOfWork
import FastapiTemplate.Proof.Answers

namespace FastapiTemplate

open Effects

/-- Where a task is in a method; `failed` tells whether the end of the transaction raised. -/
inductive Phase where
  | idle
  | called
  | vacant
  | found (session : SessionId)
  | created (session : SessionId)
  | abandoned (session : SessionId)
  | begun (session : SessionId)
  | entered (session : SessionId)
  | flushed (session : SessionId)
  | unflushed (session : SessionId)
  | finished (session : SessionId) (failed : Bool)
  | unclosed (session : SessionId)
  | closed (session : SessionId) (failed : Bool)
  | left (session : SessionId) (failed : Bool)

def Phase.after : Phase → (c : Call) → Except Exc (Ret c) → Phase
  | .called, .scopeGet, .ok none => .vacant
  | .called, .scopeGet, .ok (some scope) => .found scope.session
  | .vacant, .sessionFactory, .ok sid => .created sid
  | .created _, .begin sid, .ok _ => .begun sid
  | .created _, .begin sid, .error _ => .abandoned sid
  | .begun sid, .scopeSet _, .ok _ => .entered sid
  | .found sid, .flush _, .ok _ => .flushed sid
  | .found sid, .flush _, .error _ => .unflushed sid
  | .flushed sid, .commit _, .ok _ => .finished sid false
  | .flushed sid, .commit _, .error _ => .finished sid true
  | .found sid, .rollback _, .ok _ => .finished sid false
  | .found sid, .rollback _, .error _ => .finished sid true
  | .unflushed sid, .close _, .ok _ => .closed sid true
  | .unflushed sid, .close _, .error _ => .unclosed sid
  | .finished sid failed, .close _, .ok _ => .closed sid failed
  | .finished sid _, .close _, .error _ => .unclosed sid
  | .closed sid failed, .scopeSet _, .ok _ => .left sid failed
  | φ, _, _ => φ

/-- The calls a method makes in a phase. -/
inductive Makes : UnitOfWorkMethod → Phase → Call → Prop
  | scopeGet {op} : Makes op .called .scopeGet
  | sessionFactory : Makes .aenter .vacant .sessionFactory
  | begin {sid} : Makes .aenter (.created sid) (.begin sid)
  | enter {sid} : Makes .aenter (.begun sid) (.scopeSet (some (Scope.of sid)))
  | flush {sid} : Makes (.aexit none) (.found sid) (.flush sid)
  | commit {sid} : Makes (.aexit none) (.flushed sid) (.commit sid)
  | rollback {sid e} : Makes (.aexit (some e)) (.found sid) (.rollback sid)
  | closeUnflushed {sid exc} : Makes (.aexit exc) (.unflushed sid) (.close sid)
  | close {sid failed exc} : Makes (.aexit exc) (.finished sid failed) (.close sid)
  | leave {sid failed exc} : Makes (.aexit exc) (.closed sid failed) (.scopeSet none)

/-- How a method ends in a phase. -/
inductive Concludes : UnitOfWorkMethod → Except Exc UnitOfWorkResult → Phase → Prop
  | inactive {op} : op ≠ .aenter → Concludes op (.error INACTIVE_UOW_ERROR) .vacant
  | nested {sid} : Concludes .aenter (.error NESTED_UOW_ERROR) (.found sid)
  | abandoned {sid e} : Concludes .aenter (.error e) (.abandoned sid)
  | entered {sid} : Concludes .aenter (.ok .entered) (.entered sid)
  | userRepository {sid} : Concludes .userRepository (.ok (.userRepository ⟨sid⟩)) (.found sid)
  | refreshSessionRepository {sid} :
      Concludes .refreshSessionRepository (.ok (.refreshSessionRepository ⟨sid⟩)) (.found sid)
  | exited {sid exc} : Concludes (.aexit exc) (.ok .exited) (.left sid false)
  | failed {sid exc e} : Concludes (.aexit exc) (.error e) (.left sid true)
  | unclosed {sid exc e} : Concludes (.aexit exc) (.error e) (.unclosed sid)

/-- The answers a method has to expect: scopes are those that `__aenter__` builds, and only awaited
    calls raise. -/
inductive Plausible : (c : Call) → Except Exc (Ret c) → Prop
  | vacant : Plausible .scopeGet (.ok none)
  | found {sid} : Plausible .scopeGet (.ok (some (Scope.of sid)))
  | sessionFactory {sid} : Plausible .sessionFactory (.ok sid)
  | scopeSet {scope} : Plausible (.scopeSet scope) (.ok ())
  | awaited {c r} : c.awaited = true → Plausible c r

/-- The phases of a method as a specification of its program. -/
def methodSpec (op : UnitOfWorkMethod) : Spec Call Ret Exc Phase where
  can := Makes op
  next φ c r φ' := Plausible c r ∧ φ' = φ.after c r

section
variable {op : UnitOfWorkMethod} {φ : Phase} {α β : Type}

theorem wp_makes {c : Call} {Q : Except Exc (Ret c) → Phase → Prop} (hc : Makes op φ c)
    (h : ∀ r, Plausible c r → Q r (φ.after c r)) : wp (methodSpec op) (call c) Q φ := by
  refine wp_perform.2 ⟨hc, ?_⟩
  rintro r φ' ⟨hr, rfl⟩
  exact h r hr

/-- A method begins with a look at the context variable. -/
theorem wp_scopeGet {f : Option Scope → App α} {Q : Except Exc α → Phase → Prop}
    (vacant : wp (methodSpec op) (f none) Q .vacant)
    (found : ∀ sid, wp (methodSpec op) (f (some (Scope.of sid))) Q (.found sid)) :
    wp (methodSpec op) (call .scopeGet >>= f) Q .called := by
  refine wp_bind.2 (wp_makes .scopeGet fun r hr => ?_)
  cases hr with
  | vacant => exact vacant
  | found => exact found _
  | awaited h => cases h

theorem currentScope_phases {f : Scope → App α} {Q : Except Exc α → Phase → Prop}
    (inactive : Q (.error INACTIVE_UOW_ERROR) .vacant)
    (found : ∀ sid, wp (methodSpec op) (f (Scope.of sid)) Q (.found sid)) :
    wp (methodSpec op) (currentScope >>= f) Q .called :=
  wp_bind.2 (wp_scopeGet inactive found)

/-- An awaited call: it may answer, or raise. -/
theorem wp_awaited {c : Call} {f : Ret c → App α} {Q : Except Exc α → Phase → Prop}
    (hc : Makes op φ c) (ok : ∀ a, wp (methodSpec op) (f a) Q (φ.after c (.ok a)))
    (error : ∀ e, Q (.error e) (φ.after c (.error e))) :
    wp (methodSpec op) (call c >>= f) Q φ := by
  refine wp_bind.2 (wp_makes hc fun r _ => ?_)
  cases r with
  | ok a => exact ok a
  | error e => exact error e

/-- An assignment of the context variable. -/
theorem wp_scopeSet {scope : Option Scope} {Q : Except Exc Unit → Phase → Prop}
    (hc : Makes op φ (.scopeSet scope)) (h : Q (.ok ()) (φ.after (.scopeSet scope) (.ok ()))) :
    wp (methodSpec op) (call (.scopeSet scope)) Q φ := by
  refine wp_makes hc fun r hr => ?_
  cases hr with
  | scopeSet => exact h
  | awaited h => cases h

theorem aenter_phases : wp (methodSpec .aenter) UnitOfWorkMethod.aenter.run (Concludes .aenter)
    .called := by
  refine wp_bind.2 (wp_scopeGet ?_ fun sid => .nested)
  refine wp_bind.2 (wp_makes .sessionFactory fun r hr => ?_)
  cases hr with
  | awaited h => cases h
  | @sessionFactory sid =>
    refine wp_awaited .begin (fun _ => ?_) fun e => .abandoned
    exact wp_scopeSet .enter .entered

theorem userRepository_phases : wp (methodSpec .userRepository)
    UnitOfWorkMethod.userRepository.run (Concludes .userRepository) .called :=
  wp_bind.2 (currentScope_phases (.inactive nofun) fun _ => .userRepository)

theorem refreshSessionRepository_phases : wp (methodSpec .refreshSessionRepository)
    UnitOfWorkMethod.refreshSessionRepository.run (Concludes .refreshSessionRepository) .called :=
  wp_bind.2 (currentScope_phases (.inactive nofun) fun _ => .refreshSessionRepository)

section
variable {exc : Option Exc} {sid : SessionId} {failed : Bool}

theorem closeScope_phases {φ : Phase} {Q : Except Exc Unit → Phase → Prop}
    (hφ : φ = .finished sid failed ∨ φ = .unflushed sid ∧ failed = true)
    (ok : Q (.ok ()) (.left sid failed)) (error : ∀ e, Q (.error e) (.unclosed sid)) :
    wp (methodSpec (.aexit exc)) (closeScope (Scope.of sid)) Q φ := by
  rcases hφ with rfl | ⟨rfl, rfl⟩
  · exact wp_awaited .close (fun _ => wp_scopeSet .leave ok) error
  · exact wp_awaited .closeUnflushed (fun _ => wp_scopeSet .leave ok) error

theorem finishTransaction_phases : wp (methodSpec (.aexit exc))
    (finishTransaction (Scope.of sid) exc.isSome) (fun r φ => match r with
      | .ok _ => φ = .finished sid false
      | .error _ => φ = .finished sid true ∨ φ = .unflushed sid) (.found sid) := by
  cases exc with
  | none =>
    refine wp_awaited .flush (fun _ => ?_) fun e => Or.inr rfl
    refine wp_makes .commit fun r _ => ?_
    cases r with
    | ok => rfl
    | error => exact Or.inl rfl
  | some e =>
    refine wp_makes .rollback fun r _ => ?_
    cases r with
    | ok => rfl
    | error => exact Or.inl rfl

theorem aexit_phases : wp (methodSpec (.aexit exc)) (UnitOfWorkMethod.aexit exc).run
    (Concludes (.aexit exc)) .called := by
  refine wp_bind.2 (wp_scopeGet (.inactive nofun) fun sid => ?_)
  refine wp_bind.2 (wp_handle.2 (wp_mono ?_ finishTransaction_phases))
  rintro (e | a) φ hφ
  · exact wp_bind.2 (closeScope_phases (hφ.imp_right fun h => ⟨h, rfl⟩) .failed fun e => .unclosed)
  · exact closeScope_phases (Or.inl hφ) .exited fun e => .unclosed

end

/-- **Every method follows its phases.** -/
theorem run_conforms : ∀ op, wp (methodSpec op) op.run (Concludes op) .called
  | .aenter => aenter_phases
  | .userRepository => userRepository_phases
  | .refreshSessionRepository => refreshSessionRepository_phases
  | .aexit _ => aexit_phases

end

/-! ## The phases of a run -/

/-- The phase of task `i`. -/
def phaseOf (i : ℕ) : Moments → Phase
  | [] => .idle
  | .start j _ :: h => if j = i then .called else phaseOf i h
  | .call j c r :: h => if j = i then (phaseOf i h).after c r else phaseOf i h
  | .finish j _ _ :: h => if j = i then .idle else phaseOf i h
  | .fork _ _ :: h => phaseOf i h
  | .stop _ :: h => phaseOf i h

theorem phaseOf_other {i : ℕ} {m : Moment UnitOfWorkMethod Call Ret Exc UnitOfWorkResult}
    (hm : ¬Moment.By i m) (h : Moments) : phaseOf i (m :: h) = phaseOf i h := by
  cases m with
  | fork | stop => rfl
  | start | call | finish => exact if_neg hm

section
variable {i j : ℕ} {h : Moments}

@[simp] theorem phaseOf_start (op : UnitOfWorkMethod) : phaseOf i (.start i op :: h) = .called :=
  if_pos rfl

@[simp] theorem phaseOf_call (c : Call) (r : Except Exc (Ret c)) :
    phaseOf i (.call i c r :: h) = (phaseOf i h).after c r := if_pos rfl

@[simp] theorem phaseOf_finish (op : UnitOfWorkMethod) (out : Except Exc UnitOfWorkResult) :
    phaseOf i (.finish i op out :: h) = .idle := if_pos rfl

@[simp] theorem phaseOf_fork : phaseOf i (.fork j k :: h) = phaseOf i h := rfl

@[simp] theorem phaseOf_stop : phaseOf i (.stop j :: h) = phaseOf i h := rfl

end

/-- What a call of a method does to the context variables and the sessions. -/
inductive Acts (i : ℕ) (s s' : State) : (c : Call) → Except Exc (Ret c) → Prop
  | scopeGet {scope} : s.scopes i = scope → s'.scopes = s.scopes → s'.sessions = s.sessions →
      Acts i s s' .scopeGet (.ok scope)
  | sessionFactory {sid : SessionId} : (∀ e ∈ s.sessions, e.2 ≠ sid) → s'.scopes = s.scopes →
      s'.sessions = (i, sid) :: s.sessions → Acts i s s' .sessionFactory (.ok sid)
  | scopeSet {scope} : s'.scopes = Function.update s.scopes i scope → s'.sessions = s.sessions →
      Acts i s s' (.scopeSet scope) (.ok ())
  | awaited {c r} : c.awaited = true → s'.scopes = s.scopes → s'.sessions = s.sessions →
      Acts i s s' c r

section
variable {ext : Externals} {d : Dialect} {faulty : Call → Bool} {op : UnitOfWorkMethod} {φ : Phase}
  {i : ℕ} {s s' : State} {c : Call} {r : Except Exc (Ret c)}

theorem Makes.acts (hf : ∀ c, faulty c = true → c.awaited = true) (hc : Makes op φ c)
    (h : Answer ext d faulty i s c r s') : Acts i s s' c r := by
  have hfault : ∀ c, c.awaited = true → (s.fault c).scopes = s.scopes ∧
      (s.fault c).sessions = s.sessions := by
    intro c _
    cases c <;> exact ⟨rfl, rfl⟩
  rcases h.inv with h | ⟨code, rfl, hfc, hs⟩
  · cases h with
    | scopeGet => exact .scopeGet rfl rfl rfl
    | scopeSet => exact .scopeSet rfl rfl
    | sessionFactory hfresh => exact .sessionFactory hfresh rfl rfl
    | begin | flush | stale | commit | rollback | close => exact .awaited rfl rfl rfl
    | _ => cases hc
  · refine .awaited (hf _ hfc) ?_ ?_ <;> rcases hs with rfl | ⟨hs, r', h⟩
    · exact (hfault c (hf _ hfc)).1
    · cases h <;> first | rfl | cases hs
    · exact (hfault c (hf _ hfc)).2
    · cases h <;> first | rfl | cases hs

theorem Acts.plausible_answer (h : Acts i s s' c r)
    (hs : ∀ scope, s.scopes i = some scope → ∃ sid, scope = Scope.of sid) : Plausible c r := by
  cases h with
  | @scopeGet scope hi =>
    cases scope with
    | none => exact .vacant
    | some scope =>
      obtain ⟨sid, rfl⟩ := hs scope hi
      exact .found
  | sessionFactory => exact .sessionFactory
  | scopeSet => exact .scopeSet
  | awaited h => exact .awaited h

end

/-- The contract of the methods: a task in a method knows its phase. -/
def phases : Contract State UnitOfWorkMethod Call Ret Exc UnitOfWorkResult Phase where
  spec := methodSpec
  start := .called
  fin := Concludes
  knows w i _ φ := phaseOf i w.history = φ

/-- Every scope in a context was built by `__aenter__`, and tasks outside a method are idle. -/
structure Scoped (w : UnitOfWorkClients) : Prop where
  scopes : ∀ i scope, w.shared.scopes i = some scope → ∃ sid, scope = Scope.of sid
  idle : ∀ i, (∀ op p, w.tasks i ≠ .busy op p) → phaseOf i w.history = .idle

section
variable {ext : Externals} {d : Dialect} {faulty : Call → Bool}
  (hf : ∀ c, faulty c = true → c.awaited = true)
include hf

theorem phases_sound :
    phases.Sound (unitOfWork ext d faulty) (fun _ _ => True) Scoped where
  conforms := run_conforms
  start w i op hw hi _ := by
    refine ⟨⟨hw.scopes, fun j hj => ?_⟩, phaseOf_start op⟩
    by_cases hij : j = i
    · subst hij
      exact absurd (Clients.after_self ..) (hj op _)
    · rw [Clients.after_ne _ _ _ _ _ _ hij] at hj
      rw [Clients.after_history, phaseOf_other (by simpa using Ne.symm hij)]
      exact hw.idle j hj
  call w i op c k r s φ hw hk hc hi ha _ := by
    have hacts := Makes.acts hf hc ha
    refine ⟨⟨fun j scope hj => ?_, fun j hj => ?_⟩, φ.after c r,
      ⟨hacts.plausible_answer (hw.scopes i), rfl⟩, ?_⟩
    · rw [Clients.after_shared] at hj
      cases hacts with
      | scopeGet _ h | sessionFactory _ h | awaited _ h =>
        rw [h] at hj
        exact hw.scopes j scope hj
      | @scopeSet new h =>
        rw [h] at hj
        by_cases hij : j = i
        · subst hij
          rw [Function.update_self] at hj
          subst hj
          cases hc
          exact ⟨_, rfl⟩
        · rw [Function.update_of_ne hij] at hj
          exact hw.scopes j scope hj
    · by_cases hij : j = i
      · subst hij
        exact absurd (Clients.after_self ..) (hj op _)
      · rw [Clients.after_ne _ _ _ _ _ _ hij] at hj
        rw [Clients.after_history, phaseOf_other (by simpa using Ne.symm hij)]
        exact hw.idle j hj
    · have hk : phaseOf i w.history = φ := hk
      change phaseOf i (.call i c r :: w.history) = φ.after c r
      rw [phaseOf_call, hk]
  finish w i op out φ hw _ _ hi _ := by
    refine ⟨hw.scopes, fun j hj => ?_⟩
    by_cases hij : j = i
    · subst hij
      exact phaseOf_finish op out
    · rw [Clients.after_ne _ _ _ _ _ _ hij] at hj
      rw [Clients.after_history, phaseOf_other (by simpa using Ne.symm hij)]
      exact hw.idle j hj
  fork w i j hw hi hj _ := by
    refine ⟨fun k scope hk => ?_, fun k hk => ?_⟩
    · have hk : Function.update w.shared.scopes j (w.shared.scopes i) k = some scope := hk
      by_cases hkj : k = j
      · subst hkj
        rw [Function.update_self] at hk
        exact hw.scopes i scope hk
      · rw [Function.update_of_ne hkj] at hk
        exact hw.scopes k scope hk
    · rw [Clients.after_history, phaseOf_fork]
      by_cases hkj : k = j
      · subst hkj
        exact hw.idle k (by rw [hj]; exact nofun)
      · rw [Clients.after_ne _ _ _ _ _ _ hkj] at hk
        exact hw.idle k hk
  stop w i hw hi _ := by
    refine ⟨hw.scopes, fun k hk => ?_⟩
    rw [Clients.after_history, phaseOf_stop]
    by_cases hki : k = i
    · subst hki
      exact hw.idle k (by rw [hi]; exact nofun)
    · rw [Clients.after_ne _ _ _ _ _ _ hki] at hk
      exact hw.idle k hk
  other w m w' j op φ _ hs _ hm _ _ hk := by
    have hk : phaseOf j w.history = φ := hk
    change phaseOf j w'.history = φ
    rw [hs.history, phaseOf_other hm, hk]

/-- What a step can be: a call that the phase permits, or an end that it permits. -/
inductive Proper (w : UnitOfWorkClients) :
    Moment UnitOfWorkMethod Call Ret Exc UnitOfWorkResult → UnitOfWorkClients → Prop
  | start {i op} : phaseOf i w.history = .idle → Proper w (.start i op)
      (w.after w.shared i (.busy op op.run) (.start i op))
  | call {i op c k r s} : w.tasks i = .busy op (.call c k) → Makes op (phaseOf i w.history) c →
      Acts i w.shared s c r → Plausible c r →
      Proper w (.call i c r) (w.after s i (.busy op (k r)) (.call i c r))
  | finish {i op out} : Concludes op out (phaseOf i w.history) →
      Proper w (.finish i op out) (w.after w.shared i .idle (.finish i op out))
  | fork {i j} : phaseOf j w.history = .idle → (w.tasks i).alive = true → w.tasks j = .absent →
      Proper w (.fork i j) (w.after (State.copyContext i j w.shared) j .idle (.fork i j))
  | stop {i} : phaseOf i w.history = .idle →
      Proper w (.stop i) (w.after w.shared i .ended (.stop i))

variable {P : UnitOfWorkClients → Moment UnitOfWorkMethod Call Ret Exc UnitOfWorkResult → Prop}
  {root : ℕ} {S : Store} {clock : Instant} {w w' : UnitOfWorkClients}
  {m : Moment UnitOfWorkMethod Call Ret Exc UnitOfWorkResult}

theorem wellScoped (hw : (unitOfWork ext d faulty).ReachableIf P root (State.idle S clock) w) :
    Scoped w ∧ phases.Annotated w := by
  have hw' : (unitOfWork ext d faulty).ReachableIf (fun _ _ => True) root (State.idle S clock) w :=
    hw.imp fun _ _ _ _ _ _ => trivial
  have hstart : Scoped (Object.start root (State.idle S clock)) :=
    ⟨fun _ _ h => (by cases h), fun _ _ => rfl⟩
  exact (phases_sound hf).annotated hstart hw'

/-- The call that a task makes next is one that its phase permits. -/
theorem makes (hw : (unitOfWork ext d faulty).ReachableIf P root (State.idle S clock) w)
    {k : Except Exc (Ret c) → App UnitOfWorkResult} (hi : w.tasks i = .busy op (.call c k)) :
    Makes op (phaseOf i w.history) c := by
  obtain ⟨φ, hwp, rfl⟩ := (wellScoped hf hw).2 i op _ hi
  exact hwp.1

/-- **The steps of a run are those the phases permit.** -/
theorem proper (hw : (unitOfWork ext d faulty).ReachableIf P root (State.idle S clock) w)
    (hs : (unitOfWork ext d faulty).Step w m w') : Proper w m w' := by
  obtain ⟨hscoped, hA⟩ := wellScoped hf hw
  cases hs with
  | @start i op hi => exact .start (hscoped.idle i (by rw [hi]; exact nofun))
  | @call i op c k r s hi ha =>
    have hc := makes hf hw hi
    have hacts := hc.acts hf ha
    exact .call hi hc hacts (hacts.plausible_answer (hscoped.scopes i))
  | @finish i op out hi =>
    obtain ⟨φ, hwp, rfl⟩ := hA i op _ hi
    cases out <;> exact .finish hwp
  | @fork i j hi hj => exact .fork (hscoped.idle j (by rw [hj]; exact nofun)) hi hj
  | @stop i hi => exact .stop (hscoped.idle i (by rw [hi]; exact nofun))

end

end FastapiTemplate
