/-
  No use after close (`no_use_after_close`): a repository is handed out only
  while the transaction of its session is running, in every tree of tasks in
  which no task ends a session that is in the context of another task alive.
-/
import FastapiTemplate.Proof.Executions
import FastapiTemplate.Proof.Phases

namespace FastapiTemplate

open Effects

/-- The call ends the session or its transaction. -/
def Call.EndsSession (sid : SessionId) : Call → Prop
  | .commit s | .rollback s | .close s => s = sid
  | _ => False

/-- The session was closed, or its transaction committed or rolled back. -/
def Ended (sid : SessionId) (h : Moments) : Prop :=
  ∃ i c r, .call i c r ∈ h ∧ c.EndsSession sid

/-- The steps of a run in which tasks do not outlive the block they were started in: who ends a
    session is the only task alive that has it, nobody is started with a session that is ended,
    and closing does not fail. -/
def EndsAlone (w : UnitOfWorkClients) :
    Moment UnitOfWorkMethod Call Ret Exc UnitOfWorkResult → Prop
  | .call i c r =>
    (∀ sid, c.EndsSession sid → ∀ j, j ≠ i → (w.tasks j).alive = true →
      w.shared.scopes j ≠ some (Scope.of sid)) ∧ ∀ sid e, c = .close sid → r ≠ .error e
  | .fork i _ => ∀ sid, w.shared.scopes i = some (Scope.of sid) → ¬Ended sid w.history
  | _ => True

/-- The session that a task in this phase is ending. -/
def Phase.ending : Phase → Option SessionId
  | finished sid _ | closed sid _ => some sid
  | _ => none

/-- The session that a task in this phase made, and nobody else knows. -/
def Phase.made : Phase → Option SessionId
  | created sid | begun sid => some sid
  | _ => none

/-- The session that a task in this phase has in its context. -/
def Phase.has : Phase → Option SessionId
  | found sid | entered sid | flushed sid | unflushed sid | finished sid _ | closed sid _ =>
    some sid
  | _ => none

/-- The contexts of tasks alive hold running sessions, unless their task is ending them. -/
structure Running (w : UnitOfWorkClients) : Prop where
  running : ∀ i sid, (w.tasks i).alive = true → w.shared.scopes i = some (Scope.of sid) →
    Ended sid w.history → (phaseOf i w.history).ending = some sid
  alone : ∀ i j sid, (phaseOf i w.history).ending = some sid → j ≠ i → (w.tasks j).alive = true →
    w.shared.scopes j ≠ some (Scope.of sid)
  has : ∀ i sid, (phaseOf i w.history).has = some sid → w.shared.scopes i = some (Scope.of sid)
  made : ∀ i sid, (phaseOf i w.history).made = some sid → (i, sid) ∈ w.shared.sessions ∧
    ¬Ended sid w.history ∧ ∀ j, w.shared.scopes j ≠ some (Scope.of sid)
  known : ∀ i sid, w.shared.scopes i = some (Scope.of sid) → ∃ k, (k, sid) ∈ w.shared.sessions
  ended : ∀ sid, Ended sid w.history → ∃ k, (k, sid) ∈ w.shared.sessions
  owner : ∀ i j sid, (i, sid) ∈ w.shared.sessions → (j, sid) ∈ w.shared.sessions → i = j
  closed : ∀ i sid, phaseOf i w.history ≠ .unclosed sid
  settled : ∀ i sid, (phaseOf i w.history).ending = some sid → Ended sid w.history

theorem Scope.of_inj {s t : SessionId} : Scope.of s = Scope.of t ↔ s = t :=
  ⟨fun h => congrArg Scope.session h, fun h => h ▸ rfl⟩

section
variable {sid : SessionId} {h : Moments} {i j : ℕ}

theorem ended_call {c : Call} {r : Except Exc (Ret c)} :
    Ended sid (.call i c r :: h) ↔ c.EndsSession sid ∨ Ended sid h := by
  constructor
  · rintro ⟨k, c', r', hm, hc⟩
    rcases List.mem_cons.1 hm with hm | hm
    · cases hm
      exact Or.inl hc
    · exact Or.inr ⟨k, c', r', hm, hc⟩
  · rintro (hc | ⟨k, c', r', hm, hc⟩)
    · exact ⟨i, c, r, List.mem_cons_self .., hc⟩
    · exact ⟨k, c', r', List.mem_cons_of_mem _ hm, hc⟩

theorem Ended.cons {m : Moment UnitOfWorkMethod Call Ret Exc UnitOfWorkResult}
    (he : Ended sid h) : Ended sid (m :: h) := by
  obtain ⟨k, c, r, hmem, hc⟩ := he
  exact ⟨k, c, r, List.mem_cons_of_mem _ hmem, hc⟩

theorem ended_cons {m : Moment UnitOfWorkMethod Call Ret Exc UnitOfWorkResult}
    (hm : ∀ i c r, m ≠ .call i c r) : Ended sid (m :: h) ↔ Ended sid h := by
  constructor
  · rintro ⟨k, c, r, hmem, hc⟩
    rcases List.mem_cons.1 hmem with hmem | hmem
    · exact absurd hmem.symm (hm k c r)
    · exact ⟨k, c, r, hmem, hc⟩
  · exact Ended.cons

end

variable {w w' : UnitOfWorkClients} {i : ℕ}
  {m : Moment UnitOfWorkMethod Call Ret Exc UnitOfWorkResult}

/-- What is known of task `i` after a step of it. -/
structure RunningAfter (w w' : UnitOfWorkClients) (i : ℕ) : Prop where
  running : ∀ sid, w'.shared.scopes i = some (Scope.of sid) → Ended sid w'.history →
    (phaseOf i w'.history).ending = some sid
  alone : ∀ sid, (phaseOf i w'.history).ending = some sid →
    w.shared.scopes i = some (Scope.of sid) ∧
    ∀ j, j ≠ i → (w.tasks j).alive = true → w.shared.scopes j ≠ some (Scope.of sid)
  taken : ∀ sid, w'.shared.scopes i = some (Scope.of sid) → ∀ j, j ≠ i →
    (phaseOf j w.history).ending ≠ some sid ∧ (phaseOf j w.history).made ≠ some sid
  has : ∀ sid, (phaseOf i w'.history).has = some sid → w'.shared.scopes i = some (Scope.of sid)
  made : ∀ sid, (phaseOf i w'.history).made = some sid → (i, sid) ∈ w'.shared.sessions ∧
    ¬Ended sid w'.history ∧ ∀ j, w'.shared.scopes j ≠ some (Scope.of sid)
  known : ∀ sid, w'.shared.scopes i = some (Scope.of sid) → ∃ k, (k, sid) ∈ w'.shared.sessions
  closed : ∀ sid, phaseOf i w'.history ≠ .unclosed sid
  settled : ∀ sid, (phaseOf i w'.history).ending = some sid → Ended sid w'.history

/-- A step keeps contexts running if it does so for the task that makes it. -/
theorem Running.after (hw : Running w) (hi : RunningAfter w w' i)
    (hother : ∀ j, j ≠ i → phaseOf j w'.history = phaseOf j w.history)
    (htasks : ∀ j, j ≠ i → w'.tasks j = w.tasks j)
    (hscopes : ∀ j, j ≠ i → w'.shared.scopes j = w.shared.scopes j)
    (hsessions : w.shared.sessions ⊆ w'.shared.sessions)
    (howner : ∀ k j sid, (k, sid) ∈ w'.shared.sessions → (j, sid) ∈ w'.shared.sessions → k = j)
    (hended : ∀ sid, Ended sid w'.history →
      Ended sid w.history ∨ (phaseOf i w'.history).ending = some sid)
    (hgrow : ∀ sid, Ended sid w.history → Ended sid w'.history) : Running w' where
  running k sid hlive hk he := by
    by_cases hki : k = i
    · subst hki
      exact hi.running sid hk he
    · rw [htasks k hki] at hlive
      rw [hscopes k hki] at hk
      rw [hother k hki]
      rcases hended sid he with he | he
      · exact hw.running k sid hlive hk he
      · exact absurd hk ((hi.alone sid he).2 k hki hlive)
  alone k j sid hk hj hlive := by
    by_cases hki : k = i
    · subst hki
      rw [htasks j hj] at hlive
      rw [hscopes j hj]
      exact (hi.alone sid hk).2 j hj hlive
    · rw [hother k hki] at hk
      by_cases hji : j = i
      · subst hji
        exact fun h => (hi.taken sid h k hki).1 hk
      · rw [htasks j hji] at hlive
        rw [hscopes j hji]
        exact hw.alone k j sid hk hj hlive
  has k sid hk := by
    by_cases hki : k = i
    · subst hki
      exact hi.has sid hk
    · rw [hother k hki] at hk
      rw [hscopes k hki]
      exact hw.has k sid hk
  made k sid hk := by
    by_cases hki : k = i
    · subst hki
      exact hi.made sid hk
    · rw [hother k hki] at hk
      obtain ⟨hmem, hnot, hno⟩ := hw.made k sid hk
      refine ⟨hsessions hmem, fun he => ?_, fun j => ?_⟩
      · rcases hended sid he with he | he
        · exact hnot he
        · exact hno i (hi.alone sid he).1
      · by_cases hji : j = i
        · subst hji
          exact fun h => (hi.taken sid h k hki).2 hk
        · rw [hscopes j hji]
          exact hno j
  known k sid hk := by
    by_cases hki : k = i
    · subst hki
      exact hi.known sid hk
    · rw [hscopes k hki] at hk
      obtain ⟨j, hj⟩ := hw.known k sid hk
      exact ⟨j, hsessions hj⟩
  ended sid he := by
    have hold : ∃ k, (k, sid) ∈ w.shared.sessions := by
      rcases hended sid he with he | he
      · exact hw.ended sid he
      · exact hw.known i sid (hi.alone sid he).1
    obtain ⟨k, hk⟩ := hold
    exact ⟨k, hsessions hk⟩
  owner := howner
  closed k sid := by
    by_cases hki : k = i
    · subst hki
      exact hi.closed sid
    · rw [hother k hki]
      exact hw.closed k sid
  settled k sid hk := by
    by_cases hki : k = i
    · subst hki
      exact hi.settled sid hk
    · rw [hother k hki] at hk
      exact hgrow sid (hw.settled k sid hk)

/-- A step of task `i` that changes no context variable and makes no session. -/
theorem Running.move (hw : Running w) (hlive : (w.tasks i).alive = true)
    (hother : ∀ j, j ≠ i → phaseOf j w'.history = phaseOf j w.history)
    (htasks : ∀ j, j ≠ i → w'.tasks j = w.tasks j)
    (hscopes : w'.shared.scopes = w.shared.scopes)
      (hsessions : w'.shared.sessions = w.shared.sessions)
    (hended : ∀ sid, Ended sid w'.history →
      Ended sid w.history ∨ (phaseOf i w'.history).ending = some sid)
    (hgrow : ∀ sid, Ended sid w.history → Ended sid w'.history)
    (hhas : ∀ sid, (phaseOf i w'.history).has = some sid → w.shared.scopes i = some (Scope.of sid))
    (hmade : ∀ sid, (phaseOf i w'.history).made = some sid → (phaseOf i w.history).made = some sid)
    (hending : ∀ sid, (phaseOf i w'.history).ending = some sid →
      (w.shared.scopes i = some (Scope.of sid) ∧ Ended sid w'.history) ∧
        ∀ j, j ≠ i → (w.tasks j).alive = true → w.shared.scopes j ≠ some (Scope.of sid))
    (hkeep : ∀ sid, (phaseOf i w.history).ending = some sid →
      (phaseOf i w'.history).ending = some sid)
    (hclosed : ∀ sid, phaseOf i w'.history ≠ .unclosed sid) : Running w' := by
  refine hw.after ⟨fun sid hi he => ?_, fun sid he => ?_,
    fun sid hi j hj => ⟨fun he => ?_, fun hm => ?_⟩,
    fun sid hi => ?_, fun sid hm => ?_, fun sid hi => ?_, hclosed, fun sid he =>
    (hending sid he).1.2⟩
    hother htasks (fun j _ => by rw [hscopes]) (by rw [hsessions]; exact List.Subset.refl _)
    (by rw [hsessions]; exact hw.owner) hended hgrow
  · rw [hscopes] at hi
    rcases hended sid he with he | he
    · exact hkeep sid (hw.running i sid hlive hi he)
    · exact he
  · exact ⟨(hending sid he).1.1, (hending sid he).2⟩
  · rw [hscopes] at hi
    exact hw.alone j i sid he hj.symm hlive hi
  · rw [hscopes] at hi
    exact (hw.made j sid hm).2.2 i hi
  · rw [hscopes]
    exact hhas sid hi
  · obtain ⟨hmem, hnot, hno⟩ := hw.made i sid (hmade sid hm)
    rw [hscopes, hsessions]
    refine ⟨hmem, fun he => ?_, hno⟩
    rcases hended sid he with he | he
    · exact hnot he
    · exact hno i (hending sid he).1.1
  · rw [hscopes] at hi
    rw [hsessions]
    exact hw.known i sid hi

/-- `session_factory()` makes a session that nobody knows. -/
theorem Running.create (hw : Running w) (hlive : (w.tasks i).alive = true) {s : State}
    {t : Task UnitOfWorkMethod Call Ret Exc UnitOfWorkResult}
    {sid : SessionId} (hφ : phaseOf i w.history = .vacant)
    (hfresh : ∀ e ∈ w.shared.sessions, e.2 ≠ sid) (hscopes : s.scopes = w.shared.scopes)
    (hsessions : s.sessions = (i, sid) :: w.shared.sessions) :
    Running (w.after s i t (.call i .sessionFactory (.ok sid))) := by
  set w' := w.after s i t (.call i .sessionFactory (.ok sid))
  have hself : phaseOf i w'.history = .created sid := by
    change phaseOf i (.call i .sessionFactory (.ok sid) :: w.history) = _
    rw [phaseOf_call, hφ]
    rfl
  have hended : ∀ u, Ended u w'.history ↔ Ended u w.history :=
    fun u => ended_call.trans (or_iff_right id)
  have hscopes' : w'.shared.scopes = w.shared.scopes := hscopes
  have hmem : ∀ e, e ∈ w'.shared.sessions ↔ e = (i, sid) ∨ e ∈ w.shared.sessions := by
    intro e
    change e ∈ s.sessions ↔ _
    rw [hsessions, List.mem_cons]
  -- the new session is not one that was known before
  have hnew : ∀ k u, (k, u) ∈ w.shared.sessions → u ≠ sid := fun k u h => hfresh _ h
  have hending : ∀ u, (phaseOf i w'.history).ending ≠ some u := by
    rw [hself]
    exact nofun
  refine hw.after ⟨fun u hi he => ?_, fun u he => absurd he (hending u),
    fun u hi j hj => ⟨fun he => ?_, fun hm => ?_⟩,
    fun u hi => ?_, fun u hm => ?_, fun u hi => ?_, fun u hc => ?_, fun u he =>
    absurd he (hending u)⟩
    (fun j hj => phaseOf_other (by simpa using Ne.symm hj) _)
      (fun j hj => Clients.after_ne _ _ _ _ _ _ hj)
    (fun j _ => by rw [hscopes']) (fun e he => (hmem e).2 (.inr he)) (fun k j u hk hj => ?_)
    (fun u he => .inl ((hended u).1 he)) fun u => (hended u).2
  · rw [hscopes'] at hi
    have hold := hw.running i u hlive hi ((hended u).1 he)
    rw [hφ] at hold
    cases hold
  · rw [hscopes'] at hi
    exact hw.alone j i u he hj.symm hlive hi
  · rw [hscopes'] at hi
    exact (hw.made j u hm).2.2 i hi
  · rw [hself] at hi
    cases hi
  · rw [hself] at hm
    cases hm
    refine ⟨(hmem _).2 (.inl rfl), fun he => ?_, fun j hj => ?_⟩
    · obtain ⟨k, hk⟩ := hw.ended _ ((hended _).1 he)
      exact hnew _ _ hk rfl
    · rw [hscopes'] at hj
      obtain ⟨k, hk⟩ := hw.known _ _ hj
      exact hnew _ _ hk rfl
  · rw [hscopes'] at hi
    obtain ⟨k, hk⟩ := hw.known i u hi
    exact ⟨k, (hmem _).2 (.inr hk)⟩
  · rw [hself] at hc
    cases hc
  · rcases (hmem _).1 hk with hk | hk <;> rcases (hmem _).1 hj with hj | hj
    · rw [(Prod.mk.inj hk).1, (Prod.mk.inj hj).1]
    · exact absurd (Prod.mk.inj hk).2 (hnew _ _ hj)
    · exact absurd (Prod.mk.inj hj).2 (hnew _ _ hk)
    · exact hw.owner k j u hk hj

/-- Task `i` gets a scope in its context, or loses it. -/
theorem Running.assign (hw : Running w) {scope : Option Scope}
    (hother : ∀ j, j ≠ i → phaseOf j w'.history = phaseOf j w.history)
    (htasks : ∀ j, j ≠ i → w'.tasks j = w.tasks j)
    (hscopes : w'.shared.scopes = Function.update w.shared.scopes i scope)
    (hsessions : w'.shared.sessions = w.shared.sessions)
    (hended : ∀ sid, Ended sid w'.history ↔ Ended sid w.history)
    (hphase : (phaseOf i w'.history).ending = none ∧ (phaseOf i w'.history).made = none ∧
      ∀ sid, phaseOf i w'.history ≠ .unclosed sid)
    (hhas : ∀ sid, (phaseOf i w'.history).has = some sid → scope = some (Scope.of sid))
    (hscope : ∀ sid, scope = some (Scope.of sid) → (∃ k, (k, sid) ∈ w.shared.sessions) ∧
      ¬Ended sid w.history ∧ ∀ j, j ≠ i → (phaseOf j w.history).ending ≠ some sid ∧
        (phaseOf j w.history).made ≠ some sid) : Running w' := by
  have hself : w'.shared.scopes i = scope := by rw [hscopes, Function.update_self]
  have hending : ∀ sid, (phaseOf i w'.history).ending ≠ some sid := by
    intro sid
    rw [hphase.1]
    exact nofun
  refine hw.after ⟨fun sid hi he => ?_, fun sid he => absurd he (hending sid), fun sid hi => ?_,
    fun sid hi => ?_,
    fun sid hm => ?_, fun sid hi => ?_, hphase.2.2, fun sid he => absurd he (hending sid)⟩
    hother htasks (fun j hj => by rw [hscopes, Function.update_of_ne hj])
      (by rw [hsessions]; exact List.Subset.refl _)
    (by rw [hsessions]; exact hw.owner) (fun sid he => .inl ((hended sid).1 he))
    fun sid => (hended sid).2
  · rw [hself] at hi
    exact absurd ((hended sid).1 he) (hscope sid hi).2.1
  · rw [hself] at hi
    exact (hscope sid hi).2.2
  · rw [hself]
    exact hhas sid hi
  · rw [hphase.2.1] at hm
    cases hm
  · rw [hself] at hi
    rw [hsessions]
    exact (hscope sid hi).1

theorem Phase.has_of_ending {φ : Phase} {sid : SessionId} (h : φ.ending = some sid) :
    φ.has = some sid := by
  cases φ <;> first | exact h | cases h

/-- Task `i` ends its session. -/
theorem Running.finish (hw : Running w) (hlive : (w.tasks i).alive = true) {sid : SessionId}
    (hother : ∀ j, j ≠ i → phaseOf j w'.history = phaseOf j w.history)
    (htasks : ∀ j, j ≠ i → w'.tasks j = w.tasks j)
    (hscopes : w'.shared.scopes = w.shared.scopes)
      (hsessions : w'.shared.sessions = w.shared.sessions)
    (hhas : (phaseOf i w.history).has = some sid)
    (hending : (phaseOf i w'.history).ending = some sid)
    (hended : ∀ u, Ended u w'.history ↔ Ended u w.history ∨ sid = u)
    (halone : ∀ j, j ≠ i → (w.tasks j).alive = true → w.shared.scopes j ≠ some (Scope.of sid)) :
    Running w' := by
  have hscope := hw.has i sid hhas
  have hhas' := Phase.has_of_ending hending
  have hφ : (phaseOf i w'.history).made = none ∧ ∀ u, phaseOf i w'.history ≠ .unclosed u := by
    cases hφ : phaseOf i w'.history <;> rw [hφ] at hending <;> cases hending <;>
      exact ⟨rfl, nofun⟩
  refine hw.move hlive hother htasks hscopes hsessions (fun u he => ?_)
    (fun u he => (hended u).2 (.inl he)) (fun u h => ?_) (fun u h => ?_) (fun u h => ?_)
    (fun u h => ?_) hφ.2
  · rcases (hended u).1 he with he | rfl
    · exact Or.inl he
    · exact Or.inr hending
  · rw [hhas'] at h
    cases h
    exact hscope
  · rw [hφ.1] at h
    cases h
  · rw [hending] at h
    cases h
    exact ⟨⟨hscope, (hended sid).2 (.inr rfl)⟩, halone⟩
  · have hu := Phase.has_of_ending h
    rw [hhas] at hu
    cases hu
    exact hending

theorem Plausible.scope {scope : Scope} (h : Plausible .scopeGet (.ok (some scope))) :
    ∃ sid, scope = Scope.of sid := by
  cases h with
  | found => exact ⟨_, rfl⟩
  | awaited h => cases h

/-- A call keeps contexts running. -/
theorem Running.call (hw : Running w) (hlive : (w.tasks i).alive = true) {op : UnitOfWorkMethod}
    {c : Call} {r : Except Exc (Ret c)}
    {s : State} {prog : App UnitOfWorkResult} (hc : Makes op (phaseOf i w.history) c)
    (ha : Acts i w.shared s c r) (hr : Plausible c r) (hP : EndsAlone w (.call i c r)) :
    Running (w.after s i (.busy op prog) (.call i c r)) := by
  have hother : ∀ j, j ≠ i → phaseOf j (w.after s i (.busy op prog) (.call i c r)).history =
      phaseOf j w.history := fun j hj => phaseOf_other (by simpa using Ne.symm hj) _
  have htasks : ∀ j, j ≠ i → (w.after s i (.busy op prog) (.call i c r)).tasks j = w.tasks j :=
    fun j hj => Clients.after_ne _ _ _ _ _ _ hj
  have hself : phaseOf i (w.after s i (.busy op prog) (.call i c r)).history =
      (phaseOf i w.history).after c r := phaseOf_call c r
  have hgrow : ∀ sid, Ended sid w.history →
      Ended sid (w.after s i (.busy op prog) (.call i c r)).history := fun sid => Ended.cons
  have hquiet : (∀ sid, ¬c.EndsSession sid) → ∀ sid,
      Ended sid (w.after s i (.busy op prog) (.call i c r)).history ↔ Ended sid w.history :=
    fun h sid => ended_call.trans (or_iff_right (h sid))
  have hadds : ∀ sid u, (∀ v, c.EndsSession v ↔ sid = v) →
      (Ended u (w.after s i (.busy op prog) (.call i c r)).history ↔ Ended u w.history ∨ sid = u) :=
    fun sid u h => ended_call.trans (by rw [h u, or_comm])
  generalize hφ : phaseOf i w.history = φ at hc hself
  cases hc with
  | scopeGet =>
    have hends : ∀ sid, (phaseOf i w.history).ending ≠ some sid := by
      rw [hφ]
      exact nofun
    cases ha with
    | awaited h => cases h
    | @scopeGet scope hi hscopes hsessions =>
      cases scope with
      | none =>
        have hself : phaseOf i _ = .vacant := hself
        refine hw.move hlive hother htasks hscopes hsessions
          (fun sid he => Or.inl ((hquiet nofun sid).1 he)) hgrow
          ?_ ?_ ?_ (fun sid h => absurd h (hends sid)) ?_ <;> rw [hself] <;> exact nofun
      | some scope =>
        obtain ⟨sid, rfl⟩ := hr.scope
        have hself : phaseOf i _ = .found sid := hself
        refine hw.move hlive hother htasks hscopes hsessions
          (fun sid he => Or.inl ((hquiet nofun sid).1 he)) hgrow
          (fun u h => ?_) ?_ ?_ (fun sid h => absurd h (hends sid)) ?_
        · rw [hself] at h
          cases h
          exact hi
        all_goals rw [hself]; exact nofun
  | sessionFactory =>
    cases ha with
    | awaited h => cases h
    | sessionFactory hfresh hscopes hsessions => exact hw.create hlive hφ hfresh hscopes hsessions
  | @begin sid =>
    cases ha with
    | awaited _ hscopes hsessions =>
      refine hw.move hlive hother htasks hscopes hsessions
        (fun sid he => Or.inl ((hquiet nofun sid).1 he)) hgrow
        (fun u h => ?_) (fun u h => ?_) (fun u h => ?_) (fun u h => ?_) fun u => ?_
      · cases r <;> rw [hself] at h <;> cases h
      · cases r <;> rw [hself] at h <;> cases h
        rw [hφ]
        rfl
      · cases r <;> rw [hself] at h <;> cases h
      · rw [hφ] at h
        cases h
      · cases r <;> rw [hself] <;> exact nofun
  | @enter sid =>
    obtain ⟨hmem, hnot, hno⟩ := hw.made i sid (by rw [hφ]; rfl)
    cases ha with
    | awaited h => cases h
    | scopeSet hscopes hsessions =>
      have hself : phaseOf i _ = .entered sid := hself
      refine hw.assign hother htasks hscopes hsessions (hquiet nofun) ?_ (fun u h => ?_)
        fun u h => ?_
      · rw [hself]
        exact ⟨rfl, rfl, nofun⟩
      · rw [hself] at h
        cases h
        rfl
      · obtain rfl : sid = u := Scope.of_inj.1 (Option.some.inj h)
        refine ⟨⟨i, hmem⟩, hnot, fun j hj => ⟨fun he => ?_, fun hm => ?_⟩⟩
        · exact hno j (hw.has j _ (Phase.has_of_ending he))
        · exact hj (hw.owner j i _ (hw.made j _ hm).1 hmem)
  | @flush sid =>
    have hscope := hw.has i sid (by rw [hφ]; rfl)
    cases ha with
    | awaited _ hscopes hsessions =>
      refine hw.move hlive hother htasks hscopes hsessions
        (fun sid he => Or.inl ((hquiet nofun sid).1 he)) hgrow
        (fun u h => ?_) (fun u h => ?_) (fun u h => ?_) (fun u h => ?_) fun u => ?_
      · cases r <;> rw [hself] at h <;> cases h <;> exact hscope
      · cases r <;> rw [hself] at h <;> cases h
      · cases r <;> rw [hself] at h <;> cases h
      · rw [hφ] at h
        cases h
      · cases r <;> rw [hself] <;> exact nofun
  | @commit sid =>
    have hending : ((Phase.flushed sid).after _ r).ending = some sid := by cases r <;> rfl
    rw [← hself] at hending
    cases ha with
    | awaited _ hscopes hsessions =>
      exact hw.finish hlive hother htasks hscopes hsessions (by rw [hφ]; rfl) hending
        (fun u => hadds sid u fun _ => Iff.rfl) (hP.1 sid rfl)
  | @rollback sid e =>
    have hending : ((Phase.found sid).after _ r).ending = some sid := by cases r <;> rfl
    rw [← hself] at hending
    cases ha with
    | awaited _ hscopes hsessions =>
      exact hw.finish hlive hother htasks hscopes hsessions (by rw [hφ]; rfl) hending
        (fun u => hadds sid u fun _ => Iff.rfl) (hP.1 sid rfl)
  | @closeUnflushed sid exc =>
    have hending : ((Phase.unflushed sid).after (.close sid) r).ending = some sid := by
      cases r with
      | ok => rfl
      | error e => exact absurd rfl (hP.2 sid e rfl)
    rw [← hself] at hending
    cases ha with
    | awaited _ hscopes hsessions =>
      exact hw.finish hlive hother htasks hscopes hsessions (by rw [hφ]; rfl) hending
        (fun u => hadds sid u fun _ => Iff.rfl) (hP.1 sid rfl)
  | @close sid failed exc =>
    have hending : ((Phase.finished sid failed).after (.close sid) r).ending = some sid := by
      cases r with
      | ok => rfl
      | error e => exact absurd rfl (hP.2 sid e rfl)
    rw [← hself] at hending
    cases ha with
    | awaited _ hscopes hsessions =>
      exact hw.finish hlive hother htasks hscopes hsessions (by rw [hφ]; rfl) hending
        (fun u => hadds sid u fun _ => Iff.rfl) (hP.1 sid rfl)
  | @leave sid failed exc =>
    cases ha with
    | awaited h => cases h
    | scopeSet hscopes hsessions =>
      have hself : phaseOf i _ = .left sid failed := hself
      refine hw.assign hother htasks hscopes hsessions (hquiet nofun) ?_ (fun u h => ?_) nofun
      · rw [hself]
        exact ⟨rfl, rfl, nofun⟩
      · rw [hself] at h
        cases h

/-- **A step keeps contexts running.** -/
theorem Running.step (hw : Running w) (hs : Proper w m w')
    (hlive : ∀ i, Moment.By i m → (w.tasks i).alive = true) (hP : EndsAlone w m) :
    Running w' := by
  cases hs with
  | @start i op hi =>
    have hother : ∀ j, j ≠ i → phaseOf j (.start i op :: w.history) = phaseOf j w.history :=
      fun j hj => phaseOf_other (by simpa using Ne.symm hj) _
    refine hw.move (hlive i rfl) hother (fun j hj => Clients.after_ne _ _ _ _ _ _ hj) rfl rfl
      (fun sid he => Or.inl ((ended_cons fun _ _ _ h => by cases h).1 he)) (fun _ => Ended.cons)
      ?_ ?_ ?_ (fun sid h => ?_) ?_
    rotate_left 3
    · rw [hi] at h
      cases h
    all_goals rw [Clients.after_history, phaseOf_start]; exact nofun
  | @call i _ _ _ _ _ _ hc ha hr => exact hw.call (hlive i rfl) hc ha hr hP
  | @finish i op out he =>
    have hother : ∀ j, j ≠ i → phaseOf j (.finish i op out :: w.history) = phaseOf j w.history :=
      fun j hj => phaseOf_other (by simpa using Ne.symm hj) _
    refine hw.move (hlive i rfl) hother (fun j hj => Clients.after_ne _ _ _ _ _ _ hj) rfl rfl
      (fun sid he => Or.inl ((ended_cons fun _ _ _ h => by cases h).1 he)) (fun _ => Ended.cons)
      ?_ ?_ ?_ (fun sid h => ?_) ?_
    rotate_left 3
    · revert h he
      generalize phaseOf i w.history = φ
      rintro ⟨⟩ h <;> cases h
    all_goals rw [Clients.after_history, phaseOf_finish]; exact nofun
  | @fork i j hj hi hnew =>
    have hother : ∀ k, k ≠ j → phaseOf k (.fork i j :: w.history) = phaseOf k w.history :=
      fun k _ => rfl
    refine hw.assign hother (fun k hk => Clients.after_ne _ _ _ _ _ _ hk) rfl rfl
      (fun sid => ended_cons fun _ _ _ h => by cases h) ?_ ?_ (fun sid h => ?_)
    · rw [Clients.after_history, phaseOf_fork, hj]
      exact ⟨rfl, rfl, nofun⟩
    · rw [Clients.after_history, phaseOf_fork, hj]
      exact nofun
    · exact ⟨hw.known i sid h, hP sid h, fun k _ => ⟨fun he => hP sid h (hw.settled k sid he),
        fun hm => (hw.made k sid hm).2.2 i h⟩⟩
  | @stop i hi =>
    refine hw.move (hlive i rfl) (fun j _ => rfl) (fun j hj => Clients.after_ne _ _ _ _ _ _ hj) rfl
      rfl (fun sid he => Or.inl ((ended_cons fun _ _ _ h => by cases h).1 he)) (fun _ => Ended.cons)
      ?_ ?_ ?_ (fun sid h => h) ?_
    all_goals rw [Clients.after_history, phaseOf_stop, hi]; exact nofun

section
variable {ext : Externals} {d : Dialect} {faulty : Call → Bool}
  (hf : ∀ c, faulty c = true → c.awaited = true) {root : ℕ} {S : Store} {clock : Instant}
include hf

theorem running (hw : (unitOfWork ext d faulty).ReachableIf EndsAlone root (State.idle S clock) w) :
    Running w := by
  induction hw with
  | start =>
    have hnot : ∀ sid, ¬Ended sid [] := by
      rintro sid ⟨i, c, r, hm, -⟩
      cases hm
    exact ⟨fun _ _ _ h => (by cases h), fun _ _ _ h => (by cases h), fun _ _ h => (by cases h),
      fun _ _ h => (by cases h), fun _ _ h => (by cases h), fun sid he => absurd he (hnot sid),
      fun _ _ _ h => (by cases h), fun _ _ h => (by cases h), fun _ _ h => (by cases h)⟩
  | step hw hs hP ih => exact ih.step (proper hf hw hs) (fun _ hm => hs.alive hm) hP

end

/-- **No use after close**: when a repository is handed out, the transaction of its session is
    running. -/
theorem no_use_after_close {ext : Externals} {d : Dialect} {root : ℕ} {S : Store} {clock : Instant}
    (hw : (unitOfWork ext d Call.awaited).ReachableIf EndsAlone root (State.idle S clock) w)
    {h₁ h₂ : Moments} {op : UnitOfWorkMethod} {result : UnitOfWorkResult} {sid : SessionId}
    (hh : w.history = h₁ ++ .finish i op (.ok result) :: h₂) (hsid : result.session = some sid) :
    ¬Ended sid h₂ := by
  obtain ⟨v, v', hv, hs, -, rfl⟩ := hw.at_moment hh
  intro he
  have hrun := running (fun _ h => h) hv
  have hends : Concludes op (.ok result) (phaseOf i v.history) := by
    cases proper (fun _ h => h) hv hs with
    | finish h => exact h
  have hlive : (v.tasks i).alive = true := hs.alive rfl
  generalize hφ : phaseOf i v.history = φ at hends
  cases hends with
  | userRepository | refreshSessionRepository =>
    cases hsid
    have hending := hrun.running i _ hlive (hrun.has i _ (by rw [hφ]; rfl)) he
    rw [hφ] at hending
    cases hending
  | _ => cases hsid

namespace Sample

/-- The calls of a method of task `i`. -/
def runs (i : ℕ) (op : UnitOfWorkMethod) (n : ℕ) (ch : Choice) :
    List (Command UnitOfWorkMethod Choice) :=
  .start i op :: List.replicate n (.answer i ch) ++ [.finish i]

/-- Execute a schedule on one instance, all of whose steps pass the check. -/
def share (faulty : Call → Bool)
    (check : UnitOfWorkClients → Moment UnitOfWorkMethod Call Ret Exc UnitOfWorkResult → Bool)
    (commands : List (Command UnitOfWorkMethod Choice)) : Option UnitOfWorkClients :=
  (unitOfWork externals .sqlite faulty).schedule (perform externals .sqlite faulty) check
    (Object.start 0 (State.idle ⟨[], []⟩ 0)) commands

theorem share_reachableIf {faulty : Call → Bool}
    {check : UnitOfWorkClients → Moment UnitOfWorkMethod Call Ret Exc UnitOfWorkResult → Bool}
    {P : UnitOfWorkClients → Moment UnitOfWorkMethod Call Ret Exc UnitOfWorkResult → Prop}
    (hP : ∀ v m, check v m = true → P v m) {commands : List (Command UnitOfWorkMethod Choice)}
    {w : UnitOfWorkClients} (h : share faulty check commands = some w) :
    (unitOfWork externals .sqlite faulty).ReachableIf P 0 (State.idle ⟨[], []⟩ 0) w :=
  have answers : ∀ i s c ch r s', perform externals .sqlite faulty i s c ch = some (r, s') →
      (unitOfWork externals .sqlite faulty).answer i s c r s' := fun _ _ _ ch _ _ h => ⟨ch, h⟩
  Object.schedule_reachableIf answers (fun _ _ _ _ _ hm => hP _ _ hm) .start h

/-- A task starts another in its block, and ends the block before the other uses it. -/
def outlived : List (Command UnitOfWorkMethod Choice) :=
  runs 0 .aenter 4 {} ++ [.fork 0 1] ++ runs 0 (.aexit none) 5 {} ++ runs 1 .userRepository 1 {}

/-- Two blocks, each with a task that is started in it; the first of these tasks ends before its
    block does. -/
def joined : List (Command UnitOfWorkMethod Choice) :=
  runs 0 .aenter 4 {} ++ [.fork 0 1] ++ runs 1 .userRepository 1 {} ++ [.stop 1] ++
    runs 0 (.aexit none) 5 {} ++ runs 0 .aenter 4 { session := 1 } ++ [.fork 0 2] ++
    runs 2 .userRepository 1 {}

/-- The last thing that happened is that the task got a repository of the session. -/
def handsOut (i : ℕ) (sid : SessionId) : Moments → Bool
  | .finish j .userRepository (.ok (.userRepository repository)) :: _ =>
    j = i && repository.session = sid
  | _ => false

/-- The session was ended. -/
def endedBefore (sid : SessionId) (h : Moments) : Bool :=
  h.any fun m => match m with
    | .call _ (.commit s) _ | .call _ (.rollback s) _ | .call _ (.close s) _ => s = sid
    | _ => false

theorem handsOut_spec {i : ℕ} {sid : SessionId} {h : Moments} (hh : handsOut i sid h = true) :
    ∃ h₂, h = [] ++ .finish i .userRepository (.ok (.userRepository ⟨sid⟩)) :: h₂ := by
  unfold handsOut at hh
  split at hh
  · obtain ⟨hi, hsid⟩ := Bool.and_eq_true_iff.1 hh
    obtain rfl := of_decide_eq_true hi
    obtain rfl := of_decide_eq_true hsid
    exact ⟨_, rfl⟩
  · cases hh

theorem endedBefore_iff {sid : SessionId} {h : Moments} :
    endedBefore sid h = true ↔ Ended sid h := by
  constructor
  · intro hh
    obtain ⟨m, hm, hmatch⟩ := List.any_eq_true.1 hh
    split at hmatch
    case h_4 => cases hmatch
    all_goals
      obtain rfl := of_decide_eq_true hmatch
      exact ⟨_, _, _, hm, rfl⟩
  · rintro ⟨i, c, r, hm, hc⟩
    refine List.any_eq_true.2 ⟨_, hm, ?_⟩
    cases c <;> first | exact decide_eq_true hc | exact hc.elim

/-- Of the first `n` tasks, no other one alive has the session. -/
def alone (n : ℕ) (w : UnitOfWorkClients) (i : ℕ) (sid : SessionId) : Bool :=
  (List.range n).all fun j =>
    j = i || !(w.tasks j).alive || w.shared.scopes j ≠ some (Scope.of sid)

/-- The step ends a session alone, among `n` tasks. -/
def endsAlone (n : ℕ) (w : UnitOfWorkClients) :
    Moment UnitOfWorkMethod Call Ret Exc UnitOfWorkResult → Bool
  | .call i (.commit sid) _ | .call i (.rollback sid) _ | .call i (.close sid) (.ok _) =>
    alone n w i sid
  | .call _ (.close _) (.error _) => false
  | .fork i j => j < n && (w.shared.scopes i).all fun scope => !endedBefore scope.session w.history
  | _ => true

/-- A run of `n` tasks that end their sessions alone. -/
theorem share_endsAlone {n : ℕ} (hn : 0 < n) {commands : List (Command UnitOfWorkMethod Choice)}
    {w : UnitOfWorkClients} (h : share Call.awaited (endsAlone n) commands = some w) :
    (unitOfWork externals .sqlite Call.awaited).ReachableIf EndsAlone 0
      (State.idle ⟨[], []⟩ 0) w := by
  have hrun : (unitOfWork externals .sqlite Call.awaited).ReachableIf
      (fun v m => endsAlone n v m = true) 0 (State.idle ⟨[], []⟩ 0) w :=
    share_reachableIf (fun _ _ hm => hm) h
  have hfork : ∀ (v : UnitOfWorkClients) i j, endsAlone n v (.fork i j) = true → j < n :=
    fun v i j hm => of_decide_eq_true (Bool.and_eq_true_iff.1 hm).1
  refine hrun.imp fun v m v' hv _ hm => ?_
  have halone : ∀ i sid, alone n v i sid = true → ∀ j, j ≠ i → (v.tasks j).alive = true →
      v.shared.scopes j ≠ some (Scope.of sid) := by
    intro i sid hall j hj hlive
    have hlt : j < n := by
      by_contra hge
      rw [hv.absent hn hfork j (Nat.le_of_not_lt hge)] at hlive
      cases hlive
    simpa [hj, hlive] using List.all_eq_true.1 hall j (List.mem_range.2 hlt)
  cases m with
  | call i c r =>
    cases c with
    | commit sid | rollback sid => exact ⟨fun _ hu => hu ▸ halone i sid hm, nofun⟩
    | close sid =>
      cases r with
      | ok => exact ⟨fun _ hu => hu ▸ halone i sid hm, nofun⟩
      | error => cases hm
    | _ => exact ⟨fun _ hu => hu.elim, nofun⟩
  | fork i j =>
    intro sid hscope he
    have hnot := (Bool.and_eq_true_iff.1 hm).2
    rw [hscope] at hnot
    have htrue := endedBefore_iff.2 he
    simp [Scope.of, htrue] at hnot
  | _ => trivial

end Sample

theorem no_use_after_close_joined : ∃ w h₂,
    Sample.share Call.awaited (Sample.endsAlone 3) Sample.joined = some w ∧ Ended 0 w.history ∧
      w.history = [] ++ .finish 2 .userRepository (.ok (.userRepository ⟨1⟩)) :: h₂ ∧
      ¬Ended 1 h₂ := by
  have hrun : (Sample.share Call.awaited (Sample.endsAlone 3) Sample.joined).any (fun w =>
      Sample.handsOut 2 1 w.history && Sample.endedBefore 0 w.history) = true := by decide
  obtain ⟨w, hw, hrun⟩ := (Option.any_eq_true _ _).1 hrun
  obtain ⟨hhands, hended⟩ := Bool.and_eq_true_iff.1 hrun
  obtain ⟨h₂, hh⟩ := Sample.handsOut_spec hhands
  have hreach := Sample.share_endsAlone (by decide) hw
  exact ⟨w, h₂, hw, Sample.endedBefore_iff.1 hended, hh, no_use_after_close hreach hh rfl⟩

/-- A task that is started in a block and outlives it gets a repository of the closed session. -/
theorem use_after_close :
    ¬∀ (ext : Externals) (d : Dialect) (root : ℕ) (S : Store) (clock : Instant)
    (w : UnitOfWorkClients) (h₁ h₂ : Moments) (i : ℕ) (op : UnitOfWorkMethod)
    (result : UnitOfWorkResult) (sid : SessionId),
    (unitOfWork ext d Call.awaited).ReachableIf (fun _ _ => True) root (State.idle S clock) w →
    w.history = h₁ ++ .finish i op (.ok result) :: h₂ → result.session = some sid →
    ¬Ended sid h₂ := by
  intro h
  have hrun : (Sample.share Call.awaited (fun _ _ => true) Sample.outlived).any (fun w =>
      Sample.handsOut 1 0 w.history && Sample.endedBefore 0 w.history) = true := by decide
  obtain ⟨w, hw, hrun⟩ := (Option.any_eq_true _ _).1 hrun
  obtain ⟨hhands, hended⟩ := Bool.and_eq_true_iff.1 hrun
  obtain ⟨h₂, hh⟩ := Sample.handsOut_spec hhands
  have hreach := Sample.share_reachableIf (fun _ _ _ => trivial) hw
  have hended := Sample.endedBefore_iff.1 hended
  rw [hh] at hended
  exact h _ _ _ _ _ w [] h₂ 1 _ _ 0 hreach hh rfl
    ((ended_cons fun _ _ _ h => by cases h).1 hended)

end FastapiTemplate
