/-
  The protocol is right about every interleaving: what each stage says of the
  database (`Stage.Holds`) survives the steps of the other executions, because
  the locks of a transaction protect it.
-/
import FastapiTemplate.Proof.Answers
import FastapiTemplate.Proof.UseCases

namespace FastapiTemplate

open Effects Locking Locking.Db

/-! ## What a stage says of the state -/

/-- The session belongs to execution `i`, which has no other. -/
structure Owns (s : State) (i : ℕ) (sid : SessionId) : Prop where
  mem : (i, sid) ∈ s.sessions
  only : ∀ u, (i, u) ∈ s.sessions → u = sid

/-- An execution inside its block. -/
structure Inside (D : Deployment) (req : Request D.ext) (saw : History) (s : State) (i : ℕ)
    (sid : SessionId) (work : Work) : Prop where
  scope : s.scopes i = some (Scope.of sid)
  owns : Owns s i sid
  unlogged : ¬s.Logged sid
  writes : s.db.writes sid = work.writes
  pending : s.pending sid = work.changes
  basis : ∀ w ∈ work.writes, Basis D saw req w
  change : ∀ c ∈ work.changes, Basis D saw req (.setRevokedAt c.1 c.2)
  fits : ∀ w ∈ work.writes, w.Fits s.db.committed
  /-- on PostgreSQL a row read `FOR UPDATE` is locked, and stays as it was read -/
  locked : D.dialect = .postgresql → ∀ row, SawRow saw row →
    (sid, .refreshSession row.id) ∈ s.db.locks ∧ row ∈ s.db.committed.refreshSessions

/-- What a stage says of the state. -/
def Stage.Holds (D : Deployment) (req : Request D.ext) (saw : History) (s : State) (i : ℕ) :
    Stage → Prop
  | .outside => s.scopes i = none ∧ (∀ u, (i, u) ∉ s.sessions) ∧ ∀ row, ¬SawRow saw row
  | .opened sid => s.scopes i = none ∧ Owns s i sid ∧ ¬s.Logged sid ∧ s.db.writes sid = [] ∧
      s.pending sid = [] ∧ ∀ row, ¬SawRow saw row
  | .inside sid work => Inside D req saw s i sid work
  | .broken sid => s.scopes i = some (Scope.of sid) ∧ Owns s i sid ∧ ¬s.Logged sid
  | .committed sid work => Owns s i sid ∧ (sid, work.writes) ∈ s.db.log ∧
      ∀ w ∈ work.writes, Basis D saw req w
  | .aborted sid => Owns s i sid ∧ ¬s.Logged sid

/-- What is true of every state. -/
structure StateInv (D : Deployment) (s : State) : Prop where
  twoPhase : TwoPhase D.dialect.schema s.db
  valid : s.db.committed.Valid
  owner : ∀ i j u, (i, u) ∈ s.sessions → (j, u) ∈ s.sessions → i = j
  stranger : ∀ u, (∀ i, (i, u) ∉ s.sessions) →
    s.db.writes u = [] ∧ s.pending u = [] ∧ ¬s.Logged u
  log : (s.db.log.map Prod.fst).Nodup
  created : ∀ r ∈ s.db.committed.refreshSessions,
    r.id ∉ D.store.refreshSessions.map (·.id) → r.createdAt ≤ s.clock

variable {D : Deployment} {req : Request D.ext} {s s' : State} {i j : ℕ} {sid : SessionId}
  {l : Loc} {st : Stage} {work : Work} {c : Call} {r : Except Exc (Ret c)}

/-! ## The steps of the others -/

theorem Owns.frame {o : Option SessionId} (h : Owns s j sid) (hf : Frame i o s s') (hj : j ≠ i) :
    Owns s' j sid :=
  ⟨(hf.sessions j sid hj).2 h.mem, fun u hu => h.only u ((hf.sessions j u hj).1 hu)⟩

theorem Frame.logged {o : Option SessionId} (hf : Frame i o s s') (ho : o ≠ some sid) :
    s'.Logged sid ↔ s.Logged sid :=
  exists_congr fun ws => hf.log sid ws ho

/-- The steps of another execution, on another session, keep what a stage says, if they keep what
    the transaction's writes need and the rows it has locked. -/
theorem Stage.Holds.frame {o : Option SessionId} {saw : History} (h : st.Holds D req saw s j)
    (hf : Frame i o s s') (hj : j ≠ i) (ho : ∀ u, (j, u) ∈ s.sessions → o ≠ some u)
    (fits : ∀ u w, (j, u) ∈ s.sessions → w ∈ s.db.writes u → w.Fits s.db.committed →
      w.Fits s'.db.committed)
    (rows : ∀ u row, (j, u) ∈ s.sessions → D.dialect = .postgresql →
      (u, .refreshSession row.id) ∈ s.db.locks → row ∈ s.db.committed.refreshSessions →
      row ∈ s'.db.committed.refreshSessions) :
    st.Holds D req saw s' j := by
  cases st with
  | outside =>
    obtain ⟨h₁, h₂, h₃⟩ := h
    exact ⟨(hf.scopes j hj).trans h₁, fun u hu => h₂ u ((hf.sessions j u hj).1 hu), h₃⟩
  | opened sid =>
    obtain ⟨h₁, h₂, h₃, h₄, h₅, h₆⟩ := h
    have hs := ho sid h₂.mem
    exact ⟨(hf.scopes j hj).trans h₁, h₂.frame hf hj, (hf.logged hs).not.2 h₃,
      (hf.writes sid hs).trans h₄, (hf.pending sid hs).trans h₅, h₆⟩
  | inside sid work =>
    have hs := ho sid h.owns.mem
    exact {
      scope := (hf.scopes j hj).trans h.scope
      owns := h.owns.frame hf hj
      unlogged := (hf.logged hs).not.2 h.unlogged
      writes := (hf.writes sid hs).trans h.writes
      pending := (hf.pending sid hs).trans h.pending
      basis := h.basis
      change := h.change
      fits := fun w hw => fits sid w h.owns.mem (h.writes ▸ hw) (h.fits w hw)
      locked := fun hd row hrow => by
        obtain ⟨hl, hm⟩ := h.locked hd row hrow
        exact ⟨(hf.locks sid _ hs).2 hl, rows sid row h.owns.mem hd hl hm⟩ }
  | broken sid =>
    obtain ⟨h₁, h₂, h₃⟩ := h
    exact ⟨(hf.scopes j hj).trans h₁, h₂.frame hf hj, (hf.logged (ho sid h₂.mem)).not.2 h₃⟩
  | committed sid work =>
    obtain ⟨h₁, h₂, h₃⟩ := h
    exact ⟨h₁.frame hf hj, (hf.log sid _ (ho sid h₁.mem)).2 h₂, h₃⟩
  | aborted sid =>
    exact ⟨h.1.frame hf hj, (hf.logged (ho sid h.1.mem)).not.2 h.2⟩

/-- The session of a permitted call is the execution's own. -/
theorem Can.owned {saw : History} (hc : Can D req saw st c) (h : st.Holds D req saw s i)
    {u : SessionId} (hu : c.session = some u) : (i, u) ∈ s.sessions := by
  cases hc <;> cases hu <;> first
    | exact h.owns.mem
    | exact h.2.1.mem
    | exact h.1.mem

/-- **Isolation**: an answered call keeps what the stages of the other executions say. -/
theorem Stage.Holds.other {saw saw' : History} {req' : Request D.ext} {st' : Stage}
    (hI : StateInv D s) (hi : st.Holds D req saw s i) (hc : Can D req saw st c)
    (ha : Answer D.ext D.dialect Call.mayFail i s c r s') (hj : j ≠ i)
    (h : st'.Holds D req' saw' s j) : st'.Holds D req' saw' s' j := by
  have ho : ∀ u, (j, u) ∈ s.sessions → c.session ≠ some u := fun u hu hs =>
    hj (hI.owner j i u hu (hc.owned hi hs))
  refine h.frame ha.frame hj ho (fun u w hu hw hfit => ?_) fun u row hu hd hl hm => ?_
  · rcases ha.committed with ⟨hcom, -⟩ | ⟨sid, rfl, -, rfl⟩
    · rwa [hcom]
    · refine hI.twoPhase.stable_commit (w.protects_fits D.dialect)
        (fun l hl => hI.twoPhase.covered u w hw l hl) ?_ hfit
      rintro rfl
      exact ho _ hu rfl
  · rcases ha.committed with ⟨hcom, -⟩ | ⟨sid, rfl, -, rfl⟩
    · rwa [hcom]
    · refine hI.twoPhase.stable_commit (t := u) (protects_row D.dialect row) (fun l hl' => ?_) ?_ hm
      · rw [List.mem_singleton.1 hl', hd]
        exact hl
      · rintro rfl
        exact ho _ hu rfl

/-! ## The steps of the execution itself -/

theorem SawRow.after {row : RefreshSessionModel} (h : SawRow (l.after c r).saw row) :
    SawRow l.saw row ∨ ∃ sid h, ∃ rows : List RefreshSessionModel, row ∈ rows ∧
      (⟨c, r⟩ : Σ c, Except Exc (Ret c)) = ⟨.sql sid (.selectSessionByHash h true), .ok rows⟩ := by
  obtain ⟨sid, h, rows, hs, hr⟩ := h
  cases r with
  | error e => exact Or.inl ⟨sid, h, rows, hs, hr⟩
  | ok a =>
    rcases List.mem_cons.1 hs with hs | hs
    · cases hs
      exact Or.inr ⟨sid, h, rows, hr, rfl⟩
    · exact Or.inl ⟨sid, h, rows, hs, hr⟩

/-- An execution stays inside its block when a call leaves its transaction alone. -/
theorem Inside.keep (h : Inside D req l.saw s i sid work) (hdb : s'.db = s.db)
    (hp : s'.pending = s.pending) (hsc : s'.scopes = s.scopes) (hse : s'.sessions = s.sessions)
    (hc : ∀ u q, c ≠ .sql u q) : Inside D req (l.after c r).saw s' i sid work where
  scope := hsc ▸ h.scope
  owns := ⟨hse ▸ h.owns.mem, hse ▸ h.owns.only⟩
  unlogged := by simpa [State.Logged, hdb] using h.unlogged
  writes := hdb ▸ h.writes
  pending := hp ▸ h.pending
  basis w hw := (h.basis w hw).mono (l.le_after c r)
  change x hx := (h.change x hx).mono (l.le_after c r)
  fits w hw := hdb ▸ h.fits w hw
  locked hd row hrow := by
    rcases hrow.after with hrow | ⟨u, _, _, -, heq⟩
    · exact hdb ▸ h.locked hd row hrow
    · exact absurd (congrArg Sigma.fst heq) (hc u _)

/-- Ending the transaction without a commit. -/
theorem Inside.release (h : Inside D req l.saw s i sid work) :
    Owns (s.release sid) i sid ∧ ¬(s.release sid).Logged sid :=
  ⟨⟨h.owns.mem, h.owns.only⟩, h.unlogged⟩

/-- After a failed statement only the scope and the session matter. -/
theorem Inside.broken (h : Inside D req l.saw s i sid work) (hlog : s'.db.log = s.db.log)
    (hsc : s'.scopes = s.scopes) (hse : s'.sessions = s.sessions) {saw : History} :
    (Stage.broken sid).Holds D req saw s' i :=
  ⟨hsc ▸ h.scope, ⟨hse ▸ h.owns.mem, hse ▸ h.owns.only⟩, by
    simpa [State.Logged, hlog] using h.unlogged⟩

/-- What the transaction sees. -/
theorem Inside.view (h : Inside D req l.saw s i sid work) :
    s.db.view D.dialect.schema sid = D.dialect.schema.replay s.db.committed work.writes := by
  rw [Db.view, h.writes]

theorem Work.after_writes {q : Stmt} {u : ℤ} {v : Store} {e : Effect q} (he : q.run v u = .ok e)
    (hw : e.writes ≠ [] → work = .idle) :
    (work.after q e.ret).writes = work.writes ++ e.writes ∧
      (work.changes = [] → (work.after q e.ret).changes = []) := by
  have hrun := Stmt.run_writes he
  unfold Work.after
  cases ho : q.outcome e.ret with
  | none =>
    rw [ho] at hrun
    exact ⟨by simp [hrun], fun h => h⟩
  | some w =>
    rw [ho] at hrun
    obtain rfl := hw (by simp [hrun])
    exact ⟨by simp [hrun, Work.writes], fun _ => rfl⟩

/-- A statement that succeeds. -/
theorem Inside.sql {q : Stmt} {u : ℤ} {e : Effect q} (h : Inside D req l.saw s i sid work)
    (hc : Can D req l.saw (.inside sid work) (.sql sid q))
    (he : q.run (s.db.view D.dialect.schema sid) u = .ok e) :
    Inside D req (l.after (.sql sid q) (.ok e.ret)).saw
      { s with db := s.db.write sid (D.dialect.locks e) e.writes } i sid (work.after q e.ret) := by
  have hchanges : work.changes = [] := by
    cases hc with
    | read _ hw _ => exact hw
    | write _ => rfl
  have hidle : e.writes ≠ [] → work = .idle := by
    intro hne
    cases hc with
    | read hq _ _ =>
      obtain ⟨w, hw⟩ := List.exists_mem_of_ne_nil _ hne
      rw [Stmt.run_writes he, Option.mem_toList] at hw
      rw [Stmt.outcome_isWrite hw] at hq
      cases hq
    | write _ => rfl
  obtain ⟨hwrites, hch⟩ := Work.after_writes he hidle
  refine {
    scope := h.scope
    owns := ⟨h.owns.mem, h.owns.only⟩
    unlogged := h.unlogged
    writes := ?_
    pending := ?_
    basis := fun w hw => ?_
    change := fun x hx => by rw [hch hchanges] at hx; cases hx
    fits := fun w hw => ?_
    locked := fun hd row hrow => ?_ }
  · rw [write_self, h.writes, hwrites]
  · rw [h.pending, hch hchanges, hchanges]
  · rw [hwrites, List.mem_append] at hw
    rcases hw with hw | hw
    · exact (h.basis w hw).mono (l.le_after _ _)
    · obtain rfl := hidle (List.ne_nil_of_mem hw)
      have ho : q.outcome e.ret = some w := by
        rw [Stmt.run_writes he, Option.mem_toList] at hw
        exact hw
      cases hc with
      | read hq _ _ => rw [Stmt.outcome_isWrite ho] at hq; cases hq
      | write hb => exact (hb _ w ho).mono (l.le_after _ _)
  · rw [hwrites, List.mem_append] at hw
    rcases hw with hw | hw
    · exact h.fits w hw
    · obtain rfl := hidle (List.ne_nil_of_mem hw)
      have hv := h.view
      simp only [Work.writes, Schema.replay_nil] at hv
      exact hv ▸ Stmt.run_fits he w hw
  · rcases hrow.after with hrow | ⟨u', hash, rows, hrow, heq⟩
    · obtain ⟨hl, hm⟩ := h.locked hd row hrow
      exact ⟨(mem_locks_write ..).2 (Or.inr hl), hm⟩
    · cases heq
      have hnil : work.writes = [] := by
        cases hc with
        | read _ _ hs => exact hs hash rfl
        | write _ => rfl
      have hv := h.view
      rw [hnil, Schema.replay_nil] at hv
      rw [hv] at he
      cases he
      obtain ⟨hmem, hhash⟩ := List.mem_filter.1 hrow
      refine ⟨(mem_locks_write ..).2 (Or.inl ⟨rfl, ?_⟩), hmem⟩
      rw [hd]
      exact List.mem_append_left _ (List.mem_map_of_mem (List.mem_map_of_mem hrow))

/-- A flush writes the pending change. -/
theorem Inside.flush (h : Inside D req l.saw s i sid work)
    (hrows : ∀ row, SawRow l.saw row → ∃ r ∈ s.db.committed.refreshSessions, row.Continues r)
    {ls : List Lock} :
    Inside D req (l.after (.flush sid) (.ok ())).saw
      { s with
        db := s.db.write sid ls (pendingWrites (s.pending sid))
        pending := Function.update s.pending sid [] } i sid work.flushed := by
  have hwrites : work.flushed.writes = work.writes ++ pendingWrites work.changes := by
    cases work <;> rfl
  refine {
    scope := h.scope
    owns := ⟨h.owns.mem, h.owns.only⟩
    unlogged := h.unlogged
    writes := by rw [write_self, h.writes, h.pending, hwrites]
    pending := (Function.update_self ..).trans (by cases work <;> rfl)
    basis := fun w hw => ?_
    change := fun x hx => ?_
    fits := fun w hw => ?_
    locked := fun hd row hrow => ?_ }
  · rw [hwrites, List.mem_append, pendingWrites, List.mem_map] at hw
    rcases hw with hw | ⟨x, hx, rfl⟩
    · exact (h.basis w hw).mono (l.le_after _ _)
    · exact (h.change x hx).mono (l.le_after _ _)
  · cases work <;> cases hx
  · rw [hwrites, List.mem_append, pendingWrites, List.mem_map] at hw
    rcases hw with hw | ⟨x, hx, rfl⟩
    · exact h.fits w hw
    · -- the row was looked up, so it is still there
      generalize hw' : Write.setRevokedAt x.1 x.2 = w'
      have hb := h.change x hx
      rw [hw'] at hb
      cases hb with
      | setRevokedAt hf hu =>
        obtain ⟨r, hr, hcont⟩ := hrows _ hf.sawRow
        exact ⟨r, hr, hcont.id⟩
      | _ => cases hw'
  · rcases hrow.after with hrow | ⟨_, _, _, -, heq⟩
    · obtain ⟨hl, hm⟩ := h.locked hd row hrow
      exact ⟨(mem_locks_write ..).2 (Or.inr hl), hm⟩
    · cases heq

theorem Stage.after_quiet (st : Stage) (hq : c.quiet = true) : st.after c r = st := by
  cases c <;> first | (cases st <;> cases r <;> rfl) | cases hq

theorem Stage.Holds.quiet (h : st.Holds D req l.saw s i) (hq : c.quiet = true)
    (ha : Answer D.ext D.dialect Call.mayFail i s c r s') :
    st.Holds D req (l.after c r).saw s' i := by
  obtain ⟨hdb, hp, hsc, hse⟩ := ha.quiet hq
  have hsql : ∀ u q, c ≠ .sql u q := by rintro u q rfl; cases hq
  have hrow : ∀ row, SawRow (l.after c r).saw row → SawRow l.saw row := fun row h =>
    h.after.resolve_right fun ⟨u, _, _, _, heq⟩ => hsql u _ (congrArg Sigma.fst heq)
  have howns : ∀ {u}, Owns s i u → Owns s' i u := fun h => ⟨hse ▸ h.mem, hse ▸ h.only⟩
  have hlog : ∀ {u}, ¬s.Logged u → ¬s'.Logged u := fun h => by simpa [State.Logged, hdb] using h
  cases st with
  | outside => exact ⟨hsc ▸ h.1, hse ▸ h.2.1, fun row hr => h.2.2 row (hrow row hr)⟩
  | opened sid =>
    obtain ⟨h₁, h₂, h₃, h₄, h₅, h₆⟩ := h
    exact ⟨hsc ▸ h₁, howns h₂, hlog h₃, hdb ▸ h₄, hp ▸ h₅, fun row hr => h₆ row (hrow row hr)⟩
  | inside sid work => exact h.keep hdb hp hsc hse hsql
  | broken sid => exact ⟨hsc ▸ h.1, howns h.2.1, hlog h.2.2⟩
  | committed sid work =>
    exact ⟨howns h.1, hdb ▸ h.2.1, fun w hw => (h.2.2 w hw).mono (l.le_after c r)⟩
  | aborted sid => exact ⟨howns h.1, hlog h.2⟩

/-- Closing the session and clearing the scope after the end of the transaction. -/
theorem Stage.Holds.aborted (h : (Stage.aborted sid).Holds D req l.saw s i) {saw : History}
    (hse : s'.sessions = s.sessions) (hlog : s'.db.log = s.db.log) :
    (Stage.aborted sid).Holds D req saw s' i :=
  ⟨⟨hse ▸ h.1.mem, hse ▸ h.1.only⟩, by simpa [State.Logged, hlog] using h.2⟩

theorem Stage.Holds.committed (h : (Stage.committed sid work).Holds D req l.saw s i)
    (hse : s'.sessions = s.sessions) (hlog : s'.db.log = s.db.log) :
    (Stage.committed sid work).Holds D req (l.after c r).saw s' i :=
  ⟨⟨hse ▸ h.1.mem, hse ▸ h.1.only⟩, hlog ▸ h.2.1, fun w hw => (h.2.2 w hw).mono (l.le_after c r)⟩

/-- Outside, a new session is nobody else's and has done nothing. -/
theorem Stage.Holds.sessionFactory (h : Stage.outside.Holds D req l.saw s i) (hI : StateInv D s)
    (hfresh : ∀ e ∈ s.sessions, e.2 ≠ sid) :
    (Stage.opened sid).Holds D req (l.after .sessionFactory (.ok sid)).saw
      { s with sessions := (i, sid) :: s.sessions } i := by
  obtain ⟨h₁, h₂, h₃⟩ := h
  obtain ⟨hw, hp, hl⟩ := hI.stranger sid fun j hj => hfresh _ hj rfl
  refine ⟨h₁, ⟨List.mem_cons_self .., fun u hu => ?_⟩, hl, hw, hp, fun row hrow => ?_⟩
  · rcases List.mem_cons.1 hu with hu | hu
    · exact (Prod.mk.inj hu).2
    · exact absurd hu (h₂ u)
  · rcases hrow.after with hrow | ⟨_, _, _, -, heq⟩
    · exact h₃ row hrow
    · cases heq

/-- The scope is set: the block begins. -/
theorem Stage.Holds.enter (h : (Stage.opened sid).Holds D req l.saw s i) :
    Inside D req (l.after (.scopeSet (some (Scope.of sid))) (.ok ())).saw
      { s with scopes := Function.update s.scopes i (some (Scope.of sid)) } i sid .idle := by
  obtain ⟨h₁, h₂, h₃, h₄, h₅, h₆⟩ := h
  refine {
    scope := Function.update_self ..
    owns := ⟨h₂.mem, h₂.only⟩
    unlogged := h₃
    writes := h₄
    pending := h₅
    basis := nofun
    change := nofun
    fits := nofun
    locked := fun _ row hrow => ?_ }
  rcases hrow.after with hrow | ⟨_, _, _, -, heq⟩
  · exact absurd hrow (h₆ row)
  · cases heq

/-- `COMMIT`. -/
theorem Inside.commit (h : Inside D req l.saw s i sid work) :
    (Stage.committed sid work).Holds D req (l.after (.commit sid) (.ok ())).saw
      { s with
        db := s.db.commit D.dialect.schema sid
        pending := Function.update s.pending sid [] } i := by
  refine ⟨⟨h.owns.mem, h.owns.only⟩, ?_, fun w hw => (h.basis w hw).mono (l.le_after _ _)⟩
  rw [commit_log, h.writes]
  exact List.mem_append_right _ (List.mem_singleton_self _)

/-- A model attribute is assigned. -/
theorem Inside.setRevokedAt {id : UUID} {t : Instant} (h : Inside D req l.saw s i sid .idle)
    (hb : Basis D l.saw req (.setRevokedAt id t)) :
    Inside D req (l.after (.setRevokedAt sid id t) (.ok ())).saw
      { s with pending := Function.update s.pending sid (s.pending sid ++ [(id, t)]) } i sid
      (.pending id t) := by
  refine {
    scope := h.scope
    owns := ⟨h.owns.mem, h.owns.only⟩
    unlogged := h.unlogged
    writes := h.writes
    pending := (Function.update_self ..).trans (by rw [h.pending]; rfl)
    basis := nofun
    change := fun x hx => ?_
    fits := nofun
    locked := fun hd row hrow => ?_ }
  · rw [List.mem_singleton.1 hx]
    exact hb.mono (l.le_after _ _)
  · rcases hrow.after with hrow | ⟨_, _, _, -, heq⟩
    · exact h.locked hd row hrow
    · cases heq

/-- A statement, whatever it answers. -/
theorem Inside.statement {q : Stmt} {r : Except Exc q.Ret} (h : Inside D req l.saw s i sid work)
    (hc : Can D req l.saw (.inside sid work) (.sql sid q))
    (ha : Answer D.ext D.dialect Call.mayFail i s (.sql sid q) r s') :
    ((Stage.inside sid work).after (.sql sid q) r).Holds D req
      (l.after (.sql sid q) r).saw s' i := by
  rcases ha.inv with ha | ⟨code, rfl, -, rfl | ⟨-, r', ha⟩⟩
  · cases ha with
    | sql he _ => exact h.sql hc he
    | violation _ _ _ _ => refine h.broken ?_ ?_ ?_ <;> rfl
  · refine h.broken ?_ ?_ ?_ <;> rfl
  · cases ha <;> (refine h.broken ?_ ?_ ?_ <;> rfl)

/-- **The execution's own steps**: after a permitted call and its answer the next stage holds. -/
theorem Stage.Holds.own (h : st.Holds D req l.saw s i) (hI : StateInv D s)
    (hrows : ∀ row, SawRow l.saw row → ∃ r ∈ s.db.committed.refreshSessions, row.Continues r)
    (hc : Can D req l.saw st c) (ha : Answer D.ext D.dialect Call.mayFail i s c r s') :
    (st.after c r).Holds D req (l.after c r).saw s' i := by
  by_cases hq : c.quiet = true
  · rw [Stage.after_quiet st hq]
    exact h.quiet hq ha
  cases hc with
  | sessionFactory =>
    rcases ha.inv with ha | ⟨code, rfl, -, rfl | ⟨hs, -⟩⟩
    · cases ha with
      | sessionFactory hfresh => exact h.sessionFactory hI hfresh
    · exact ⟨h.1, h.2.1, h.2.2⟩
    · cases hs
  | enter =>
    rcases ha.inv with ha | ⟨code, rfl, hf, -⟩
    · cases ha
      exact h.enter
    · cases hf
  | read hw hw' hs => exact Inside.statement h (.read hw hw' hs) ha
  | write hb => exact Inside.statement h (.write hb) ha
  | setRevokedAt hb =>
    rcases ha.inv with ha | ⟨code, rfl, hf, -⟩
    · cases ha
      exact Inside.setRevokedAt h hb
    · cases hf
  | flush =>
    rcases ha.inv with ha | ⟨code, rfl, -, rfl | ⟨-, r', ha⟩⟩
    · cases ha with
      | flush _ => exact Inside.flush h hrows
      | stale _ => refine Inside.broken h ?_ ?_ ?_ <;> rfl
    · refine Inside.broken h ?_ ?_ ?_ <;> rfl
    · cases ha <;> (refine Inside.broken h ?_ ?_ ?_ <;> rfl)
  | commit =>
    rcases ha.inv with ha | ⟨code, rfl, -, rfl | ⟨hs, -⟩⟩
    · cases ha
      exact Inside.commit h
    · exact Inside.release h
    · cases hs
  | rollback =>
    rcases ha.inv with ha | ⟨code, rfl, -, rfl | ⟨hs, -⟩⟩
    · cases ha
      exact Inside.release h
    · exact Inside.release h
    · cases hs
  | rollbackBroken | closeBroken =>
    rcases ha.inv with ha | ⟨code, rfl, -, rfl | ⟨hs, -⟩⟩
    · cases ha
      exact ⟨⟨h.2.1.mem, h.2.1.only⟩, h.2.2⟩
    · exact ⟨⟨h.2.1.mem, h.2.1.only⟩, h.2.2⟩
    · cases hs
  | closeCommitted | leaveCommitted =>
    rcases ha.inv with ha | ⟨code, rfl, hf, -⟩
    · cases ha
      exact Stage.Holds.committed h rfl rfl
    · cases hf
  | closeAborted | leaveAborted =>
    rcases ha.inv with ha | ⟨code, rfl, hf, -⟩
    · cases ha
      exact Stage.Holds.aborted h rfl rfl
    · cases hf
  | _ => exact absurd rfl hq

/-! ## The invariant of the state -/

/-- The rows a commit leaves are later versions of rows, or one it was based on inserting. -/
theorem Inside.created (h : Inside D req l.saw s i sid work) (hI : StateInv D s)
    (hclock : ∀ t : Instant, l.saw .now t → t ≤ s.clock) :
    ∀ r ∈ (s.db.view D.dialect.schema sid).refreshSessions,
      r.id ∉ D.store.refreshSessions.map (·.id) → r.createdAt ≤ s.clock := by
  intro r' hr' hnew
  rw [h.view] at hr'
  cases work with
  | wrote w =>
    rcases Write.continues_of_apply hr' with ⟨r, hr, hcont⟩ | rfl
    · rw [hcont.createdAt]
      exact hI.created r hr (hcont.id ▸ hnew)
    · have hb := h.basis _ (List.mem_singleton_self _)
      cases hb with
      | insertRefreshSession _ _ hc => exact hclock _ hc
  | _ => exact hI.created r' hr' hnew

theorem Inside.valid (h : Inside D req l.saw s i sid work) (hI : StateInv D s) :
    (s.db.view D.dialect.schema sid).Valid := by
  rw [h.view]
  cases work with
  | wrote w => exact hI.valid.apply (h.fits w (List.mem_singleton_self w))
  | _ => exact hI.valid

theorem StateInv.answer (hI : StateInv D s) (h : st.Holds D req l.saw s i)
    (hclock : ∀ t : Instant, l.saw .now t → t ≤ s.clock) (hc : Can D req l.saw st c)
    (ha : Answer D.ext D.dialect Call.mayFail i s c r s') : StateInv D s' := by
  have hsub : ∀ e ∈ s.sessions, e ∈ s'.sessions := by
    rcases ha.sessions with hse | ⟨sid, -, hse⟩ <;> rw [hse]
    · exact fun _ he => he
    · exact fun _ he => List.mem_cons_of_mem _ he
  refine {
    twoPhase := ha.twoPhase hI.twoPhase
    valid := ?_
    owner := fun a b u hau hbu => ?_
    stranger := fun u hu => ?_
    log := ?_
    created := ?_ }
  · rcases ha.committed with ⟨hcom, -⟩ | ⟨sid, rfl, -, rfl⟩
    · exact hcom ▸ hI.valid
    · cases hc with
      | commit _ => exact Inside.valid h hI
  · rcases ha.sessions with hse | ⟨sid, hfresh, hse⟩ <;> rw [hse] at hau hbu
    · exact hI.owner a b u hau hbu
    · rcases List.mem_cons.1 hau with ha' | ha' <;> rcases List.mem_cons.1 hbu with hb' | hb'
      · exact (Prod.mk.inj ha').1.trans (Prod.mk.inj hb').1.symm
      · exact (hfresh _ hb' (Prod.mk.inj ha').2).elim
      · exact (hfresh _ ha' (Prod.mk.inj hb').2).elim
      · exact hI.owner a b u ha' hb'
  · have hne : c.session ≠ some u := fun hs => hu i (hsub _ (hc.owned h hs))
    obtain ⟨h₁, h₂, h₃⟩ := hI.stranger u fun a ha' => hu a (hsub _ ha')
    exact ⟨(ha.frame.writes u hne).trans h₁, (ha.frame.pending u hne).trans h₂,
      (ha.frame.logged hne).not.2 h₃⟩
  · rcases ha.committed with ⟨-, hlog⟩ | ⟨sid, rfl, -, rfl⟩
    · exact hlog ▸ hI.log
    · cases hc with
      | commit _ =>
        rw [commit_log, List.map_append, List.nodup_append]
        refine ⟨hI.log, List.nodup_singleton _, ?_⟩
        rintro _ ha' _ hb' rfl
        obtain ⟨⟨u, ws⟩, he, rfl⟩ := List.mem_map.1 ha'
        obtain rfl : u = sid := List.mem_singleton.1 hb'
        exact (Inside.unlogged h) ⟨ws, he⟩
  · rcases ha.committed with ⟨hcom, -⟩ | ⟨sid, rfl, -, rfl⟩
    · rw [hcom]
      exact fun r hr hnew => (hI.created r hr hnew).trans ha.frame.clock
    · cases hc with
      | commit _ => exact Inside.created h hI hclock

/-! ## The answers -/

/-- A looked-up row is still in the transaction's view, perhaps in a later version. -/
theorem Inside.row_in_view (h : Inside D req l.saw s i sid work)
    (hrows : ∀ row, SawRow l.saw row → ∃ r ∈ s.db.committed.refreshSessions, row.Continues r)
    {row : RefreshSessionModel} (hrow : SawRow l.saw row) :
    ∃ r ∈ (s.db.view D.dialect.schema sid).refreshSessions, row.Continues r := by
  obtain ⟨r, hr, hcont⟩ := hrows row hrow
  obtain ⟨r', hr', hcont'⟩ := replay_continues D.dialect work.writes s.db.committed hr
  exact ⟨r', h.view ▸ hr', hcont.trans hcont'⟩

/-- What a statement answers is what the protocol expects. -/
theorem Inside.answered {q : Stmt} {u : ℤ} {e : Effect q} (hs : l.stage = .inside sid work)
    (h : Inside D req l.saw s i sid work) (hI : StateInv D s)
    (hrows : ∀ row, SawRow l.saw row → ∃ r ∈ s.db.committed.refreshSessions, row.Continues r)
    (he : q.run (s.db.view D.dialect.schema sid) u = .ok e) :
    Answered D l (.sql sid q) e.ret := by
  cases q with
  | selectSessionByHash hash forUpdate =>
    cases he
    intro row hrow
    obtain ⟨hmem, hhash⟩ := List.mem_filter.1 hrow
    have hhash : row.refreshTokenHash = hash := by simpa using hhash
    refine ⟨hhash, fun row₀ hrow₀ hid => ?_, fun data hw hh => ?_⟩
    · obtain ⟨r, hr, hcont⟩ := h.row_in_view hrows hrow₀
      rw [← (h.valid hI).session_ext hr hmem (hcont.id.trans hid), hcont.userId]
    · obtain rfl : work = .wrote (.setTokenHash data) := by rw [hs] at hw; exact hw
      rw [h.view] at hmem
      obtain ⟨r, hr, rfl⟩ := mem_updateSession.1 hmem
      by_cases hid : r.id = data.sessionId
      · rw [if_pos hid, RefreshSessionModel.withTokenHash_id, hid]
      · rw [if_neg hid] at hhash
        have hfit := (h.fits _ (List.mem_singleton_self _)).2 r hr hid
        exact absurd (hhash.trans hh.symm) hfit
  | selectSessionForUpdate id =>
    cases he
    refine ⟨fun row hrow => ?_, ?_⟩
    · simpa using (List.mem_filter.1 hrow).2
    · rintro ⟨row, hrow, rfl⟩ hnil
      obtain ⟨r, hr, hcont⟩ := h.row_in_view hrows hrow
      exact List.filter_eq_nil_iff.1 hnil r hr (decide_eq_true hcont.id)
  | selectActiveUser userId =>
    cases he
    intro v hv
    have := (List.mem_filter.1 hv).2
    simp only [decide_eq_true_eq] at this
    exact this.1
  | _ => trivial

theorem Stage.Holds.scopes (h : st.Holds D req l.saw s i) (hl : st.Looks) :
    s.scopes i = st.scope := by
  cases st with
  | outside => exact h.1
  | inside => exact h.scope
  | broken => exact h.1
  | _ => exact hl.elim

/-- **The answers a permitted call gets are those the protocol expects.** -/
theorem Stage.Holds.next (hs : l.stage = st) (h : st.Holds D req l.saw s i) (hI : StateInv D s)
    (hrows : ∀ row, SawRow l.saw row → ∃ r ∈ s.db.committed.refreshSessions, row.Continues r)
    (hc : Can D req l.saw st c) (ha : Answer D.ext D.dialect Call.mayFail i s c r s') :
    (protocolSpec D req).next l c r (l.after c r) := by
  refine ⟨rfl, ?_⟩
  rcases ha.inv with ha | ⟨code, rfl, hf, -⟩
  · cases ha with
    | scopeGet =>
      cases hc with
      | scopeGet hlooks => exact (h.scopes hlooks).trans (by rw [hs])
    | now ht =>
      intro row hrow hnew
      obtain ⟨r, hr, hcont⟩ := hrows row hrow
      have hcreated := hI.created r hr (hcont.id.symm ▸ hnew)
      rw [hcont.createdAt] at hcreated
      exact hcreated.trans ht
    | hashPassword => exact ⟨_, rfl⟩
    | sql he _ =>
      cases hc with
      | read _ _ _ => exact Inside.answered hs h hI hrows he
      | write _ => exact Inside.answered hs h hI hrows he
    | @violation sid q userId cs c hcs hmem hacc _ =>
      refine ⟨rfl, Or.inr ?_⟩
      have hq := Stmt.run_error hcs
      cases q with
      | insertUser values =>
        rcases Stmt.run_insertUser_error hcs hacc hmem with ⟨rfl, -⟩ | ⟨rfl, -⟩
        · exact Or.inl rfl
        · exact Or.inr rfl
      | _ => exact ⟨hq, _, rfl⟩
    | stale hne =>
      cases hc with
      | flush =>
        refine ⟨rfl, Or.inr ⟨rfl, ?_⟩⟩
        rw [hs]
        exact h.pending ▸ hne
    | _ => trivial
  · exact ⟨hf, Or.inl rfl⟩

end FastapiTemplate
