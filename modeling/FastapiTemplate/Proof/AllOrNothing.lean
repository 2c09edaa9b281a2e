/-
  Use cases are all-or-nothing (`all_or_nothing`): in every run, an execution
  either raises and none of its steps changed the store, or it returns and one
  of its steps changed exactly one row; and it raises if any call inside its
  block or its commit raised.
-/
import FastapiTemplate.Proof.Executions

namespace FastapiTemplate

open Effects Locking Locking.Db

/-! ## No exception is swallowed -/

theorem strict_call (c : Call) : Strict (call c) := .perform c

theorem strict_scalarOneOrNone {α : Type} (rows : List α) : Strict (scalarOneOrNone rows) := by
  unfold scalarOneOrNone
  split
  · exact .pure _
  · exact .pure _
  · exact .throw _

theorem strict_scalarOne {α : Type} (rows : List α) : Strict (scalarOne rows) := by
  unfold scalarOne
  split
  · exact .throw _
  · exact .pure _
  · exact .throw _

theorem strict_currentScope : Strict currentScope := by
  refine .bind (strict_call _) fun sc => ?_
  cases sc with
  | none => exact .throw _
  | some scope => exact .pure _

theorem strict_userRepository : Strict userRepository :=
  strict_currentScope.bind fun _ => .pure _

theorem strict_refreshSessionRepository : Strict refreshSessionRepository :=
  strict_currentScope.bind fun _ => .pure _

theorem strict_closeScope (scope : Scope) : Strict (closeScope scope) :=
  (strict_call _).bind fun _ => strict_call _

theorem strict_aenter : Strict aenter := by
  refine .bind (strict_call _) fun sc => ?_
  cases sc with
  | some scope => exact .throw _
  | none => exact .bind (strict_call _) fun _ => .bind (strict_call _) fun _ => strict_call _

theorem strict_finishTransaction (scope : Scope) (hasError : Bool) :
    Strict (finishTransaction scope hasError) := by
  cases hasError with
  | true => exact strict_call _
  | false => exact (strict_call _).bind fun _ => strict_call _

theorem strict_aexit (exc : Option Exc) : Strict (aexit exc) := by
  refine .bind (strict_call _) fun sc => ?_
  cases sc with
  | none => exact .throw _
  | some scope =>
    refine .bind (.handle (strict_finishTransaction _ _) fun e => ?_) fun _ => strict_closeScope _
    exact .after _ fun _ => .raise e

/-- A block whose body got an exception raises, and so does one whose body raises itself. -/
theorem strict_asyncWith {α : Type} {body : App α} (h : Strict body) : Strict (asyncWith body) :=
  strict_aenter.bind fun _ =>
    h.attempt (fun _ => (strict_aexit none).bind fun _ => .pure _)
      fun e => .after (aexit (some e)) fun _ => .raise e

section
variable (repository : SQLAlchemyUserRepository)

theorem strict_getActiveById (userId : ℤ) : Strict (repository.getActiveById userId) :=
  (strict_call _).bind fun rows => (strict_scalarOneOrNone rows).bind fun _ => .pure _

theorem strict_getByUsername (username : String) : Strict (repository.getByUsername username) :=
  (strict_call _).bind fun rows => (strict_scalarOneOrNone rows).bind fun _ => .pure _

theorem strict_getByUsernameOrEmail (username email : String) :
    Strict (repository.getByUsernameOrEmail username email) :=
  (strict_call _).bind fun _ => .pure _

theorem strict_createUser {ext : Externals} (data : PersistUserDTO ext) (passwordHash : String) :
    Strict (repository.create data passwordHash) := by
  refine .bind (.handle (strict_call _) fun e => ?_) fun _ => .pure _
  cases e with
  | integrityError orig =>
    dsimp only
    split
    · exact .raise _
    · exact .raise _
  | _ => exact .raise _

end

section
variable (repository : SQLAlchemyRefreshSessionRepository)

theorem strict_loadUsers (rows : List RefreshSessionModel) :
    Strict (repository.loadUsers rows) := by
  cases rows with
  | nil => exact .pure _
  | cons => exact strict_call _

theorem strict_userOf (users : List UserModel) (model : RefreshSessionModel) :
    Strict (SQLAlchemyRefreshSessionRepository.userOf users model) := by
  unfold SQLAlchemyRefreshSessionRepository.userOf
  split
  · exact .pure _
  · exact .throw _

theorem strict_getByTokenHash (refreshTokenHash : String) :
    Strict (repository.getByTokenHash refreshTokenHash) := by
  refine .bind (strict_call _) fun rows => .bind (strict_loadUsers _ _) fun users =>
    .bind (strict_scalarOneOrNone _) fun model => ?_
  cases model with
  | none => exact .pure _
  | some model => exact .bind (strict_userOf _ _) fun _ => .pure _

theorem strict_createSession (data : CreateRefreshSessionDTO) : Strict (repository.create data) :=
  (strict_call _).bind fun _ => .pure _

theorem strict_replaceTokenHash (data : ReplaceRefreshSessionTokenDTO) :
    Strict (repository.replaceTokenHash data) := by
  refine .bind (strict_call _) fun (rowcount : ℕ) => ?_
  by_cases h : rowcount ≠ 1
  · rw [if_pos h]
    exact .pure _
  · rw [if_neg h]
    exact .bind (strict_call _) fun rows => .bind (strict_loadUsers _ _) fun users =>
      .bind (strict_scalarOne _) fun model => .bind (strict_userOf _ _) fun _ => .pure _

theorem strict_revoke (sessionId : UUID) (revokedAt : Instant) :
    Strict (repository.revoke sessionId revokedAt) := by
  refine .bind (strict_call _) fun rows => .bind (strict_scalarOneOrNone _) fun model => ?_
  cases model with
  | none => exact .pure _
  | some model => exact strict_call _

theorem strict_getActiveRefreshSession (refreshTokenHash : String) :
    Strict (getActiveRefreshSession repository refreshTokenHash) := by
  refine .bind (strict_getByTokenHash _ _) fun session => ?_
  cases session with
  | none => exact .throw _
  | some session =>
    refine .bind (strict_call _) fun now => ?_
    dsimp only
    split
    · exact .bind (.throw _) fun _ => .pure _
    · exact .pure _

end

theorem strict_authenticateUser (ext : Externals) (username password : String) :
    Strict (authenticateUser ext username password) := by
  refine .bind strict_userRepository fun repository =>
    .bind (strict_getByUsername _ _) fun user => ?_
  cases user with
  | none => exact .pure _
  | some user =>
    dsimp only
    split
    · exact .pure _
    · refine .bind (.ofExcept _) fun isValidPassword => ?_
      split
      · exact .pure _
      · exact .pure _

theorem strict_issueAccessToken (settings : JWTServiceSettings) (userId : ℤ)
    (payloadKwargs : List (String × Claim)) :
    Strict (issueAccessToken settings userId payloadKwargs) := by
  refine .bind (strict_call _) fun iat => ?_
  exact strict_call _

theorem strict_buildTokenResult (settings : JWTServiceSettings) (user : User)
    (refreshToken : String) : Strict (buildTokenResult settings user refreshToken) :=
  (strict_issueAccessToken settings user.id []).bind fun _ => .pure _

section
variable (ext : Externals) (settings : RefreshSessionServiceSettings)

theorem strict_createRefreshSession (user : User) (userAgent : String)
    (ipAddressTrace : Option String) :
    Strict (createRefreshSession ext settings user userAgent ipAddressTrace) :=
  .bind (strict_call _) fun _ => .bind (strict_call _) fun _ =>
    .bind strict_refreshSessionRepository fun _ => .bind (strict_call _) fun _ =>
      .bind (strict_createSession _ _) fun _ => .pure _

theorem strict_rotateRefreshToken (refreshToken : String) :
    Strict (rotateRefreshToken ext settings refreshToken) := by
  refine .bind strict_refreshSessionRepository fun _ =>
    .bind (strict_getActiveRefreshSession _ _) fun _ => .bind (strict_call _) fun _ =>
      .bind (strict_call _) fun _ => .bind strict_refreshSessionRepository fun _ =>
        .bind (strict_replaceTokenHash _ _) fun rotated => ?_
  cases rotated with
  | none => exact .throw _
  | some rotated => exact .pure _

theorem strict_revokeRefreshToken (refreshToken : String) (user : User) :
    Strict (revokeRefreshToken ext refreshToken user) := by
  refine .bind strict_refreshSessionRepository fun _ =>
    .bind (strict_getActiveRefreshSession _ _) fun session => ?_
  dsimp only
  have hrest : Strict (do
      let repository ← refreshSessionRepository
      let revokedAt : Instant ← call .now
      repository.revoke session.id revokedAt) :=
    .bind strict_refreshSessionRepository fun _ => .bind (strict_call _) fun _ =>
      strict_revoke _ _ _
  split
  · exact .bind (.throw _) fun _ => hrest
  · exact hrest

/-- A conflict in the repository is raised again under the name of the use case. -/
theorem raises_conflict (e : Exc) : Raises (match e with
    | .userRepositoryConflict => throw .userAlreadyExists
    | e => throw e : App User) := by
  cases e <;> exact .raise _

end

/-- **Every use case is strict.** -/
theorem strict_execute (D : Deployment) (req : Request D.ext) : Strict (req.execute D) := by
  cases req with
  | issueToken data context =>
    refine .bind (strict_asyncWith ?_) fun _ => .pure _
    refine .bind (strict_authenticateUser _ _ _) fun user => ?_
    cases user with
    | none => exact .throw _
    | some user =>
      exact .bind (strict_createRefreshSession _ _ _ _ _) fun _ => strict_buildTokenResult _ _ _
  | refreshToken data =>
    refine .bind (strict_asyncWith ?_) fun _ => .pure _
    refine .bind (strict_rotateRefreshToken _ _ _) fun rotated => ?_
    dsimp only
    split
    · exact .bind (.throw _) fun _ => strict_buildTokenResult _ _ _
    · exact strict_buildTokenResult _ _ _
  | revokeToken data userId =>
    refine .bind (strict_asyncWith ?_) fun _ => .pure _
    refine .bind strict_userRepository fun repository =>
      .bind (strict_getActiveById _ _) fun user => ?_
    cases user with
    | none => exact .throw _
    | some user => exact strict_revokeRefreshToken _ _ _
  | registerUser data =>
    refine .bind (.bind (.ofExcept _) fun n => .bind (.ofExcept _) fun _ =>
      .bind (strict_call _) fun passwordHash => strict_asyncWith ?_) fun _ => .pure _
    refine .bind strict_userRepository fun repository =>
      .bind (strict_getByUsernameOrEmail _ _ _) fun existing => ?_
    have hcreate : Strict (do
        let repository ← userRepository
        repository.create (← Prog.ofExcept (persistUserData n)) passwordHash : App User) :=
      .bind strict_userRepository fun _ => .bind (.ofExcept _) fun _ => strict_createUser _ _ _
    dsimp only
    split
    · exact .bind (.throw _) fun _ => .handle hcreate raises_conflict
    · exact .handle hcreate raises_conflict

/-! ## The one row -/

variable {D : Deployment} {w w' : D.World} {lab : Label (Request D.ext) Call} {i : ℕ}

/-- The store differs in exactly the row that the operation created or updated. -/
inductive OneRow {ext : Externals} (s : Store) : Request ext → Store → Prop
  | registerUser {data row} : row ∉ s.users →
      OneRow s (.registerUser data) { s with users := s.users ++ [row] }
  | issueToken {data context row} : row ∉ s.refreshSessions →
      OneRow s (.issueToken data context)
        { s with refreshSessions := s.refreshSessions ++ [row] }
  | refreshToken {data r r'} : r ∈ s.refreshSessions → r' ≠ r →
      OneRow s (.refreshToken data)
        { s with refreshSessions := s.refreshSessions.map fun x => if x = r then r' else x }
  | revokeToken {data userId r r'} : r ∈ s.refreshSessions → r' ≠ r →
      OneRow s (.revokeToken data userId)
        { s with refreshSessions := s.refreshSessions.map fun x => if x = r then r' else x }

/-- An update by identifier changes one row. -/
theorem Store.Valid.updateSession_eq {s : Store} (h : s.Valid) {r : RefreshSessionModel}
    (hr : r ∈ s.refreshSessions) (f : RefreshSessionModel → RefreshSessionModel) :
    updateSession r.id f s.refreshSessions =
      s.refreshSessions.map fun x => if x = r then f r else x := by
  refine List.map_congr_left fun x hx => ?_
  by_cases hxr : x = r
  · rw [if_pos hxr, if_pos (congrArg _ hxr), hxr]
  · rw [if_neg hxr, if_neg fun hid => hxr (h.session_ext hx hr hid)]

theorem map_eq_self {r : RefreshSessionModel} (rows : List RefreshSessionModel) :
    rows.map (fun x => if x = r then r else x) = rows := by
  refine (List.map_congr_left fun x _ => ?_).trans (List.map_id rows)
  by_cases hx : x = r
  · rw [if_pos hx, hx, id]
  · rw [if_neg hx, id]

/-- **A write that fits changes one row**, or a row that was looked up has been changed since to the
    very values that are written. -/
theorem Basis.oneRow {saw : History} {req : Request D.ext} {v : Write} (hb : Basis D saw req v)
    {s : Store} (hs : s.Valid) (hfit : v.Fits s)
    (hrows : ∀ row, SawRow saw row → ∃ r ∈ s.refreshSessions, row.Continues r) :
    OneRow s req (v.apply s) ∨
      v.apply s = s ∧ ∃ row, SawRow saw row ∧ row ∉ s.refreshSessions := by
  cases hb with
  | insertUser => exact .inl (.registerUser fun h => (hfit _ h).1 rfl)
  | insertRefreshSession => exact .inl (.issueToken fun h => (hfit _ h).1 rfl)
  | @setTokenHash data row now minted usedAt hf _ _ _ =>
    obtain ⟨r, hr, hcont⟩ := hrows row hf.sawRow
    have heq := hs.updateSession_eq hr
      (·.withTokenHash (rotation D data.refreshToken minted row usedAt))
    have hid : (rotation D data.refreshToken minted row usedAt).sessionId = r.id := hcont.id.symm
    rw [Write.apply, hid, heq]
    by_cases hsame : r.withTokenHash (rotation D data.refreshToken minted row usedAt) = r
    · refine .inr ⟨by rw [hsame, map_eq_self], row, hf.sawRow, fun hrow => ?_⟩
      obtain rfl := hs.session_ext hr hrow hcont.id
      have hcount : r.rotationCounter + 1 = r.rotationCounter :=
        congrArg RefreshSessionModel.rotationCounter hsame
      omega
    · exact .inl (.refreshToken hr hsame)
  | @setRevokedAt data userId row now revokedAt hf _ =>
    obtain ⟨r, hr, hcont⟩ := hrows row hf.sawRow
    rw [Write.apply, ← hcont.id, hs.updateSession_eq hr (·.withRevokedAt revokedAt)]
    by_cases hsame : r.withRevokedAt revokedAt = r
    · refine .inr ⟨by rw [hsame, map_eq_self], row, hf.sawRow, fun hrow => ?_⟩
      obtain rfl := hs.session_ext hr hrow hcont.id
      have hrev : some revokedAt = r.revokedAt := congrArg RefreshSessionModel.revokedAt hsame
      rw [hf.2.2.2.1] at hrev
      cases hrev
    · exact .inl (.revokeToken hr hsame)

theorem SawRow.mono {saw saw' : History} (h : ∀ c a, saw c a → saw' c a) {row : RefreshSessionModel}
    (hrow : SawRow saw row) : SawRow saw' row := by
  obtain ⟨sid, hash, rows, hsaw, hmem⟩ := hrow
  exact ⟨sid, hash, rows, h _ _ hsaw, hmem⟩

/-- Another execution has changed a row that this one looked up, to the very values that this one
    writes: on SQLite, where the look-up locks nothing. -/
structure Overtaken (D : Deployment) (saw : History) (s s' : Store) : Prop where
  sqlite : D.dialect = .sqlite
  same : s' = s
  changed : ∃ row, SawRow saw row ∧ row ∉ s.refreshSessions

theorem Overtaken.mono {saw saw' : History} (h : ∀ c a, saw c a → saw' c a) {s s' : Store}
    (ho : Overtaken D saw s s') : Overtaken D saw' s s' := by
  obtain ⟨row, hrow, hgone⟩ := ho.changed
  exact ⟨ho.sqlite, ho.same, row, hrow.mono h, hgone⟩

/-- The commit of an execution changes its one row. -/
theorem Commits.oneRow (hD : D.store.Valid) (hw : D.system.Reachable w) {sid : SessionId}
    (hs : D.system.Step w (.call i (.commit sid)) w') {v : Write} (hc : Commits D w w' i sid [v]) :
    ∃ p, w.procs i = some p ∧ (OneRow w.shared.db.committed p.request w'.shared.db.committed ∨
      Overtaken D (w.Saw i) w.shared.db.committed w'.shared.db.committed) := by
  have hvalid := (inv hD hw).state.valid
  have hfit := hc.fits v (List.mem_singleton_self v)
  have hcom : w'.shared.db.committed = v.apply w.shared.db.committed := hc.committed
  cases hs with
  | @call _ req _ k r s hi ha =>
    obtain ⟨l, hwp, hk⟩ := annotated hD hw hi
    have hcan : Can D req l.saw l.stage (.commit sid) := hwp.1
    have hh : l.stage.Holds D req l.saw w.shared i := Knows.holds hk
    revert hcan hh
    generalize l.stage = st
    intro hcan hh
    cases hcan with
    | @commit _ work _ =>
      have hin : Inside D req l.saw w.shared i sid work := hh
      have hv : v ∈ work.writes := by
        rw [← hin.writes, hc.writes]
        exact List.mem_singleton_self v
      have hrows : ∀ row, SawRow l.saw row →
          ∃ r ∈ w.shared.db.committed.refreshSessions, row.Continues r :=
        fun row hrow => (inv hD hw).rows i row (hrow.mono hk.seen)
      refine ⟨_, hi, ?_⟩
      rw [hcom]
      rcases (hin.basis v hv).oneRow hvalid hfit hrows with hone | ⟨hsame, row, hrow, hgone⟩
      · exact .inl hone
      · cases hd : D.dialect with
        | sqlite => exact .inr ⟨hd, hsame, row, hrow.mono hk.seen, hgone⟩
        | postgresql => exact absurd (hin.locked hd row hrow).2 hgone

/-! ## The steps of an execution -/

/-- **What a step means for execution `i`**: its commit, or nothing that it commits; and a step of
    its own without a commit leaves the store. -/
theorem own_step (hD : D.store.Valid) (hw : D.system.Reachable w) (hs : D.system.Step w lab w')
    (i : ℕ) : (∃ sid v, lab = .call i (.commit sid) ∧ Commits D w w' i sid [v]) ∨
      (∀ v, Committed w' i v → Committed w i v) ∧
        (lab.pid = some i → w'.shared.db.committed = w.shared.db.committed) := by
  have hback : (∀ sid v, (sid, [v]) ∈ w'.shared.db.log → (sid, [v]) ∈ w.shared.db.log) →
      ∀ v, Committed w' i v → Committed w i v := by
    intro hlog v hv
    rcases Committed.new hD hw hs hv with hv | ⟨sid, -, hnew, hold⟩
    · exact hv
    · exact absurd (hlog sid v hnew) hold
  rcases store_step hD hw hs with ⟨hcom, hlog⟩ | ⟨j, sid, ws, rfl, hc⟩ | ⟨rfl, f, -, hadm⟩
  · exact .inr ⟨hback fun _ _ h => hlog ▸ h, fun _ => hcom⟩
  · rcases hc.short with rfl | ⟨v, rfl⟩
    · refine .inr ⟨hback fun sid' v h => ?_, fun _ => hc.committed⟩
      rw [hc.log, List.mem_append, List.mem_singleton] at h
      exact h.resolve_right nofun
    · by_cases hj : j = i
      · subst hj
        exact .inl ⟨sid, v, rfl, hc⟩
      · refine .inr ⟨fun u hu => ?_, fun hpid => absurd (Option.some.inj hpid) hj⟩
        exact ((hc.committed_iff hD hw hs).1 hu).resolve_right fun h => hj h.1.symm
  · refine .inr ⟨hback fun _ _ h => ?_, nofun⟩
    rw [hadm] at h
    exact h

/-- What the trail of an execution says: the store stays the same until it commits, and its commit
    is the one change. -/
structure ChangesOnce (w : D.World) (i : ℕ) (cs : List (Store × Store)) : Prop where
  quiet : (∀ v, ¬Committed w i v) → ∀ c ∈ cs, c.2 = c.1
  once : ∀ v, Committed w i v → ∃ p xs s ys, w.procs i = some p ∧ cs = xs ++ (s, v.apply s) :: ys ∧
    (∀ c ∈ xs ++ ys, c.2 = c.1) ∧
    (OneRow s p.request (v.apply s) ∨ Overtaken D (w.Saw i) s (v.apply s))

/-- A step that commits nothing for the execution adds at most a pair of the same stores. -/
theorem ChangesOnce.keep {cs cs' : List (Store × Store)} (h : ChangesOnce w i cs)
    (hs : D.system.Step w lab w') (hback : ∀ v, Committed w' i v → Committed w i v)
    (hcs : ∃ zs, cs' = zs ++ cs ∧ ∀ c ∈ zs, c.2 = c.1) : ChangesOnce w' i cs' := by
  obtain ⟨zs, rfl, hzs⟩ := hcs
  have hg := grows_step hs
  constructor
  · intro hnone c hc
    rcases List.mem_append.1 hc with hc | hc
    · exact hzs c hc
    · exact h.quiet (fun v hv => hnone v (hv.grows hg)) c hc
  · intro v hv
    obtain ⟨p, xs, s, ys, hp, rfl, hsame, hone⟩ := h.once v (hback v hv)
    obtain ⟨p', hp', hreq⟩ := hs.request hp
    refine ⟨p', zs ++ xs, s, ys, hp', by simp, fun c hc => ?_, ?_⟩
    · rw [List.append_assoc] at hc
      rcases List.mem_append.1 hc with hc | hc
      · exact hzs c hc
      · exact hsame c hc
    · rw [hreq]
      exact hone.imp_right (·.mono fun c a => hg.saw i c a)

/-- **The trail of an execution**, in every run. -/
theorem changesOnce (hD : D.store.Valid) {cs : List (Store × Store)}
    (h : D.system.Trail (·.db.committed) i w cs) : ChangesOnce w i cs := by
  induction h with
  | init hs =>
    cases hs
    refine ⟨nofun, ?_⟩
    rintro v ⟨sid, -, hlog⟩
    cases hlog
  | @own w lab w' cs ht hs hpid ih =>
    rcases own_step hD ht.reachable hs i with ⟨sid, v, rfl, hc⟩ | ⟨hback, hsame⟩
    · have hnone : ∀ u, ¬Committed w i u := fun u => hc.fresh hD ht.reachable
      have hcom : w'.shared.db.committed = v.apply w.shared.db.committed := hc.committed
      obtain ⟨p, hp, hone⟩ := hc.oneRow hD ht.reachable hs
      obtain ⟨p', hp', hreq⟩ := hs.request hp
      constructor
      · intro hnew
        exact absurd ((hc.committed_iff hD ht.reachable hs).2 (.inr ⟨rfl, rfl⟩)) (hnew v)
      · intro u hu
        obtain rfl := (((hc.committed_iff hD ht.reachable hs).1 hu).resolve_left (hnone u)).2
        refine ⟨p', [], _, cs, hp', by rw [hcom]; rfl, ih.quiet hnone, ?_⟩
        rw [hreq, ← hcom]
        exact hone.imp_right (·.mono fun c a => (grows_step hs).saw i c a)
    · refine ih.keep hs hback ⟨[_], rfl, fun c hc => ?_⟩
      rw [List.mem_singleton.1 hc]
      exact hsame hpid
  | @other w lab w' cs ht hs hpid ih =>
    rcases own_step hD ht.reachable hs i with ⟨sid, v, rfl, -⟩ | ⟨hback, -⟩
    · exact absurd rfl hpid
    · exact ih.keep hs hback ⟨[], rfl, nofun⟩

/-! ## An execution alone -/

/-- Only execution `i` takes steps. -/
def Alone (i : ℕ) (_ : D.World) (lab : Label (Request D.ext) Call) : Prop := lab.pid = some i

/-- Alone, the execution has not committed and reads the rows of the start, or it has committed
    its one row. -/
theorem alone_store (hD : D.store.Valid) (hw : D.system.ReachableIf (Alone i) w) :
    (w.shared.db.committed = D.store ∧ (∀ v, ¬Committed w i v) ∧
      ∀ row, SawRow (w.Saw i) row → row ∈ D.store.refreshSessions) ∨
    ∃ p, w.procs i = some p ∧ (∃ v, Committed w i v) ∧
      OneRow D.store p.request w.shared.db.committed := by
  refine System.ReachableIf.induct (I := fun w : D.World =>
    (w.shared.db.committed = D.store ∧ (∀ v, ¬Committed w i v) ∧
      ∀ row, SawRow (w.Saw i) row → row ∈ D.store.refreshSessions) ∨
    ∃ p, w.procs i = some p ∧ (∃ v, Committed w i v) ∧
      OneRow D.store p.request w.shared.db.committed) ?_ ?_ hw
  · rintro s rfl
    refine Or.inl ⟨rfl, ?_, ?_⟩
    · rintro v ⟨sid, -, hlog⟩
      cases hlog
    · rintro row ⟨_, _, _, hs, -⟩
      cases hs
  · intro w lab w' hr hs halone ih
    rcases own_step hD hr hs i with ⟨sid, v, rfl, hc⟩ | ⟨hback, hsame⟩
    · -- the step is its commit
      rcases ih with ⟨hcom, -, hrows⟩ | ⟨p, -, ⟨v', hv'⟩, -⟩
      · obtain ⟨p, hp, hone⟩ := hc.oneRow hD hr hs
        obtain ⟨p', hp', hreq⟩ := hs.request hp
        rw [hcom] at hone
        rcases hone with hone | ⟨-, -, row, hrow, hgone⟩
        · exact .inr ⟨p', hp', ⟨v, (hc.committed_iff hD hr hs).2 (.inr ⟨rfl, rfl⟩)⟩, hreq ▸ hone⟩
        · exact absurd (hrows row hrow) hgone
      · exact absurd hv' (hc.fresh hD hr)
    · rcases ih with ⟨hcom, hnone, hrows⟩ | ⟨p, hp, ⟨v, hv⟩, hone⟩
      · refine .inl ⟨(hsame halone).trans hcom, fun v hv => hnone v (hback v hv),
          fun row hrow => ?_⟩
        rcases sawRow_step hD hr hs hrow with hrow | hrow
        · exact hrows row hrow
        · exact hcom ▸ hrow
      · obtain ⟨p', hp', hreq⟩ := hs.request hp
        refine .inr ⟨p', hp', ⟨v, hv.grows (grows_step hs)⟩, ?_⟩
        rwa [hreq, hsame halone]

/-- **All or nothing**, in every run and whatever the other executions do. -/
theorem all_or_nothing (hD : D.store.Valid) {cs : List (Store × Store)}
    (hw : D.system.Trail (·.db.committed) i w cs) {req : Request D.ext} {prog : App Response}
    (hp : w.procs i = some ⟨req, prog⟩) :
    -- (1) after an exception of any of its calls it raises
    ((∃ c e, ⟨i, c, .error e⟩ ∈ w.trace) → Raises prog) ∧
    -- (2) if it raises, none of its steps changed the store
    (∀ e, prog = .raise e → ∀ c ∈ cs, c.2 = c.1) ∧
    -- (3) if it returns, one of its steps made the write it returns for, in one row, and no other
    -- changed the store
    (∀ resp, prog = .ret resp → ∃ v xs s ys, Basis D (w.Saw i) req v ∧ Outcome D (w.Saw i) v resp ∧
      cs = xs ++ (s, v.apply s) :: ys ∧ (∀ c ∈ xs ++ ys, c.2 = c.1) ∧
      (OneRow s req (v.apply s) ∨ Overtaken D (w.Saw i) s (v.apply s))) ∧
    -- (4) alone, the store is as it was at the start, or differs from it in the one row
    (D.system.ReachableIf (Alone i) w →
      (∀ e, prog = .raise e → w.shared.db.committed = D.store) ∧
        ∀ resp, prog = .ret resp → OneRow D.store req w.shared.db.committed) := by
  have hchanges := changesOnce hD hw
  have hraised : ∀ e, prog = .raise e → ∀ v, ¬Committed w i v := by
    rintro e rfl v ⟨sid, hi, hlog⟩
    exact (raised hD hw.reachable hp).1 sid hi ⟨_, hlog⟩
  have hreturned : ∀ resp, prog = .ret resp →
      ∃ v, Committed w i v ∧ Basis D (w.Saw i) req v ∧ Outcome D (w.Saw i) v resp := by
    rintro resp rfl
    obtain ⟨sid, v, hi, hlog, hb, ho⟩ := delivered hD hw.reachable hp .ret
    exact ⟨v, ⟨sid, hi, hlog⟩, hb, ho⟩
  refine ⟨?_, fun e he => hchanges.quiet (hraised e he), fun resp hresp => ?_,
    fun halone => ⟨?_, ?_⟩⟩
  · rintro ⟨c, e, he⟩
    exact (System.raises_of_error (strict_execute D) hw.reachable i _ hp).2 c e he
  · obtain ⟨v, hv, hb, ho⟩ := hreturned resp hresp
    obtain ⟨p, xs, s, ys, hp', hcs, hsame, hone⟩ := hchanges.once v hv
    rw [hp] at hp'
    cases hp'
    exact ⟨v, xs, s, ys, hb, ho, hcs, hsame, hone⟩
  · intro e he
    rcases alone_store hD halone with ⟨hcom, -⟩ | ⟨p, -, ⟨v, hv⟩, -⟩
    · exact hcom
    · exact absurd hv (hraised e he v)
  · intro resp hresp
    rcases alone_store hD halone with ⟨-, hnone, -⟩ | ⟨p, hp', -, hone⟩
    · obtain ⟨v, hv, -⟩ := hreturned resp hresp
      exact absurd hv (hnone v)
    · rw [hp] at hp'
      cases hp'
      exact hone

namespace Sample

/-- Two refreshes of one token on SQLite: both look the session up before the first one updates
    it. -/
def lostRace : List (Action (Request (deployment .sqlite).ext) Choice) :=
  login .sqlite ++
  serve 1 (.refreshToken ⟨tokenA⟩) 10 { session := 1, token := tokenB, now := 60000000 } ++
  serve 2 (.refreshToken ⟨tokenA⟩) 10 { session := 2, now := 60000000 } ++
  List.replicate 11
    (.answer 1 { token := tokenB, now := 60000000, encoded := "header.payload.signature" }) ++
  List.replicate 6 (.answer 2 { token := "second", now := 60000000 })

/-- The program ends with the exception for a refresh token that is not valid. -/
def raisesInvalid : App Response → Bool
  | .raise .invalidRefreshToken => true
  | _ => false

end Sample

/-- The compare-and-swap of the second refresh fails. -/
theorem all_or_nothing_lostRace :
    ∃ w cs, (Sample.deployment .sqlite).schedule Sample.lostRace = some w ∧
      (Sample.deployment .sqlite).system.Trail (·.db.committed) 2 w cs ∧
      (w.procs 2).any (Sample.raisesInvalid ·.prog) = true ∧ ∀ c ∈ cs, c.2 = c.1 := by
  have hrun : ((Sample.deployment .sqlite).schedule Sample.lostRace).any
      (fun w => (w.procs 2).any (Sample.raisesInvalid ·.prog)) = true := by decide +kernel
  obtain ⟨w, hw, hraise⟩ := (Option.any_eq_true _ _).1 hrun
  obtain ⟨cs, hcs⟩ : ∃ cs, (Sample.deployment .sqlite).system.Trail (·.db.committed) 2 w cs :=
    (Deployment.schedule_reachable _ hw).trail
  refine ⟨w, cs, hw, hcs, hraise, ?_⟩
  obtain ⟨⟨req, prog⟩, hp, hprog⟩ := (Option.any_eq_true _ _).1 hraise
  cases prog with
  | raise e => exact (all_or_nothing (Sample.valid .sqlite) hcs hp).2.1 e rfl
  | _ => cases hprog

end FastapiTemplate
