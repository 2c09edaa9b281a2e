/-
  What every stored refresh session keeps (`sessions_keep`), over all runs: its
  fixed columns and its expiry, how `last_used_at` goes with the rotation
  counter, the active check behind each rotation and revocation, and that an
  execution changes no session but the one it presented the token of.
-/
import FastapiTemplate.Proof.Executions

namespace FastapiTemplate

open Effects Locking Locking.Db

variable {D : Deployment} {w w' : D.World} {lab : Label (Request D.ext) Call} {i : ℕ}

/-- The stored sessions. -/
abbrev stored (w : D.World) : List RefreshSessionModel := w.shared.db.committed.refreshSessions

/-- The session was created in the run. -/
def RefreshSessionModel.Issued (D : Deployment) (row : RefreshSessionModel) : Prop :=
  row.id ∉ D.store.refreshSessions.map (·.id)

/-- The columns of a session agree. -/
structure RefreshSessionModel.WellFormed (D : Deployment) (row : RefreshSessionModel) : Prop where
  expiry : row.expiresAt = row.createdAt + D.settings.refreshSession.refreshTokenTtl
  unused : row.lastUsedAt = none ↔ row.rotationCounter = 0
  used : ∀ t, row.lastUsedAt = some t → row.createdAt ≤ t
  counter : 0 ≤ row.rotationCounter

/-- The write rotates or revokes the session. -/
def Write.Updates (id : UUID) : Write → Prop
  | .setTokenHash data => data.sessionId = id
  | .setRevokedAt id' _ => id' = id
  | _ => False

/-- Execution `i` may change the session `id`: it creates it, or it presented its token when it
    looked it up, and a revocation is by the user of the session. -/
inductive MayChange (D : Deployment) (w : D.World) (i : ℕ) (id : UUID) : Prop
  | issue {data context} : Requests w i (.issueToken data context) →
      (∀ r ∈ stored w, r.id ≠ id) → MayChange D w i id
  | refresh {data row now} : Requests w i (.refreshToken data) →
      FoundActive D (w.Saw i) data.refreshToken row now → row.id = id → MayChange D w i id
  | revoke {data userId row now} : Requests w i (.revokeToken data userId) →
      FoundActive D (w.Saw i) data.refreshToken row now → row.id = id → row.userId = userId →
      MayChange D w i id

/-! ## Well-formed rows -/

theorem issuedRow_wellFormed (u : UserModel) (context : TokenRequestContextDTO) (token : String)
    (id : UUID) (createdAt : Instant) :
    (issuedRow D u context token id createdAt).WellFormed D where
  expiry := rfl
  unused := by simp [issuedRow, SQLAlchemyRefreshSessionRepository.newSession]
  used := by simp [issuedRow, SQLAlchemyRefreshSessionRepository.newSession]
  counter := le_rfl

theorem RefreshSessionModel.WellFormed.withTokenHash {r row : RefreshSessionModel}
    (h : r.WellFormed D) (hrow : row.WellFormed D) {presented minted : String} {usedAt : Instant}
    (hused : r.createdAt ≤ usedAt) :
    (r.withTokenHash (rotation D presented minted row usedAt)).WellFormed D where
  expiry := h.expiry
  unused := by
    have : row.rotationCounter + 1 ≠ 0 := by
      have := hrow.counter
      omega
    simp [RefreshSessionModel.withTokenHash, rotation, this]
  used t ht := by
    cases ht
    exact hused
  counter := by
    have := hrow.counter
    simp only [RefreshSessionModel.withTokenHash, rotation]
    omega

theorem RefreshSessionModel.WellFormed.withRevokedAt {r : RefreshSessionModel}
    (h : r.WellFormed D) (t : Instant) : (r.withRevokedAt t).WellFormed D :=
  ⟨h.expiry, h.unused, h.used, h.counter⟩

/-- A commit leaves well-formed rows, if the rows it read and updates are. -/
theorem Commits.wellFormed {sid : SessionId} {ws : List Write} (hD : D.store.Valid)
    (hw : D.system.Reachable w) (hc : Commits D w w' i sid ws)
    (hrows : ∀ r ∈ stored w, r.Issued D → r.WellFormed D)
    (hsaw : ∀ row, SawRow (w.Saw i) row → row.Issued D → row.WellFormed D) :
    ∀ r ∈ stored w', r.Issued D → r.WellFormed D := by
  have hI := inv hD hw
  obtain ⟨⟨req, prog⟩, -, hb⟩ := hc.proc
  rw [stored, hc.committed]
  rcases hc.short with rfl | ⟨v, rfl⟩
  · exact hrows
  have hb : Basis D (w.Saw i) req v := hb v (List.mem_singleton_self v)
  cases hb with
  | insertUser => exact hrows
  | insertRefreshSession =>
    intro r hr hnew
    rcases List.mem_append.1 hr with hr | hr
    · exact hrows r hr hnew
    · rw [List.mem_singleton.1 hr]
      exact issuedRow_wellFormed ..
  | @setTokenHash data row now minted usedAt hf _ _ hused =>
    intro r hr hnew
    rcases of_mem_updateSession hr with ⟨r₀, hr₀, hid, rfl⟩ | ⟨hr, -⟩
    · have hid : r₀.id = row.id := hid
      have hnew₀ : r₀.Issued D := hnew
      have hrow : row.Issued D := by
        rw [RefreshSessionModel.Issued, ← hid]
        exact hnew₀
      -- the row it read is an earlier version of the row it updates
      obtain ⟨r₁, hr₁, hcont⟩ := hI.rows i row hf.sawRow
      obtain rfl := hI.state.valid.session_ext hr₀ hr₁ (hid.trans hcont.id.symm)
      exact (hrows r₀ hr₀ hnew₀).withTokenHash (hsaw row hf.sawRow hrow)
        (hcont.createdAt ▸ hused hrow)
    · exact hrows r hr hnew
  | setRevokedAt =>
    intro r hr hnew
    rcases of_mem_updateSession hr with ⟨r₀, hr₀, -, rfl⟩ | ⟨hr, -⟩
    · exact (hrows r₀ hr₀ hnew).withRevokedAt _
    · exact hrows r hr hnew

/-- **The rows of every run are well-formed**, those stored and those looked up. -/
theorem rows_wellFormed (hD : D.store.Valid) (hw : D.system.Reachable w) :
    (∀ r ∈ stored w, r.Issued D → r.WellFormed D) ∧
      ∀ i row, SawRow (w.Saw i) row → row.Issued D → row.WellFormed D := by
  refine System.ReachableIf.induct (I := fun w : D.World =>
    (∀ r ∈ stored w, r.Issued D → r.WellFormed D) ∧
      ∀ i row, SawRow (w.Saw i) row → row.Issued D → row.WellFormed D) ?_ ?_ hw
  · rintro s rfl
    refine ⟨fun r hr hnew => absurd (List.mem_map_of_mem hr) hnew, ?_⟩
    rintro i row ⟨_, _, _, hs, -⟩
    cases hs
  · rintro w lab w' hw hs - ⟨hrows, hsaw⟩
    refine ⟨?_, fun i row hrow hnew => ?_⟩
    · rcases store_step hD hw hs with ⟨hcom, -⟩ | ⟨i, sid, ws, -, hc⟩ | ⟨-, f, -, hadm⟩
      · rwa [stored, hcom]
      · exact hc.wellFormed hD hw hrows (hsaw i)
      · rwa [stored, hadm]
    · rcases sawRow_step hD hw hs hrow with hrow | hrow
      · exact hsaw i row hrow hnew
      · exact hrows row hrow hnew

/-! ## Steps -/

/-- What a write leaves alone: the sessions with another identifier. -/
theorem Write.Updates.frame {id : UUID} {v : Write} {s : Store} (hv : v.Updates id)
    {r : RefreshSessionModel} (hr : r.id ≠ id) :
    r ∈ (v.apply s).refreshSessions ↔ r ∈ s.refreshSessions := by
  have key : ∀ {f : RefreshSessionModel → RefreshSessionModel}, (∀ r, (f r).id = r.id) →
      (r ∈ updateSession id f s.refreshSessions ↔ r ∈ s.refreshSessions) := by
    intro f hf
    constructor
    · intro h
      rcases of_mem_updateSession h with ⟨r₀, -, hid, rfl⟩ | ⟨h, -⟩
      · exact absurd ((hf r₀).trans hid) hr
      · exact h
    · exact fun h => mem_updateSession.2 ⟨r, h, if_neg hr⟩
  cases v with
  | setTokenHash data =>
    obtain rfl := hv
    exact key fun _ => rfl
  | setRevokedAt id' t =>
    obtain rfl := hv
    exact key fun _ => rfl
  | _ => exact hv.elim

/-- **A step changes one session at most**: it is the commit of an execution that had not committed
    before. -/
theorem changes_step (hD : D.store.Valid) (hw : D.system.Reachable w)
    (hs : D.system.Step w lab w') : stored w' = stored w ∨
      ∃ i id, (∀ v, ¬Committed w i v) ∧ (∃ v, Committed w' i v) ∧ MayChange D w i id ∧
        ∀ r, r.id ≠ id → (r ∈ stored w' ↔ r ∈ stored w) := by
  rcases store_step hD hw hs with ⟨hcom, -⟩ | ⟨i, sid, ws, -, hc⟩ | ⟨-, f, -, hadm⟩
  · exact Or.inl (by rw [stored, hcom])
  swap
  · exact Or.inl (by rw [stored, hadm])
  have hcom := hc.committed
  obtain ⟨⟨req, prog⟩, hp, hb⟩ := hc.proc
  rcases hc.short with rfl | ⟨v, rfl⟩
  · exact Or.inl (by rw [stored, hcom, Schema.replay_nil])
  have hreq : Requests w i req := ⟨_, hp, rfl⟩
  have hfresh : ∀ v, ¬Committed w i v := fun v => hc.fresh hD hw
  have hdone : ∃ v, Committed w' i v := ⟨v, (hc.committed_iff hD hw hs).2 (Or.inr ⟨rfl, rfl⟩)⟩
  have hb : Basis D (w.Saw i) req v := hb v (List.mem_singleton_self v)
  rw [stored, hcom]
  cases hb with
  | insertUser => exact Or.inl rfl
  | insertRefreshSession =>
    have hfit := hc.fits _ (List.mem_singleton_self _)
    refine Or.inr ⟨i, _, hfresh, hdone, .issue hreq fun r hr => (hfit r hr).1, fun r hne => ?_⟩
    refine ⟨fun hr => ?_, fun hr => List.mem_append_left _ hr⟩
    rcases List.mem_append.1 hr with hr | hr
    · exact hr
    · exact absurd (congrArg RefreshSessionModel.id (List.mem_singleton.1 hr)) hne
  | setTokenHash hf =>
    exact Or.inr ⟨i, _, hfresh, hdone, .refresh hreq hf rfl, fun r hne =>
      Write.Updates.frame (v := .setTokenHash _) rfl hne⟩
  | setRevokedAt hf huser =>
    exact Or.inr ⟨i, _, hfresh, hdone, .revoke hreq hf rfl huser, fun r hne =>
      Write.Updates.frame (v := .setRevokedAt _ _) rfl hne⟩

/-- Every stored session has a later version, and only one. -/
theorem continues_leads (hD : D.store.Valid) (hw : D.system.Reachable w)
    (hl : D.system.Leads w w') {r : RefreshSessionModel} (hr : r ∈ stored w) :
    (∃ r' ∈ stored w', r'.id = r.id) ∧ ∀ r' ∈ stored w', r'.id = r.id → r.Continues r' := by
  have hex : ∃ r' ∈ stored w', r.Continues r' := by
    induction hl with
    | refl => exact ⟨r, hr, .refl r⟩
    | step hl hs ih =>
      obtain ⟨r₁, hr₁, hcont₁⟩ := ih
      obtain ⟨r₂, hr₂, hcont₂⟩ := continues_step hD (hw.leads hl) hs hr₁
      exact ⟨r₂, hr₂, hcont₁.trans hcont₂⟩
  obtain ⟨r₁, hr₁, hcont⟩ := hex
  refine ⟨⟨r₁, hr₁, hcont.id⟩, fun r' hr' hid => ?_⟩
  have hvalid := (inv hD (hw.leads hl)).state.valid
  rwa [hvalid.session_ext hr' hr₁ (hid.trans hcont.id.symm)]

/-- A committed rotation or revocation passed an active check before the session expires. -/
theorem active_of_committed (hD : D.store.Valid) (hw : D.system.Reachable w) {v : Write}
    {id : UUID} (hc : Committed w i v) (hv : v.Updates id) :
    ∃ token row now, FoundActive D (w.Saw i) token row now ∧ MayChange D w i id ∧
      ∃ r ∈ stored w, r.id = id ∧ row.Continues r ∧ now < r.expiresAt := by
  obtain ⟨⟨req, prog⟩, resp, hp, -, hb, -⟩ := hc.execution hD hw
  have hreq : Requests w i req := ⟨_, hp, rfl⟩
  have hb : Basis D (w.Saw i) req v := hb
  cases hb with
  | setTokenHash hf =>
    obtain ⟨r, hr, hcont⟩ := (inv hD hw).rows i _ hf.sawRow
    exact ⟨_, _, _, hf, .refresh hreq hf hv, r, hr, hcont.id.trans hv, hcont,
      hcont.expiresAt ▸ hf.2.2.2.2⟩
  | setRevokedAt hf huser =>
    obtain ⟨r, hr, hcont⟩ := (inv hD hw).rows i _ hf.sawRow
    exact ⟨_, _, _, hf, .revoke hreq hf hv huser, r, hr, hcont.id.trans hv, hcont,
      hcont.expiresAt ▸ hf.2.2.2.2⟩
  | _ => exact hv.elim

/-- **What every stored session keeps**, in every run. -/
theorem sessions_keep (hD : D.store.Valid) (hw : D.system.Reachable w) :
    -- (1) the expiry is fixed at creation, and the session was used iff it was rotated
    (∀ r ∈ stored w, r.Issued D →
      r.expiresAt = r.createdAt + D.settings.refreshSession.refreshTokenTtl ∧
      (r.lastUsedAt = none ↔ r.rotationCounter = 0) ∧
      ∀ t, r.lastUsedAt = some t → r.createdAt ≤ t) ∧
    -- (2) later it is stored with the same fixed columns, and revoked if it was revoked
    (∀ w', D.system.Leads w w' → ∀ r ∈ stored w,
      (∃ r' ∈ stored w', r'.id = r.id) ∧ ∀ r' ∈ stored w', r'.id = r.id → r.Continues r') ∧
    -- (3) who rotated or revoked it passed an active check before the expiry of the creation
    (∀ i v id, Committed w i v → v.Updates id → ∃ token row now,
      FoundActive D (w.Saw i) token row now ∧ MayChange D w i id ∧
        ∃ r ∈ stored w, r.id = id ∧ row.Continues r ∧ now < r.expiresAt) ∧
    -- (4) a step changes no session but one that the execution that commits may change
    (∀ lab w', D.system.Step w lab w' → stored w' = stored w ∨
      ∃ i id, (∀ v, ¬Committed w i v) ∧ (∃ v, Committed w' i v) ∧ MayChange D w i id ∧
        ∀ r, r.id ≠ id → (r ∈ stored w' ↔ r ∈ stored w)) := by
  refine ⟨fun r hr hnew => ?_, fun w' hl r hr => continues_leads hD hw hl hr,
    fun i v id hc hv => active_of_committed hD hw hc hv, fun lab w' hs => changes_step hD hw hs⟩
  have h := (rows_wellFormed hD hw).1 r hr hnew
  exact ⟨h.expiry, h.unused, h.used⟩

theorem sessions_keep_login_rotate :
    ∃ w, (Sample.deployment .sqlite).schedule (Sample.login .sqlite ++ Sample.rotate .sqlite) =
        some w ∧ (stored w).length = 1 ∧ ∀ r ∈ stored w, r.Issued (Sample.deployment .sqlite) →
      r.expiresAt = r.createdAt + 30 * (24 * 60 * 60 * 1000000) ∧
      (r.lastUsedAt = none ↔ r.rotationCounter = 0) ∧
      ∀ t, r.lastUsedAt = some t → r.createdAt ≤ t := by
  have hrun : ((Sample.deployment .sqlite).schedule
      (Sample.login .sqlite ++ Sample.rotate .sqlite)).any
        (fun w => (stored w).length == 1) = true := by decide +kernel
  obtain ⟨w, hw, hlen⟩ := (Option.any_eq_true _ _).1 hrun
  exact ⟨w, hw, by simpa using hlen,
    (sessions_keep (Sample.valid .sqlite) (Deployment.schedule_reachable _ hw)).1⟩

end FastapiTemplate
