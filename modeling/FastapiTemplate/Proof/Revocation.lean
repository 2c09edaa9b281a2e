/-
  Revocation is final (`revocation_final`), on PostgreSQL in every run, and on
  SQLite in the runs whose rotations update no row that was revoked since they
  read it; a race that breaks it there is `revocation_race`.

  The invariant is about the uncommitted updates: the session a transaction is
  about to rotate is not revoked, and stays so until it commits, because its
  lock on the row keeps the revocations of others out.
-/
import FastapiTemplate.Proof.Executions

namespace FastapiTemplate

open Effects Locking Locking.Db

variable {D : Deployment} {w w' : D.World} {lab : Label (Request D.ext) Call}

/-- No rotation of a session is committed after a revocation of it. -/
def RevocationFinal (w : D.World) : Prop :=
  w.shared.db.log.Pairwise fun earlier later => ∀ id t data,
    .setRevokedAt id t ∈ earlier.2 → .setTokenHash data ∈ later.2 → data.sessionId ≠ id

/-- What has to hold of a step on SQLite: the update of a rotation matches no revoked row. -/
def UpdatesUnrevoked (w : D.World) (lab : Label (Request D.ext) Call) : Prop :=
  D.dialect = .postgresql ∨ ∀ i sid data, lab = .call i (.sql sid (.updateTokenHash data)) →
    ∀ row ∈ w.shared.db.committed.tokenHashMatches data, row.revokedAt = none

/-- No row with the identifier is revoked. -/
def Store.Unrevoked (id : UUID) (s : Store) : Prop :=
  ∀ r ∈ s.refreshSessions, r.id = id → r.revokedAt = none

/-- The lock of a row keeps it unrevoked. -/
theorem protects_unrevoked (d : Dialect) (id : UUID) :
    Protects d.schema [d.lock (.refreshSession id)] (Store.Unrevoked id) := by
  refine d.protects [.refreshSession id] fun v s hv hs => ?_
  rw [List.forall_mem_singleton] at hv
  cases v with
  | insertUser => exact hs
  | insertRefreshSession row =>
    intro r hr hid
    rcases List.mem_append.1 hr with hr | hr
    · exact hs r hr hid
    · obtain rfl := List.mem_singleton.1 hr
      exact absurd (by simp [Write.touches, hid]) hv
  | setTokenHash data =>
    intro r hr hid
    obtain ⟨r₀, hr₀, rfl⟩ := mem_updateSession.1 hr
    split at hid <;> split
    · exact hs r₀ hr₀ hid
    · contradiction
    · contradiction
    · exact hs r₀ hr₀ hid
  | setRevokedAt id' t =>
    intro r hr hid
    obtain ⟨r₀, hr₀, rfl⟩ := mem_updateSession.1 hr
    split at hid
    · rename_i h
      exact absurd (by simp [Write.touches, ← hid, ← h]) hv
    · rw [if_neg ‹_›]
      exact hs r₀ hr₀ hid

/-- A committed revocation stays in the store. -/
theorem revoked_stays (hD : D.store.Valid) (hw : D.system.Reachable w) :
    ∀ e ∈ w.shared.db.log, ∀ id t, Write.setRevokedAt id t ∈ e.2 →
      ∃ r ∈ w.shared.db.committed.refreshSessions, r.id = id ∧ r.revokedAt ≠ none := by
  refine System.ReachableIf.induct (I := fun w : D.World => ∀ e ∈ w.shared.db.log, ∀ id t,
    Write.setRevokedAt id t ∈ e.2 →
      ∃ r ∈ w.shared.db.committed.refreshSessions, r.id = id ∧ r.revokedAt ≠ none) ?_ ?_ hw
  · rintro s rfl e he
    cases he
  · intro w lab w' hw hs _ ih e he id t hv
    have hold : e ∈ w.shared.db.log →
        ∃ r ∈ w'.shared.db.committed.refreshSessions, r.id = id ∧ r.revokedAt ≠ none := by
      intro he
      obtain ⟨r, hr, hid, hrev⟩ := ih e he id t hv
      obtain ⟨r', hr', hcont⟩ := continues_step hD hw hs hr
      exact ⟨r', hr', hcont.id.trans hid, hcont.revoked hrev⟩
    rcases store_step hD hw hs with ⟨-, hlog⟩ | ⟨i, sid, ws, -, hc⟩ | ⟨-, f, -, hadm⟩
    · exact hold (hlog ▸ he)
    · rw [hc.log, List.mem_append, List.mem_singleton] at he
      rcases he with he | rfl
      · exact hold he
      · obtain ⟨r, hr, hid⟩ := hc.fits _ hv
        rcases hc.short with rfl | ⟨v, rfl⟩
        · cases hv
        · obtain rfl := List.mem_singleton.1 hv
          rw [hc.committed]
          exact ⟨r.withRevokedAt t, mem_updateSession.2 ⟨r, hr, if_pos hid⟩, hid,
            Option.some_ne_none t⟩
    · rw [hadm] at he
      exact hold he

/-- **The update of a rotation finds its row unrevoked**: on PostgreSQL the row is locked since it
    was read active. -/
theorem unrevoked_of_update (hD : D.store.Valid) (hw : D.system.Reachable w) {i : ℕ}
    {req : Request D.ext} {sid : SessionId} {q : Stmt}
    {k : Except Exc q.Ret → App Response} {userId : ℤ} {e : Effect q}
    (hi : w.procs i = some ⟨req, .call (.sql sid q) k⟩)
    (hP : UpdatesUnrevoked w (.call i (.sql sid q)))
    (he : q.run (w.shared.db.view D.dialect.schema sid) userId = .ok e)
    {data : ReplaceRefreshSessionTokenDTO} (hv : .setTokenHash data ∈ e.writes) :
    w.shared.db.committed.Unrevoked data.sessionId := by
  have hvalid := (inv hD hw).state.valid
  obtain ⟨r, hr, hid, hh⟩ := (Stmt.run_fits he _ hv).1
  have ho : q.outcome e.ret = some (.setTokenHash data) := by
    rw [Stmt.run_writes he, Option.mem_toList] at hv
    exact hv
  obtain rfl := Stmt.outcome_setTokenHash ho
  obtain ⟨l, hwp, hk⟩ := annotated hD hw hi
  have hc : Can D req l.saw l.stage (.sql sid (.updateTokenHash data)) := hwp.1
  have hh' : l.stage.Holds D req l.saw w.shared i := Knows.holds hk
  revert hc hh'
  generalize l.stage = st
  intro hc hin
  cases hc with
  | read hq _ _ => cases hq
  | write hb =>
    have hin : Inside D req l.saw w.shared i sid .idle := hin
    -- the transaction has written nothing, so it updates a committed row
    have hview : w.shared.db.view D.dialect.schema sid = w.shared.db.committed := hin.view
    rw [hview] at hr
    have hrow : r.revokedAt = none := by
      rcases hP with hd | hP
      · have hb : Basis D l.saw req (.setTokenHash data) := hb _ _ ho
        cases hb with
        | setTokenHash hf _ _ _ =>
          obtain ⟨-, hm⟩ := hin.locked hd _ hf.sawRow
          rw [hvalid.session_ext hr hm hid]
          exact hf.2.2.2.1
      · refine hP i sid data rfl r (List.mem_filter.2 ⟨hr, ?_⟩)
        exact decide_eq_true ⟨hid, hh⟩
    intro r' hr' hid'
    rw [hvalid.session_ext hr' hr (hid'.trans hid.symm)]
    exact hrow

/-- The sessions that transactions are about to rotate are not revoked. -/
def RotatesUnrevoked (w : D.World) : Prop :=
  ∀ sid data, .setTokenHash data ∈ w.shared.db.writes sid →
    w.shared.db.committed.Unrevoked data.sessionId

theorem RotatesUnrevoked.step (hD : D.store.Valid) (hw : D.system.Reachable w)
    (hs : D.system.Step w lab w') (hP : UpdatesUnrevoked w lab) (h : RotatesUnrevoked w) :
    RotatesUnrevoked w' := by
  cases hs with
  | spawn => exact h
  | environment he =>
    obtain ⟨f, -, rfl⟩ := he
    exact h
  | @call i req c k r s hi ha =>
    have ha : Answer D.ext D.dialect Call.mayFail i w.shared c r s := ha
    intro sid data hv
    rcases ha.committed with ⟨hcom, -⟩ | ⟨sid', rfl, -, rfl⟩
    · rw [World.reply_shared, hcom]
      rcases ha.new_writes hv with hv | ⟨q, userId, e, rfl, he, hv⟩ | ⟨-, hv⟩
      · exact h sid data hv
      · exact unrevoked_of_update hD hw hi hP he hv
      · obtain ⟨x, -, hx⟩ := List.mem_map.1 hv
        cases hx
    · -- another transaction commits: the lock of the row keeps it unrevoked
      have hne : sid' ≠ sid := by
        rintro rfl
        rw [World.reply_shared, commit_writes, release_self] at hv
        cases hv
      rw [World.reply_shared, commit_writes, release_ne _ _ _ hne.symm] at hv
      have htp := (inv hD hw).state.twoPhase
      refine htp.stable_commit (protects_unrevoked D.dialect data.sessionId) (fun l hl => ?_) hne
        (h sid data hv)
      rw [List.mem_singleton.1 hl]
      exact htp.covered sid _ hv _ (List.mem_map_of_mem (by simp [Write.touches]))

/-- **Revocation is final.** -/
theorem revocation_final (hD : D.store.Valid) (hw : D.system.ReachableIf UpdatesUnrevoked w) :
    RevocationFinal w := by
  refine (System.ReachableIf.induct (I := fun w : D.World => RotatesUnrevoked w ∧
    RevocationFinal w) ?_ ?_ hw).2
  · rintro s rfl
    exact ⟨fun _ _ hv => absurd hv List.not_mem_nil, List.Pairwise.nil⟩
  · rintro w lab w' hw hs hP ⟨hrot, hfin⟩
    refine ⟨hrot.step hD hw hs hP, ?_⟩
    rcases store_step hD hw hs with ⟨-, hlog⟩ | ⟨i, sid, ws, -, hc⟩ | ⟨-, f, -, hadm⟩
    · rwa [RevocationFinal, hlog]
    · rw [RevocationFinal, hc.log]
      refine List.pairwise_append.2 ⟨hfin, List.pairwise_singleton .., fun e he a ha => ?_⟩
      obtain rfl := List.mem_singleton.1 ha
      rintro id t data hrev hv rfl
      -- the revocation is in the store, and the row that is rotated is unrevoked
      obtain ⟨r, hr, hid, hne⟩ := revoked_stays hD hw e he _ t hrev
      exact hne (hrot sid data (hc.writes ▸ hv) r hr hid)
    · rwa [RevocationFinal, hadm]

namespace Sample

/-- Alice revokes the session of her token. -/
def revoke (d : Dialect) : List (Action (Request (deployment d).ext) Choice) :=
  serve 2 (.revokeToken ⟨tokenA⟩ 1) 19 { session := 2, now := 61000000 }

/-- A rotation reads its row; a revocation runs and commits; the rotation goes on. -/
def race : List (Action (Request (deployment .sqlite).ext) Choice) :=
  login .sqlite ++
  serve 1 (.refreshToken ⟨tokenA⟩) 11 { session := 1, token := tokenB, now := 60000000 } ++
  revoke .sqlite ++
  List.replicate 10 (.answer 1 { now := 62000000, encoded := "header.payload.signature" })

end Sample

theorem revocation_final_login_revoke :
    ∃ w, (Sample.deployment .postgresql).schedule
        (Sample.login .postgresql ++ Sample.revoke .postgresql) = some w ∧
      w.shared.db.log.length = 2 ∧ RevocationFinal w := by
  have hrun : ((Sample.deployment .postgresql).schedule
      (Sample.login .postgresql ++ Sample.revoke .postgresql)).any
        (fun w => w.shared.db.log.length == 2) = true := by decide +kernel
  obtain ⟨w, hw, hlen⟩ := (Option.any_eq_true _ _).1 hrun
  have hreach := Deployment.schedule_reachable _ hw
  exact ⟨w, hw, by simpa using hlen,
    revocation_final (Sample.valid _) (hreach.reachableIf fun _ _ => Or.inl rfl)⟩

/-- **On SQLite the race breaks it**: the rotation commits after the revocation. -/
theorem revocation_race : ¬∀ D : Deployment, D.store.Valid → ∀ w : D.World,
    D.system.Reachable w → RevocationFinal w := by
  intro h
  have hrun : ((Sample.deployment .sqlite).schedule Sample.race).any (fun w =>
      decide (w.shared.db.log.drop 1 = [(2, [.setRevokedAt 7 61000000]),
        (1, [.setTokenHash ⟨7, Sample.digestA, Sample.digestB, 60000000, 1⟩])])) = true := by
    decide
  obtain ⟨w, hw, hlog⟩ := (Option.any_eq_true _ _).1 hrun
  have hfin := (h _ (Sample.valid _) w (Deployment.schedule_reachable _ hw)).drop (i := 1)
  rw [of_decide_eq_true hlog, List.pairwise_pair] at hfin
  exact hfin 7 61000000 _ (List.mem_singleton_self _) (List.mem_singleton_self _) rfl

end FastapiTemplate
