/-
  Every use case follows the protocol: one spec lemma for each function, in the
  order of the calls.
-/
import FastapiTemplate.Proof.Block

namespace FastapiTemplate

open Effects

variable {D : Deployment} {req : Request D.ext} {sid : SessionId} {l : Loc} {work : Work}

/-! ## Repositories -/

theorem currentScope_spec (hl : l.stage = .inside sid work) :
    Block req sid l currentScope fun sc l' => l'.stage = .inside sid work ∧ sc = Scope.of sid := by
  refine (Block.ask hl (.scopeGet trivial) (fun _ => rfl) fun e he => ?_).bind ?_
  · exact he.resolve_right fun h => h
  · rintro sc l' - ⟨hst, -, ha⟩
    rw [show sc = some (Scope.of sid) by simpa [Answered, hl, Stage.scope] using ha]
    exact .pure ⟨hst, rfl⟩

theorem userRepository_spec (hl : l.stage = .inside sid work) :
    Block req sid l userRepository fun repo l' => l'.stage = .inside sid work ∧ repo = ⟨sid⟩ :=
  (currentScope_spec hl).bind fun sc _ _ h => by rw [h.2]; exact .pure ⟨h.1, rfl⟩

theorem refreshSessionRepository_spec (hl : l.stage = .inside sid work) :
    Block req sid l refreshSessionRepository fun repo l' =>
      l'.stage = .inside sid work ∧ repo = ⟨sid⟩ :=
  (currentScope_spec hl).bind fun sc _ _ h => by rw [h.2]; exact .pure ⟨h.1, rfl⟩

theorem issueRefreshToken_spec (hl : l.stage = .inside sid work) :
    Block req sid l (issueRefreshToken D.settings.refreshSession) fun t l' =>
      l'.stage = .inside sid work ∧ Minted D l'.saw t :=
  (Block.ask hl .tokenUrlsafe (fun _ => rfl) fun _ he => he.resolve_right fun h => h).mono
    fun _ _ _ h => ⟨h.1, h.2.1⟩

theorem now_spec (hl : l.stage = .inside sid work) :
    Block req sid l (call .now) fun (t : Instant) l' => l'.stage = .inside sid work ∧
      l'.saw .now t ∧ ∀ row, SawRow l.saw row →
        row.id ∉ D.store.refreshSessions.map (·.id) → row.createdAt ≤ t :=
  Block.ask hl .now (fun _ => rfl) fun _ he => he.resolve_right fun h => h

section
variable (hreq : ∀ e, Anticipated D req e)
include hreq

theorem scalarOneOrNone_spec {α : Type} {rows : List α} (hl : l.stage = .inside sid work) :
    Block req sid l (scalarOneOrNone rows) fun r l' => l' = l ∧ rows = r.toList := by
  match rows with
  | [] => exact .pure ⟨rfl, rfl⟩
  | [_] => exact .pure ⟨rfl, rfl⟩
  | _ :: _ :: _ => exact .throw hl (hreq _)

theorem scalarOne_spec {α : Type} {rows : List α} (hl : l.stage = .inside sid work) :
    Block req sid l (scalarOne rows) fun r l' => l' = l ∧ rows = [r] := by
  match rows with
  | [] => exact .throw hl (hreq _)
  | [_] => exact .pure ⟨rfl, rfl⟩
  | _ :: _ :: _ => exact .throw hl (hreq _)

theorem getByUsername_spec (hl : l.stage = .inside sid .idle) (username : String) :
    Block req sid l (SQLAlchemyUserRepository.getByUsername ⟨sid⟩ username) fun r l' =>
      l'.stage = .inside sid .idle ∧ ∀ user, r = some user → ∃ u, user = userFromModel u ∧
        l'.saw (.sql sid (.selectUserByUsername username)) [u] := by
  refine (Block.read hl rfl rfl fun _ _ => rfl).bind ?_
  rintro rows l₁ - ⟨h₁, hsaw, -⟩
  refine (scalarOneOrNone_spec hreq h₁).bind ?_
  rintro r l₂ - ⟨rfl, rfl⟩
  refine .pure ⟨h₁, fun user hu => ?_⟩
  obtain ⟨u, rfl, rfl⟩ := Option.map_eq_some_iff.1 hu
  exact ⟨u, rfl, hsaw⟩

theorem getActiveById_spec (hl : l.stage = .inside sid .idle) (userId : ℤ) :
    Block req sid l (SQLAlchemyUserRepository.getActiveById ⟨sid⟩ userId) fun r l' =>
      l'.stage = .inside sid .idle ∧ ∀ user, r = some user → user.id = userId := by
  refine (Block.read hl rfl rfl fun _ _ => rfl).bind ?_
  rintro rows l₁ - ⟨h₁, -, ha⟩
  refine (scalarOneOrNone_spec hreq h₁).bind ?_
  rintro r l₂ - ⟨rfl, rfl⟩
  refine .pure ⟨h₁, fun user hu => ?_⟩
  obtain ⟨u, rfl, rfl⟩ := Option.map_eq_some_iff.1 hu
  exact ha u (List.mem_singleton_self u)

omit hreq in
theorem loadUsers_spec (hl : l.stage = .inside sid work) (hw : work.changes = [])
    (rows : List RefreshSessionModel) :
    Block req sid l (SQLAlchemyRefreshSessionRepository.loadUsers ⟨sid⟩ rows) fun _ l' =>
      l'.stage = .inside sid work := by
  cases rows with
  | nil => exact .pure hl
  | cons row rows => exact (Block.read hl rfl hw fun _ h => by cases h).mono fun _ _ _ h => h.1

theorem userOf_spec (hl : l.stage = .inside sid work) (users : List UserModel)
    (model : RefreshSessionModel) :
    Block req sid l (SQLAlchemyRefreshSessionRepository.userOf users model) fun user l' =>
      l' = l ∧ user.id = model.userId := by
  unfold SQLAlchemyRefreshSessionRepository.userOf
  split
  · rename_i u hu
    have hid : u.id = model.userId := by simpa using List.find?_some hu
    exact .pure ⟨rfl, hid⟩
  · exact .throw hl (hreq _)

theorem create_spec (hl : l.stage = .inside sid .idle) {data : CreateRefreshSessionDTO}
    (hb : Basis D l.saw req (.insertRefreshSession
      (SQLAlchemyRefreshSessionRepository.newSession data))) :
    Block req sid l (SQLAlchemyRefreshSessionRepository.create ⟨sid⟩ data) fun _ l' =>
      l'.stage = .inside sid (.wrote (.insertRefreshSession
        (SQLAlchemyRefreshSessionRepository.newSession data))) := by
  refine (Block.sql hl (.write fun _ w hw => ?_) fun _ _ => hreq _).bind ?_
  · obtain rfl := Option.some.inj hw
    exact hb
  · exact fun _ _ _ h => .pure h.1

/-- A session the repository returns: its row and the row's user. -/
theorem getByTokenHash_spec (hl : l.stage = .inside sid .idle) (h : String) :
    Block req sid l (SQLAlchemyRefreshSessionRepository.getByTokenHash ⟨sid⟩ h) fun r l' =>
      l'.stage = .inside sid .idle ∧ ∀ session, r = some session → ∃ row user,
        session = refreshSessionFromModel row user ∧ user.id = row.userId ∧
        l'.saw (.sql sid (.selectSessionByHash h true)) [row] ∧ row.refreshTokenHash = h := by
  refine (Block.read hl rfl rfl fun _ _ => rfl).bind ?_
  rintro rows l₁ - ⟨h₁, hsaw, ha⟩
  refine (loadUsers_spec h₁ rfl rows).bind ?_
  rintro users l₂ h₁₂ h₂
  refine (scalarOneOrNone_spec hreq h₂).bind ?_
  rintro r l₃ - ⟨rfl, rfl⟩
  cases r with
  | none => exact .pure ⟨h₂, fun _ hs => by cases hs⟩
  | some row =>
    refine (userOf_spec hreq h₂ users row).bind ?_
    rintro user l₄ - ⟨rfl, hu⟩
    refine .pure ⟨h₂, fun session hs => ?_⟩
    obtain rfl := Option.some.inj hs
    exact ⟨row, user, rfl, hu, h₁₂ _ _ hsaw, (ha row (List.mem_singleton_self row)).1⟩

theorem replaceTokenHash_spec (hl : l.stage = .inside sid .idle)
    {data : ReplaceRefreshSessionTokenDTO} (hb : Basis D l.saw req (.setTokenHash data)) :
    Block req sid l (SQLAlchemyRefreshSessionRepository.replaceTokenHash ⟨sid⟩ data) fun r l' =>
      (∃ work, l'.stage = .inside sid work) ∧
      ∀ session, r = some session → l'.stage = .inside sid (.wrote (.setTokenHash data)) ∧
        ∀ row₀, SawRow l.saw row₀ → row₀.id = data.sessionId →
          session.user.id = row₀.userId := by
  refine (Block.sql hl (.write fun n w hw => ?_) fun _ _ => hreq _).bind ?_
  · simp only [Stmt.outcome] at hw
    split at hw
    · cases hw
    · obtain rfl := Option.some.inj hw
      exact hb
  rintro (n : ℕ) l₁ hl₁ ⟨h₁, -, -⟩
  by_cases hn : n ≠ 1
  · rw [if_pos hn]
    exact .pure ⟨⟨_, h₁⟩, fun _ hs => by cases hs⟩
  rw [if_neg hn]
  obtain rfl : n = 1 := not_not.1 hn
  have h₁ : l₁.stage = .inside sid (.wrote (.setTokenHash data)) := h₁
  refine (Block.read h₁ rfl rfl fun _ h => by cases h).bind ?_
  rintro rows l₂ - ⟨h₂, -, ha⟩
  refine (loadUsers_spec h₂ rfl rows).bind ?_
  rintro users l₃ - h₃
  refine (scalarOne_spec hreq h₃).bind ?_
  rintro row l₄ - ⟨rfl, rfl⟩
  refine (userOf_spec hreq h₃ users row).bind ?_
  rintro user l₅ - ⟨rfl, hu⟩
  refine .pure ⟨⟨_, h₃⟩, fun session hs => ⟨h₃, fun row₀ hrow₀ hid => ?_⟩⟩
  obtain rfl := Option.some.inj hs
  obtain ⟨-, huser, hrow⟩ := ha row (List.mem_singleton_self row)
  have hid' : row.id = data.sessionId := hrow data (by rw [h₁]; rfl) rfl
  have hsaw : SawRow l₁.saw row₀ := by
    obtain ⟨s, h, rows, hr, hm⟩ := hrow₀
    exact ⟨s, h, rows, hl₁ _ _ hr, hm⟩
  exact hu.trans (huser row₀ hsaw (hid.trans hid'.symm)).symm

theorem revoke_spec (hl : l.stage = .inside sid .idle) {row : RefreshSessionModel}
    (hrow : SawRow l.saw row) {t : Instant} (hb : Basis D l.saw req (.setRevokedAt row.id t)) :
    Block req sid l (SQLAlchemyRefreshSessionRepository.revoke ⟨sid⟩ row.id t) fun _ l' =>
      l'.stage = .inside sid (.pending row.id t) := by
  refine (Block.read hl rfl rfl fun _ _ => rfl).bind ?_
  rintro rows l₁ hl₁ ⟨h₁, -, hid, hne⟩
  refine (scalarOneOrNone_spec hreq h₁).bind ?_
  rintro r l₂ - ⟨rfl, rfl⟩
  cases r with
  | none => exact absurd rfl (hne ⟨row, hrow, rfl⟩)
  | some model =>
    have hm : model.id = row.id := hid model (List.mem_singleton_self model)
    refine wp_call.2 ⟨h₁ ▸ ?_, fun a _ => ⟨l₂.le_after _ _, ?_⟩, fun e he => ?_⟩
    · rw [hm]
      exact .setRevokedAt (hb.mono hl₁)
    · show (l₂.after (.setRevokedAt sid model.id t) (.ok a)).stage = _
      rw [Loc.stage_after, h₁, hm]
      rfl
    · exact absurd he Bool.false_ne_true

/-! ## Services -/

theorem authenticateUser_spec (hl : l.stage = .inside sid .idle) (data : IssueTokenDTO) :
    Block req sid l (authenticateUser D.ext data.username data.password) fun r l' =>
      l'.stage = .inside sid .idle ∧ ∀ user, r = some user →
        ∃ u, user = userFromModel u ∧ Verified D l'.saw data u := by
  refine (userRepository_spec hl).bind ?_
  rintro _ l₁ - ⟨h₁, rfl⟩
  refine (getByUsername_spec hreq h₁ _).bind ?_
  rintro r l₂ - ⟨h₂, hr⟩
  cases r with
  | none => exact .pure ⟨h₂, fun _ hs => by cases hs⟩
  | some user =>
    obtain ⟨u, rfl, hu⟩ := hr user rfl
    cases ha : (userFromModel u).isActive with
    | false =>
      simp only [ha]
      exact .pure ⟨h₂, fun _ hs => by cases hs⟩
    | true =>
      simp only [ha]
      refine (Block.ofExcept (P := fun b l' => l' = l₂ ∧
        D.ext.verifyPassword data.password u.passwordHash = .ok b) h₂
        (fun b hb => ⟨rfl, hb⟩) fun e _ => hreq e).bind ?_
      rintro b l₃ - ⟨rfl, hb⟩
      cases b with
      | false => exact .pure ⟨h₂, fun _ hs => by cases hs⟩
      | true =>
        refine .pure ⟨h₂, fun user hs => ?_⟩
        obtain rfl := Option.some.inj hs
        exact ⟨u, rfl, ⟨sid, hu⟩, ha, hb⟩

theorem getActiveRefreshSession_spec (hl : l.stage = .inside sid .idle) (token : String) :
    Block req sid l (getActiveRefreshSession ⟨sid⟩ (hashRefreshToken D.ext token)) fun session l' =>
      l'.stage = .inside sid .idle ∧ ∃ row user now, session = refreshSessionFromModel row user ∧
        user.id = row.userId ∧ FoundActive D l'.saw token row now := by
  refine (getByTokenHash_spec hreq hl _).bind ?_
  rintro r l₁ - ⟨h₁, hr⟩
  cases r with
  | none => exact .throw h₁ (hreq _)
  | some session =>
    obtain ⟨row, user, rfl, hu, hsaw, hhash⟩ := hr session rfl
    refine (now_spec h₁).bind ?_
    rintro (now : Instant) l₂ h₁₂ ⟨h₂, hnow, -⟩
    cases ha : (refreshSessionFromModel row user).isActiveAt now with
    | false =>
      simp only [Bool.not_false, if_true]
      exact .throw h₂ (hreq _)
    | true =>
      simp only [Bool.not_true, Bool.false_eq_true, if_false]
      obtain ⟨hrev, hexp⟩ := Bool.and_eq_true_iff.1 ha
      exact .pure ⟨h₂, row, user, now, rfl, hu, ⟨sid, h₁₂ _ _ hsaw⟩, hhash, hnow,
        Option.isNone_iff_eq_none.1 hrev, of_decide_eq_true hexp⟩

end

theorem FoundActive.sawRow {saw : History} {token : String} {row : RefreshSessionModel}
    {now : Instant} (h : FoundActive D saw token row now) : SawRow saw row :=
  h.1.elim fun sid hs => ⟨sid, _, [row], hs, List.mem_singleton_self row⟩

theorem anticipated_issueToken {data : IssueTokenDTO} {context : TokenRequestContextDTO} (e : Exc) :
    Anticipated D (.issueToken data context) e := trivial

theorem anticipated_refreshToken {data : RefreshTokenDTO} (e : Exc) :
    Anticipated D (.refreshToken data) e := trivial

theorem anticipated_revokeToken {data : RefreshTokenDTO} {userId : ℤ} (e : Exc) :
    Anticipated D (.revokeToken data userId) e := trivial

theorem createRefreshSession_spec {data : IssueTokenDTO} {context : TokenRequestContextDTO}
    (hl : l.stage = .inside sid .idle) {u : UserModel} (hv : Verified D l.saw data u) :
    Block (D := D) (.issueToken data context) sid l
      (createRefreshSession D.ext D.settings.refreshSession (userFromModel u) context.userAgent
        context.ipAddressTrace) fun r l' =>
      Minted D l'.saw r.refreshToken ∧ ∃ row,
        l'.stage = .inside sid (.wrote (.insertRefreshSession row)) ∧
        Basis D l'.saw (.issueToken data context) (.insertRefreshSession row) ∧
        row.refreshTokenHash = hashRefreshToken D.ext r.refreshToken ∧ row.userId = u.id := by
  refine (issueRefreshToken_spec hl).bind ?_
  rintro t l₁ h₀₁ ⟨h₁, ht⟩
  refine (now_spec h₁).bind ?_
  rintro createdAt l₂ h₁₂ ⟨h₂, hnow, -⟩
  refine (refreshSessionRepository_spec h₂).bind ?_
  rintro _ l₃ h₂₃ ⟨h₃, rfl⟩
  refine (Block.ask h₃ .uuid7 (fun _ => rfl) fun _ he => he.resolve_right fun h => h).bind ?_
  rintro id l₄ h₃₄ ⟨h₄, -, -⟩
  have hle : l₁.Le l₄ := h₁₂.trans (h₂₃.trans h₃₄)
  have hb : Basis D l₄.saw (.issueToken data context)
      (.insertRefreshSession (issuedRow D u context t id createdAt)) :=
    .insertRefreshSession (hv.mono (h₀₁.trans hle)) (ht.mono hle) (h₃₄ _ _ (h₂₃ _ _ hnow))
  refine (create_spec anticipated_issueToken h₄ hb).bind ?_
  intro r l₅ h₄₅ h₅
  exact .pure ⟨ht.mono (hle.trans h₄₅), _, h₅, hb.mono h₄₅, rfl, rfl⟩

/-- A rotation that returns: the token it minted, and whose session it is. -/
theorem rotateRefreshToken_spec {data : RefreshTokenDTO} (hl : l.stage = .inside sid .idle) :
    Block (D := D) (.refreshToken data) sid l
      (rotateRefreshToken D.ext D.settings.refreshSession data.refreshToken) fun r l' =>
      Minted D l'.saw r.refreshToken ∧ ∃ row now usedAt,
        l'.stage = .inside sid
          (.wrote (.setTokenHash (rotation D data.refreshToken r.refreshToken row usedAt))) ∧
        Basis D l'.saw (.refreshToken data)
          (.setTokenHash (rotation D data.refreshToken r.refreshToken row usedAt)) ∧
        FoundActive D l'.saw data.refreshToken row now ∧ r.session.user.id = row.userId := by
  refine (refreshSessionRepository_spec hl).bind ?_
  rintro _ l₁ h₀₁ ⟨h₁, rfl⟩
  refine (getActiveRefreshSession_spec anticipated_refreshToken h₁ _).bind ?_
  rintro session l₂ h₁₂ ⟨h₂, row, user, now, rfl, hu, hf⟩
  refine (issueRefreshToken_spec h₂).bind ?_
  rintro t l₃ h₂₃ ⟨h₃, ht⟩
  refine (now_spec h₃).bind ?_
  rintro (usedAt : Instant) l₄ h₃₄ ⟨h₄, husedAt, hcreated⟩
  refine (refreshSessionRepository_spec h₄).bind ?_
  rintro _ l₅ h₄₅ ⟨h₅, rfl⟩
  have h₂₅ : l₂.Le l₅ := h₂₃.trans (h₃₄.trans h₄₅)
  have hb : Basis D l₅.saw (.refreshToken data)
      (.setTokenHash (rotation D data.refreshToken t row usedAt)) :=
    .setTokenHash (hf.mono h₂₅) (ht.mono (h₃₄.trans h₄₅)) (h₄₅ _ _ husedAt)
      (hcreated row (hf.mono h₂₃).sawRow)
  refine (replaceTokenHash_spec anticipated_refreshToken h₅ hb).bind ?_
  rintro r l₆ h₅₆ ⟨⟨work, hw⟩, hr⟩
  cases r with
  | none => exact .throw hw trivial
  | some session =>
    obtain ⟨h₆, hs⟩ := hr session rfl
    exact .pure ⟨ht.mono (h₃₄.trans (h₄₅.trans h₅₆)), row, now, usedAt, h₆, hb.mono h₅₆,
      hf.mono (h₂₅.trans h₅₆), hs row (hf.mono h₂₅).sawRow rfl⟩

theorem revokeRefreshToken_spec {data : RefreshTokenDTO} {user : User}
    (hl : l.stage = .inside sid .idle) :
    Block (D := D) (.revokeToken data user.id) sid l
      (revokeRefreshToken D.ext data.refreshToken user) fun _ l' => ∃ id t,
        l'.stage = .inside sid (.pending id t) ∧
        Basis D l'.saw (.revokeToken data user.id) (.setRevokedAt id t) := by
  refine (refreshSessionRepository_spec hl).bind ?_
  rintro _ l₁ h₀₁ ⟨h₁, rfl⟩
  refine (getActiveRefreshSession_spec anticipated_revokeToken h₁ _).bind ?_
  rintro session l₂ h₁₂ ⟨h₂, row, owner, now, rfl, hu, hf⟩
  by_cases ho : (refreshSessionFromModel row owner).user.id ≠ user.id
  · simp only [if_pos ho]
    exact .throw h₂ trivial
  · simp only [if_neg ho]
    refine (refreshSessionRepository_spec h₂).bind ?_
    rintro _ l₃ h₂₃ ⟨h₃, rfl⟩
    refine (now_spec h₃).bind ?_
    rintro (revokedAt : Instant) l₄ h₃₄ ⟨h₄, -, -⟩
    have hf : FoundActive D l₄.saw data.refreshToken row now := hf.mono (h₂₃.trans h₃₄)
    have hb : Basis D l₄.saw (.revokeToken data user.id) (.setRevokedAt row.id revokedAt) :=
      .setRevokedAt hf (hu.symm.trans (not_not.1 ho))
    exact (revoke_spec anticipated_revokeToken h₄ hf.sawRow hb).mono fun _ _ h₄₅ h₅ =>
      ⟨row.id, revokedAt, h₅, hb.mono h₄₅⟩

theorem buildTokenResult_spec (hl : l.stage = .inside sid work) (user : User) (token : String) :
    Block req sid l (buildTokenResult D.settings.jwt user token) fun r l' =>
      l'.stage = .inside sid work ∧ r.refreshToken = token ∧
        SignedFor D l'.saw r.accessToken user.id := by
  refine (Block.bind (P := fun t l' => l'.stage = .inside sid work ∧ SignedFor D l'.saw t user.id)
    ?_ ?_)
  · refine (now_spec hl).bind ?_
    rintro (iat : Instant) l₁ - ⟨h₁, -, -⟩
    refine (Block.ask h₁ .jwtEncode (fun _ => rfl) fun _ he => he.resolve_right fun h => h).mono ?_
    exact fun t l₂ _ h => ⟨h.1, iat, h.2.1⟩
  · exact fun t l₁ _ h => .pure ⟨h.1, rfl, h.2⟩

end FastapiTemplate
