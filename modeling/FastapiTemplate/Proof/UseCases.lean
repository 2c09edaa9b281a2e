/-
  The unit of work and the four use cases follow the protocol
  (`execute_conforms`).
-/
import FastapiTemplate.Proof.Conforms

namespace FastapiTemplate

open Effects

variable {D : Deployment} {req : Request D.ext} {sid : SessionId} {l : Loc} {work : Work}
  {α : Type}

/-! ## The unit of work -/

theorem Loc.Uncommitted.of_stage {st : Stage} (h : l.stage = st)
    (hst : ∀ sid work, st ≠ .committed sid work) : l.Uncommitted := fun sid work => h ▸ hst sid work

/-- A call at a known stage, where it is permitted whatever was seen. -/
theorem wp_step {c : Call} {Q : Except Exc (Ret c) → Loc → Prop} {st : Stage} (hl : l.stage = st)
    (can : ∀ saw, Can D req saw st c)
    (ok : ∀ a l', l.Le l' → (l.failed = true → l'.failed = true) → Answered D l c a →
      l'.stage = st.after c (.ok a) → Q (.ok a) l')
    (error : ∀ e l', c.mayFail = true → Fails D l c e →
      (l.failed = true ∨ e.isExternal = true → l'.failed = true) →
      l'.stage = st.after c (.error e) → Q (.error e) l') :
    wp (protocolSpec D req) (call c) Q l := by
  subst hl
  refine wp_call.2 ⟨can _, fun a ha => ?_, fun e hm he => ?_⟩
  · exact ok a _ (l.le_after c _) (fun h => h) ha (l.stage_after c _)
  · exact error e _ hm he (fun h => by simpa [Loc.after] using h) (l.stage_after c _)

theorem aenter_spec (hl : l.stage = .outside) :
    wp (protocolSpec D req) aenter (fun r l' => match r with
      | .ok _ => l.Le l' ∧ ∃ sid, l'.stage = .inside sid .idle
      | .error _ => l'.Uncommitted ∧ l'.failed = true) l := by
  refine wp_bind.2 (wp_step hl (fun _ => .scopeGet trivial) ?_ fun _ _ hm => by cases hm)
  intro sc l₁ hle₁ _ hsc h₁
  obtain rfl : sc = none := by simpa [Answered, hl, Stage.scope] using hsc
  refine wp_bind.2 (wp_step h₁ (fun _ => .sessionFactory) ?_ ?_)
  swap
  · intro e l₂ _ he hf h₂
    exact ⟨.of_stage h₂ (fun _ _ h => by cases h), hf (Or.inr (he.resolve_right fun h => h))⟩
  intro (sid : SessionId) l₂ hle₂ _ _ h₂
  refine wp_bind.2 (wp_step h₂ (fun _ => .begin) ?_ ?_)
  swap
  · intro e l₃ _ he hf h₃
    exact ⟨.of_stage h₃ (fun _ _ h => by cases h), hf (Or.inr (he.resolve_right fun h => h))⟩
  intro _ l₃ hle₃ _ _ h₃
  refine wp_step h₃ (fun _ => .enter) ?_ fun _ _ hm => by cases hm
  exact fun _ l₄ hle₄ _ _ h₄ => ⟨hle₁.trans (hle₂.trans (hle₃.trans hle₄)), sid, h₄⟩

/-- `_close_scope` once the transaction has ended, or after a failed flush. -/
theorem closeScope_spec {Q : Except Exc Unit → Loc → Prop} {st st' : Stage} (hl : l.stage = st)
    (close : ∀ saw, Can D req saw st (.close sid)) (hst : ∀ r, st.after (.close sid) r = st')
    (leave : ∀ saw, Can D req saw st' (.scopeSet none))
    (hst' : ∀ r, st'.after (.scopeSet none) r = st')
    (h : ∀ l', l.Le l' → (l.failed = true → l'.failed = true) → l'.stage = st' → Q (.ok ()) l') :
    wp (protocolSpec D req) (closeScope (Scope.of sid)) Q l := by
  refine wp_bind.2 (wp_step hl close ?_ fun _ _ hm => by cases hm)
  intro _ l₁ hle₁ hf₁ _ h₁
  refine wp_step (h₁.trans (hst _)) leave ?_ fun _ _ hm => by cases hm
  exact fun _ l₂ hle₂ hf₂ _ h₂ =>
    h l₂ (hle₁.trans hle₂) (fun hf => hf₂ (hf₁ hf)) (h₂.trans (hst' _))

/-- The end of a block that returned: the transaction is committed, or it is aborted and
    `__aexit__` raises. -/
theorem aexit_none_spec (hl : l.stage = .inside sid work) :
    wp (protocolSpec D req) (aexit none) (fun r l' => match r with
      | .ok _ => l.Le l' ∧ l'.stage = .committed sid work.flushed
      | .error e => l'.Uncommitted ∧
          (l'.failed = true ∨ (e = .staleData ∧ work.changes ≠ []))) l := by
  refine wp_bind.2 (wp_step hl (fun _ => .scopeGet trivial) ?_ fun _ _ hm => by cases hm)
  intro sc l₁ hle₁ _ hsc h₁
  obtain rfl : sc = some (Scope.of sid) := by simpa [Answered, hl, Stage.scope] using hsc
  refine wp_bind.2 (wp_handle.2 (wp_bind.2 (wp_step h₁ (fun _ => .flush) ?_ ?_)))
  · intro _ l₂ hle₂ _ _ h₂
    refine wp_step h₂ (fun _ => .commit (by cases work <;> rfl)) ?_ ?_
    · intro _ l₃ hle₃ _ _ h₃
      refine closeScope_spec h₃ (fun _ => .closeCommitted) (fun _ => rfl)
        (fun _ => .leaveCommitted) (fun _ => rfl) fun l₄ hle₄ _ h₄ => ⟨?_, h₄⟩
      exact hle₁.trans (hle₂.trans (hle₃.trans hle₄))
    · intro e l₃ _ he hf h₃
      refine wp_bind.2 (closeScope_spec h₃ (fun _ => .closeAborted) (fun _ => rfl)
        (fun _ => .leaveAborted) (fun _ => rfl) fun l₄ _ hf₄ h₄ => ⟨?_, ?_⟩)
      · exact .of_stage h₄ fun _ _ h => by cases h
      · exact Or.inl (hf₄ (hf (Or.inr (he.resolve_right fun h => h))))
  · intro e l₂ _ he hf h₂
    refine wp_bind.2 (closeScope_spec h₂ (fun _ => .closeBroken) (fun _ => rfl)
      (fun _ => .leaveAborted) (fun _ => rfl) fun l₃ _ hf₃ h₃ => ⟨?_, ?_⟩)
    · exact .of_stage h₃ fun _ _ h => by cases h
    · rcases he with he | he
      · exact Or.inl (hf₃ (hf (Or.inr he)))
      · refine Or.inr ⟨he.1, ?_⟩
        have := he.2
        rw [h₁] at this
        exact this

/-- The end of a block that raised: the transaction is rolled back. -/
theorem aexit_some_spec {e : Exc} (h : Raised req sid e l) :
    wp (protocolSpec D req) (aexit (some e)) (fun r l' => l'.Uncommitted ∧ match r with
      | .ok _ => l'.failed = true ∨ Anticipated D req e
      | .error _ => l'.failed = true) l := by
  obtain ⟨hst, hant⟩ := h
  have hscope : l.stage.scope = some (Scope.of sid) := by
    rcases hst with ⟨work, hst⟩ | hst <;> rw [hst] <;> rfl
  have hlooks : l.stage.Looks := by
    rcases hst with ⟨work, hst⟩ | hst <;> rw [hst] <;> trivial
  refine wp_bind.2 (wp_step rfl (fun _ => .scopeGet hlooks) ?_ fun _ _ hm => by cases hm)
  intro sc l₁ _ hf₁ hsc h₁
  obtain rfl : sc = some (Scope.of sid) := hsc.trans hscope
  have h₁ : l₁.stage = l.stage := by
    rcases hst with ⟨work, hst⟩ | hst <;> rw [h₁, hst] <;> rfl
  have hroll : ∀ saw, Can D req saw l₁.stage (.rollback sid) := by
    rcases hst with ⟨work, hst⟩ | hst <;> rw [h₁, hst]
    · exact fun _ => .rollback
    · exact fun _ => .rollbackBroken
  have hend : ∀ r, l₁.stage.after (.rollback sid) r = .aborted sid := by
    rcases hst with ⟨work, hst⟩ | hst <;> rw [h₁, hst] <;> exact fun _ => rfl
  refine wp_bind.2 (wp_handle.2 (wp_step rfl hroll ?_ ?_))
  · intro _ l₂ _ hf₂ _ h₂
    refine closeScope_spec (h₂.trans (hend _)) (fun _ => .closeAborted) (fun _ => rfl)
      (fun _ => .leaveAborted) (fun _ => rfl) fun l₃ _ hf₃ h₃ => ⟨?_, ?_⟩
    · exact .of_stage h₃ fun _ _ h => by cases h
    · exact hant.imp_left fun hf => hf₃ (hf₂ (hf₁ hf))
  · intro e' l₂ _ he hf h₂
    refine wp_bind.2 (closeScope_spec (h₂.trans (hend _)) (fun _ => .closeAborted) (fun _ => rfl)
      (fun _ => .leaveAborted) (fun _ => rfl) fun l₃ _ hf₃ h₃ => ⟨?_, ?_⟩)
    · exact .of_stage h₃ fun _ _ h => by cases h
    · exact hf₃ (hf (Or.inr (he.resolve_right fun h => h)))

/-- What the body of a block has to establish for the result `resp`. -/
def Done (req : Request D.ext) (sid : SessionId) (resp : Response) (l : Loc) : Prop :=
  ∃ work w, l.stage = .inside sid work ∧ work.flushed = .wrote w ∧
    (work.changes ≠ [] → Anticipated D req .staleData) ∧
    Basis D l.saw req w ∧ Outcome D l.saw w resp

/-- **The block rule**: `async with uow: body`. -/
theorem asyncWith_spec {body : App α} {resp : α → Response} (hl : l.stage = .outside)
    (hbody : ∀ sid l', l.Le l' → l'.stage = .inside sid .idle →
      Block req sid l' body fun a l'' => Done req sid (resp a) l'') :
    wp (protocolSpec D req) (asyncWith body) (fun r l' => Ends D req (r.map resp) l') l := by
  refine wp_seq (aenter_spec hl) ?_ fun e l' h => ⟨h.1, Or.inl h.2⟩
  rintro ⟨⟩ l₁ ⟨hle, sid, h₁⟩
  refine wp_bind.2 (wp_attempt.2 (wp_mono (fun r l₂ hr => ?_) (hbody sid l₁ hle h₁)))
  cases r with
  | ok a =>
    obtain ⟨-, work, w, h₂, hw, hstale, hb, ho⟩ := hr
    refine wp_seq (aexit_none_spec h₂) ?_ ?_
    · rintro ⟨⟩ l₃ ⟨hle₃, h₃⟩
      exact ⟨sid, w, by rw [h₃, hw], hb.mono hle₃, ho.mono fun c a _ => hle₃ c a⟩
    · rintro e l₃ ⟨hu, hf⟩
      refine ⟨hu, hf.imp_right ?_⟩
      rintro ⟨rfl, hne⟩
      exact hstale hne
  | error e =>
    refine wp_seq (aexit_some_spec hr) ?_ ?_
    · exact fun _ l₃ h => h
    · exact fun e' l₃ h => ⟨h.1, Or.inl h.2⟩

/-! ## The use cases -/

/-- Turning the result of a use case into a response. -/
theorem wp_response {p : App α} {f : α → Response}
    (h : wp (protocolSpec D req) p (fun r l' => Ends D req (r.map f) l') l) :
    wp (protocolSpec D req) (do return f (← p)) (Ends D req) l :=
  wp_seq h (fun _ _ h => h) fun _ _ h => h

theorem issueToken_conforms (data : IssueTokenDTO) (context : TokenRequestContextDTO)
    (hl : l.stage = .outside) :
    wp (protocolSpec D (.issueToken data context))
      ((Request.issueToken data context).execute D) (Ends D (.issueToken data context)) l := by
  refine wp_response (asyncWith_spec hl fun sid l₁ _ h₁ => ?_)
  refine (authenticateUser_spec anticipated_issueToken h₁ data).bind ?_
  rintro r l₂ - ⟨h₂, hr⟩
  cases r with
  | none => exact .throw h₂ trivial
  | some user =>
    obtain ⟨u, rfl, hv⟩ := hr user rfl
    refine (createRefreshSession_spec h₂ hv).bind ?_
    rintro r l₃ - ⟨hm, row, h₃, hb, hh, hu⟩
    refine (buildTokenResult_spec h₃ _ _).mono ?_
    rintro token l₄ hle ⟨h₄, ht, hs⟩
    refine ⟨_, _, h₄, rfl, fun _ => trivial, hb.mono hle, .insertRefreshSession ?_ ?_ ?_⟩
    · exact ht ▸ hm.mono hle
    · exact ht ▸ hh
    · exact hu ▸ hs

theorem refreshToken_conforms (data : RefreshTokenDTO) (hl : l.stage = .outside) :
    wp (protocolSpec D (.refreshToken data)) ((Request.refreshToken data).execute D)
      (Ends D (.refreshToken data)) l := by
  refine wp_response (asyncWith_spec hl fun sid l₁ _ h₁ => ?_)
  refine (rotateRefreshToken_spec h₁).bind ?_
  rintro r l₂ - ⟨hm, row, now, usedAt, h₂, hb, hf, hu⟩
  cases ha : r.session.user.isActive with
  | false =>
    simp only [Bool.not_false, if_true]
    exact .throw h₂ trivial
  | true =>
    simp only [Bool.not_true, Bool.false_eq_true, if_false]
    refine (buildTokenResult_spec h₂ _ _).mono ?_
    rintro token l₃ hle ⟨h₃, ht, hs⟩
    refine ⟨_, _, h₃, rfl, fun _ => trivial, hb.mono hle,
      .setTokenHash ?_ ?_ (hf.mono hle).1 rfl ?_⟩
    · exact ht ▸ hm.mono hle
    · exact ht ▸ rfl
    · exact hu ▸ hs

theorem revokeToken_conforms (data : RefreshTokenDTO) (userId : ℤ) (hl : l.stage = .outside) :
    wp (protocolSpec D (.revokeToken data userId)) ((Request.revokeToken data userId).execute D)
      (Ends D (.revokeToken data userId)) l := by
  refine wp_response (f := fun _ => .none) (asyncWith_spec hl fun sid l₁ _ h₁ => ?_)
  refine (userRepository_spec h₁).bind ?_
  rintro _ l₂ - ⟨h₂, rfl⟩
  refine (getActiveById_spec anticipated_revokeToken h₂ userId).bind ?_
  rintro r l₃ - ⟨h₃, hr⟩
  cases r with
  | none => exact .throw h₃ trivial
  | some user =>
    obtain rfl := hr user rfl
    refine (revokeRefreshToken_spec h₃).mono ?_
    rintro - l₄ - ⟨id, t, h₄, hb⟩
    exact ⟨_, _, h₄, rfl, fun _ => trivial, hb, .setRevokedAt⟩

/-! ## Registration -/

/-- Both databases report a duplicate user in a way that `create` recognizes. -/
theorem isDuplicate_violation (d : Dialect) :
    isDuplicateUserIntegrityError (d.violation .usersUsername) = true ∧
      isDuplicateUserIntegrityError (d.violation .usersEmail) = true := by
  cases d <;> decide

/-- How the use case translates what `create` raises. -/
def translated : Exc → Exc
  | .userRepositoryConflict => .userAlreadyExists
  | e => e

section
variable {data n : RegisterUserDTO D.ext} (hn : normalizeRegisterUserData D.ext data = .ok n)
  (hw : isWeakPassword D.settings.password n = false)
include hn hw

theorem Raised.translated {e : Exc} (h : Raised (D := D) (.registerUser data) sid e l) :
    Raised (D := D) (.registerUser data) sid (translated e) l := by
  refine ⟨h.1, h.2.imp_right fun he => ?_⟩
  unfold FastapiTemplate.translated
  split
  · exact .exists hn hw
  · exact he

/-- `create`: a duplicate is reported as a conflict, which the use case translates. -/
theorem createUser_spec (hl : l.stage = .inside sid .idle) {p : PersistUserDTO D.ext}
    (hp : persistUserData n = .ok p) (salt : String) :
    wp (protocolSpec D (.registerUser data))
      (SQLAlchemyUserRepository.create ⟨sid⟩ p (D.ext.hashPassword salt n.password))
      (fun r l' => match r with
        | .ok user => l.Le l' ∧ Done (D := D) (.registerUser data) sid (.user user) l'
        | .error e => Raised (D := D) (.registerUser data) sid (translated e) l') l := by
  have hb : ∀ id w, (Stmt.insertUser (SQLAlchemyUserRepository.newUser p
      (D.ext.hashPassword salt n.password))).outcome id = some w →
      Basis D l.saw (.registerUser data) w := by
    intro id w h
    obtain rfl := Option.some.inj h
    exact .insertUser ⟨hn, hw, hp⟩
  refine wp_bind.2
    (wp_handle.2 (wp_call.2 ⟨hl ▸ .write hb, fun (id : ℤ) _ => ?_, fun e _ he => ?_⟩))
  · refine ⟨l.le_after _ _, .wrote _, _, ?_, rfl, fun h => (h rfl).elim,
      (hb id _ rfl).mono (l.le_after _ _), .insertUser⟩
    rw [Loc.stage_after, hl]
    rfl
  · have hst : (l.after (.sql sid (.insertUser (SQLAlchemyUserRepository.newUser p
        (D.ext.hashPassword salt n.password)))) (.error e)).stage = .broken sid := by
      rw [Loc.stage_after, hl]
      rfl
    have hdup := isDuplicate_violation D.dialect
    rcases he with he | rfl | rfl
    · cases e <;> cases he
      exact ⟨Or.inr hst, Or.inl (by simp [Loc.after, Exc.isExternal])⟩
    · simp only [hdup.1, if_true]
      exact ⟨Or.inr hst, Or.inr (.exists hn hw)⟩
    · simp only [hdup.2, if_true]
      exact ⟨Or.inr hst, Or.inr (.exists hn hw)⟩

end

theorem getByUsernameOrEmail_spec (hl : l.stage = .inside sid .idle) (username email : String) :
    Block req sid l (SQLAlchemyUserRepository.getByUsernameOrEmail ⟨sid⟩ username email)
      fun _ l' => l'.stage = .inside sid .idle :=
  (Block.read hl rfl rfl fun _ _ => rfl).bind fun _ _ _ h => .pure h.1

theorem registerUser_conforms (data : RegisterUserDTO D.ext) (hl : l.stage = .outside) :
    wp (protocolSpec D (.registerUser data)) ((Request.registerUser data).execute D)
      (Ends D (.registerUser data)) l := by
  refine wp_response (wp_bind.2 (wp_ofExcept.2 ?_))
  cases hn : normalizeRegisterUserData D.ext data with
  | error e => exact ⟨.of_stage hl nofun, Or.inr (.invalid hn)⟩
  | ok n =>
    refine wp_bind.2 (wp_ofExcept.2 ?_)
    unfold validatePassword
    cases hw : isWeakPassword D.settings.password n with
    | true => exact ⟨.of_stage hl nofun, Or.inr (.weak hn hw)⟩
    | false =>
      refine wp_bind.2 (wp_step hl (fun _ => .hashPassword) ?_ ?_)
      swap
      · intro e l₁ _ he hf h₁
        exact ⟨.of_stage h₁ nofun, Or.inl (hf (Or.inr (he.resolve_right fun h => h)))⟩
      rintro passwordHash l₁ - - ⟨salt, rfl⟩ h₁
      refine asyncWith_spec h₁ fun sid l₂ _ h₂ => ?_
      refine (userRepository_spec h₂).bind ?_
      rintro _ l₃ - ⟨h₃, rfl⟩
      refine (getByUsernameOrEmail_spec h₃ _ _).bind ?_
      intro existing l₄ _ h₄
      cases existing with
      | some user => exact .throw h₄ (.exists hn hw)
      | none =>
        refine wp_handle.2 (wp_mono (Q := fun r l' => match r with
          | .ok user => l₄.Le l' ∧ Done (D := D) (.registerUser data) sid (.user user) l'
          | .error e => Raised (D := D) (.registerUser data) sid (translated e) l') ?_ ?_)
        · intro r l' hr
          cases r with
          | ok user => exact hr
          | error e => cases e <;> exact hr
        refine wp_seq (userRepository_spec h₄) ?_ fun e l₅ h => h.translated hn hw
        rintro _ l₅ ⟨hle, h₅, rfl⟩
        cases hp : persistUserData n with
        | error e =>
          exact (Raised.translated hn hw ⟨Or.inl ⟨_, h₅⟩, Or.inr (.unstorable hn hp)⟩)
        | ok p =>
          refine wp_mono (fun r l' hr => ?_) (createUser_spec hn hw h₅ hp salt)
          cases r with
          | ok user => exact ⟨hle.trans hr.1, hr.2⟩
          | error e => exact hr

/-- **Every use case follows the protocol.** -/
theorem execute_conforms (req : Request D.ext) (hl : l.stage = .outside) :
    wp (protocolSpec D req) (req.execute D) (Ends D req) l := by
  cases req with
  | issueToken data context => exact issueToken_conforms data context hl
  | refreshToken data => exact refreshToken_conforms data hl
  | revokeToken data userId => exact revokeToken_conforms data userId hl
  | registerUser data => exact registerUser_conforms data hl

end FastapiTemplate
