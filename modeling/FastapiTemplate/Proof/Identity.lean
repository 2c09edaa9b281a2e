/-
  Usernames and addresses on their way from a registration to the store and
  back: when a registered account can log in (`login_after_registration`), and
  which exceptions a registration lets escape (`registration_errors`).

  Both hinge on the same point: normalization is applied once more to what was
  already normalized, as a login name or as the fields of a new command, and
  NFKC can bring back spaces or lengthen the name.
-/
import FastapiTemplate.Delivery.CreateUser
import FastapiTemplate.Proof.Registration

namespace FastapiTemplate

open Effects Locking Locking.Db

variable {D : Deployment} {w : D.World} {i : ℕ} {s t : State}

/-- The answers a task gets when nothing fails for outside reasons. -/
def Deployment.undisturbed (D : Deployment) (i : ℕ) :
    State → (c : Call) → Except Exc (Ret c) → State → Prop :=
  Answer D.ext D.dialect (fun _ => false) i

/-! ## Normalization -/

/-- Normalization Form KC: it is idempotent, and substrings of normalized strings are normalized. -/
structure UnicodeLaws (ext : Externals) : Prop where
  idempotent : ∀ s, ext.nfkc (ext.nfkc s) = ext.nfkc s
  substring : ∀ a s b : String, ext.nfkc (a ++ s ++ b) = a ++ s ++ b → ext.nfkc s = s

/-- A normalized username is normalized again to itself iff stripping leaves it alone. -/
theorem normalizeUsername_fixed {ext : Externals} (h : UnicodeLaws ext) (username : String) :
    normalizeUsername ext (normalizeUsername ext username) = normalizeUsername ext username ↔
      Text.strip (ext.nfkc (Text.strip username)) = ext.nfkc (Text.strip username) := by
  have hnfkc : ext.nfkc (Text.strip (ext.nfkc (Text.strip username))) =
      Text.strip (ext.nfkc (Text.strip username)) := by
    obtain ⟨a, b, hab⟩ := Text.strip_infix (ext.nfkc (Text.strip username))
    refine h.substring a _ b ?_
    rw [← hab]
    exact h.idempotent _
  simp only [normalizeUsername, hnfkc]

/-- The normalized fields are accepted: the name is still short enough, the address still one. -/
def AcceptedAgain (ext : Externals) (body : CreateUserRequestSchema ext) : Prop :=
  (ext.nfkc (Text.strip body.username)).length ≤ USER_NAME_MAX_LENGTH ∧
    (ext.emailStr (normalizeEmail ext body.email)).isSome

instance (ext : Externals) (body : CreateUserRequestSchema ext) :
    Decidable (AcceptedAgain ext body) := inferInstanceAs (Decidable (_ ∧ _))

theorem RegistrationFields.rejected_eq_nil {ext : Externals} {f : RegistrationFields} :
    f.rejected ext = [] ↔ (ext.emailStr f.email).isSome ∧ f.username.length ≤ USER_NAME_MAX_LENGTH ∧
      f.firstName.length ≤ USER_NAME_MAX_LENGTH ∧ f.lastName.length ≤ USER_NAME_MAX_LENGTH ∧
      f.password.length ≤ PASSWORD_MAX_LENGTH := by
  simp only [rejected, List.append_eq_nil_iff, and_assoc]
  refine and_congr ?_ (and_congr ?_ (and_congr ?_ (and_congr ?_ ?_))) <;> split <;> simp [*]

theorem ValidRegistration.validate_isOk {ext : Externals} {f : RegistrationFields} :
    (∃ data, ValidRegistration.validate ext f = .ok data) ↔ f.rejected ext = [] := by
  constructor
  · rintro ⟨data, h⟩
    exact (ValidRegistration.validate_ok.1 h).1
  · intro h
    obtain ⟨he, h⟩ := RegistrationFields.rejected_eq_nil.1 h
    unfold ValidRegistration.validate
    split
    · rename_i hn
      rw [hn] at he
      cases he
    · rw [dif_pos h]
      exact ⟨_, rfl⟩

/-- The other fields stay as they are, so they are accepted again. -/
theorem normalize_isOk {ext : Externals} (body : CreateUserRequestSchema ext) :
    (∃ n, normalizeRegisterUserData ext body = .ok n) ↔ AcceptedAgain ext body := by
  unfold normalizeRegisterUserData
  rw [ValidRegistration.validate_isOk, RegistrationFields.rejected_eq_nil]
  simp only [RegistrationFields.normalized, normalizeUsername, AcceptedAgain]
  constructor
  · rintro ⟨he, hu, -⟩
    exact ⟨hu, he⟩
  · rintro ⟨hu, he⟩
    exact ⟨he, hu, body.firstName_length, body.lastName_length, body.password_length⟩

/-- The normalized command: the username in normal form, the password as it was. -/
theorem normalize_fields {ext : Externals} {data n : RegisterUserDTO ext}
    (h : normalizeRegisterUserData ext data = .ok n) :
    n.username = ext.nfkc (Text.strip data.username) ∧ n.password = data.password := by
  unfold normalizeRegisterUserData at h
  obtain ⟨-, -, hf⟩ := ValidRegistration.validate_ok.1 h
  simp only [RegistrationFields.normalized, normalizeUsername] at hf
  rw [hf]
  exact ⟨rfl, rfl⟩

/-! ## Logging in -/

/-- What the credentials are worth in a store. -/
def credentials (ext : Externals) (S : Store) (username password : String) :
    Except Exc (Option User) :=
  match S.users.find? (·.username = normalizeUsername ext username) with
  | none => .ok none
  | some row =>
    if !row.isActive then .ok none
    else (ext.verifyPassword password row.passwordHash).map fun isValidPassword =>
      if isValidPassword then some (userFromModel row) else none

/-- Task `i` is in a unit of work that sees the store `S`. -/
structure InBlock (D : Deployment) (s : State) (i : ℕ) (sid : SessionId) (S : Store) : Prop where
  scope : s.scopes i = some (Scope.of sid)
  view : s.db.view D.dialect.schema sid = S

/-- `authenticate_user` returns `user`, in every unit of work that sees the store. -/
def LogsIn (D : Deployment) (S : Store) (username password : String) (user : User) : Prop :=
  ∀ s i sid, InBlock D s i sid S →
    (∃ t, Runs (D.undisturbed i) (authenticateUser D.ext username password) s (.ok (some user)) t) ∧
      ∀ out t, Runs (D.undisturbed i) (authenticateUser D.ext username password) s out t →
        out = .ok (some user)

/-- A unique column selects the row that is found first. -/
theorem filter_eq_find? {α β : Type} [DecidableEq β] (f : α → β) (b : β) {xs : List α}
    (h : (xs.map f).Nodup) : (xs.filter fun x => f x = b) = (xs.find? fun x => f x = b).toList := by
  induction xs with
  | nil => rfl
  | cons x xs ih =>
    rw [List.map_cons, List.nodup_cons] at h
    by_cases hx : f x = b
    · have hnone : (xs.filter fun x => f x = b) = [] := by
        refine List.filter_eq_nil_iff.2 fun y hy hyb => h.1 ?_
        rw [hx, ← of_decide_eq_true hyb]
        exact List.mem_map_of_mem hy
      simp [hx, hnone]
    · simp [hx, ih h.2]

/-- The calls of `authenticate_user`, all made in the state it starts in. -/
def loginSpec (D : Deployment) (i : ℕ) (s₀ : State) : Spec Call Ret Exc State where
  can s c := s = s₀ ∧
    (c = .scopeGet ∨ ∃ sid username, c = .sql sid (.selectUserByUsername username))
  next := D.undisturbed i

theorem authenticateUser_spec' {sid : SessionId} {S : Store} (h : InBlock D s i sid S)
    (hS : (S.users.map (·.username)).Nodup) (username password : String) :
    wp (loginSpec D i s) (authenticateUser D.ext username password)
      (fun out _ => out = credentials D.ext S username password) s := by
  refine wp_bind.2 (wp_bind.2 (wp_bind.2 (wp_perform.2 ⟨⟨rfl, Or.inl rfl⟩, fun r s' hr => ?_⟩)))
  have hr : D.undisturbed i s .scopeGet r s' := hr
  rcases hr.inv with hr | ⟨_, -, hf, -⟩
  swap
  · cases hf
  cases hr
  rw [h.scope]
  refine wp_bind.2 (wp_bind.2 (wp_perform.2 ⟨⟨rfl, Or.inr ⟨_, _, rfl⟩⟩, fun r s' hr => ?_⟩))
  have hr : D.undisturbed i s (.sql sid (.selectUserByUsername (normalizeUsername D.ext username)))
    r s' := hr
  rcases hr.inv with hr | ⟨_, -, hf, -⟩
  swap
  · cases hf
  cases hr with
  | violation he => cases he
  | sql he =>
    cases he
    have hrows : (S.users.filter fun u => u.username = normalizeUsername D.ext username) =
        (S.users.find? fun u => u.username = normalizeUsername D.ext username).toList :=
      filter_eq_find? _ _ hS
    simp only [cont, h.view, hrows]
    unfold credentials
    cases S.users.find? fun u => u.username = normalizeUsername D.ext username with
    | none => rfl
    | some row =>
      change wp _ (if (!row.isActive) = true then pure none else do
        let isValidPassword ← Prog.ofExcept (D.ext.verifyPassword password row.passwordHash)
        if (!isValidPassword) = true then pure none else pure (some (userFromModel row))) _ _
      cases hactive : row.isActive with
      | false => simp [hactive]
      | true =>
        simp only [hactive, Bool.not_true, Bool.false_eq_true, if_false]
        refine wp_bind.2 (wp_ofExcept.2 ?_)
        cases D.ext.verifyPassword password row.passwordHash with
        | error e => rfl
        | ok isValidPassword => cases isValidPassword <;> rfl

/-- The calls of `authenticate_user` are always answered: they wait for no lock. -/
theorem loginSpec_answers {s₀ : State} {c : Call} (hc : (loginSpec D i s₀).can s c) :
    ∃ r s', D.undisturbed i s c r s' := by
  obtain ⟨-, rfl | ⟨sid, username, rfl⟩⟩ := hc
  · exact ⟨_, _, {}, rfl⟩
  · have hlocks : ∀ (d : Dialect) (rows : List UserModel),
        d.locks (q := .selectUserByUsername username) ⟨rows, [], []⟩ = [] := by
      intro d rows
      cases d <;> rfl
    have hsome : (perform D.ext D.dialect (fun _ => false) i s
        (.sql sid (.selectUserByUsername username)) {}).isSome := by
      simp [perform, respond, State.sql, Stmt.accepts, Stmt.run, hlocks]
      rfl
    obtain ⟨⟨r, s'⟩, h⟩ := Option.isSome_iff_exists.1 hsome
    exact ⟨r, s', {}, h⟩

/-- Logging in is a matter of the credentials. -/
theorem logsIn_iff {S : Store} (hS : (S.users.map (·.username)).Nodup) {username password : String}
    {user : User} : LogsIn D S username password user ↔
      credentials D.ext S username password = .ok (some user) := by
  have hruns : ∀ {s i sid}, InBlock D s i sid S → ∃ t, Runs (D.undisturbed i)
      (authenticateUser D.ext username password) s (credentials D.ext S username password) t := by
    intro s i sid hin
    have hwp := authenticateUser_spec' hin hS username password
    obtain ⟨out, t, hr⟩ := exists_runs (fun s c hc => loginSpec_answers hc) hwp
    obtain rfl := wp_sound (Q := fun out _ => out = credentials D.ext S username password) hwp hr
    exact ⟨t, hr⟩
  constructor
  · intro h
    let s : State := { State.idle S 0 with scopes := fun _ => some (Scope.of 0) }
    have hin : InBlock D s 0 0 S := ⟨rfl, rfl⟩
    obtain ⟨t, hr⟩ := hruns hin
    exact (h s 0 0 hin).2 _ t hr
  · intro h s i sid hin
    obtain ⟨t, hr⟩ := hruns hin
    rw [h] at hr
    have hwp := authenticateUser_spec' hin hS username password
    exact ⟨⟨t, hr⟩, fun out t hr =>
      (wp_sound (Q := fun out _ => out = credentials D.ext S username password) hwp hr).trans h⟩

/-- What a returned account is: the normalized username, and a hash of the password. -/
theorem registered_user (hD : D.store.Valid) (hw : D.system.Reachable w)
    {data : RegisterUserDTO D.ext} {user : User} (hreq : Requests w i (.registerUser data))
    (hret : Hands w i (.user user)) :
    user.username = D.ext.nfkc (Text.strip data.username) ∧
      ∃ salt, user.passwordHash = D.ext.hashPassword salt data.password := by
  obtain ⟨p, hp, hd⟩ := hret
  obtain ⟨p', hp', hreq⟩ := hreq
  rw [hp] at hp'
  cases hp'
  obtain ⟨sid, v, -, -, hb, ho⟩ := delivered hD hw hp hd
  rw [hreq] at hb
  cases hb with
  | @insertUser _ n p salt id ha =>
    cases ho
    obtain ⟨husername, hpassword⟩ := normalize_fields ha.normalized
    obtain ⟨hu, -⟩ := persistUserData_ok ha.persist
    exact ⟨hu.trans husername, salt, congrArg _ hpassword⟩

/-- The credentials of a stored, active account. -/
theorem credentials_eq_iff {S : Store} (hS : (S.users.map (·.username)).Nodup) {row : UserModel}
    (hrow : row ∈ S.users) (hactive : row.isActive = true) {password : String}
    (hpassword : D.ext.verifyPassword password row.passwordHash = .ok true) (username : String) :
    credentials D.ext S username password = .ok (some (userFromModel row)) ↔
      normalizeUsername D.ext username = row.username := by
  unfold credentials
  constructor
  · intro h
    split at h
    · cases h
    · rename_i found hfound
      have hname : found.username = normalizeUsername D.ext username := by
        simpa using List.find?_some hfound
      split at h
      · cases h
      · revert h
        cases D.ext.verifyPassword password found.passwordHash with
        | error e => exact fun h => by cases h
        | ok isValidPassword =>
          cases isValidPassword with
          | false => exact fun h => by cases h
          | true =>
            intro h
            have huser : userFromModel found = userFromModel row :=
              Option.some.inj (Except.ok.inj h)
            exact hname.symm.trans (congrArg User.username huser)
  · intro h
    obtain ⟨found, hfound⟩ : ∃ found,
        S.users.find? (·.username = normalizeUsername D.ext username) = some found :=
      Option.isSome_iff_exists.1 (List.find?_isSome.2 ⟨row, hrow, decide_eq_true h.symm⟩)
    have hname : found.username = normalizeUsername D.ext username := by
      simpa using List.find?_some hfound
    obtain rfl := List.inj_on_of_nodup_map hS (List.mem_of_find?_eq_some hfound) hrow
      (hname.trans h)
    rw [hfound]
    simp only [hactive, hpassword, Bool.not_true, Bool.false_eq_true, if_false]
    rfl

/-- A registered account that is stored and active logs in under the names that are normalized
    to the stored one. -/
theorem registered_logsIn
    (passwords : ∀ salt p, D.ext.verifyPassword p (D.ext.hashPassword salt p) = .ok true)
    (hD : D.store.Valid) (hw : D.system.Reachable w) {data : RegisterUserDTO D.ext} {user : User}
    (hreq : Requests w i (.registerUser data)) (hret : Hands w i (.user user)) {S : Store}
    (hS : S.Valid) {row : UserModel} (hrow : row ∈ S.users) (huser : userFromModel row = user)
    (hactive : user.isActive = true) :
    user.username = normalizeUsername D.ext data.username ∧ ∀ username,
      LogsIn D S username data.password user ↔ normalizeUsername D.ext username =
      user.username := by
  obtain ⟨hname, salt, hhash⟩ := registered_user hD hw hreq hret
  subst huser
  have hhash : row.passwordHash = D.ext.hashPassword salt data.password := hhash
  refine ⟨hname, fun username => ?_⟩
  rw [logsIn_iff hS.usernames]
  exact credentials_eq_iff hS.usernames hrow hactive (hhash ▸ passwords salt data.password) username

/-- **A registered account logs in under its stored name iff that name has no space at its ends**,
    in every store that still has the active account. -/
theorem login_after_registration (unicode : UnicodeLaws D.ext)
    (passwords : ∀ salt p, D.ext.verifyPassword p (D.ext.hashPassword salt p) = .ok true)
    (hD : D.store.Valid) (hw : D.system.Reachable w) {data : RegisterUserDTO D.ext} {user : User}
    (hreq : Requests w i (.registerUser data)) (hret : Hands w i (.user user)) {S : Store}
    (hS : S.Valid) {row : UserModel} (hrow : row ∈ S.users) (huser : userFromModel row = user)
    (hactive : user.isActive = true) :
    (LogsIn D S data.username data.password user ∧ LogsIn D S user.username data.password user) ↔
      Text.strip (D.ext.nfkc (Text.strip data.username)) =
        D.ext.nfkc (Text.strip data.username) := by
  obtain ⟨hname, hlogin⟩ :=
    registered_logsIn passwords hD hw hreq hret hS hrow huser hactive
  rw [← normalizeUsername_fixed unicode, hlogin, hlogin]
  constructor
  · rintro ⟨-, h⟩
    rw [← hname]
    exact h
  · intro h
    refine ⟨hname.symm, ?_⟩
    rw [hname]
    exact h

/-! ## Escaping exceptions -/

/-- `EmailStr` accepts what it returned, and leaves it as it is. -/
def EmailStable (ext : Externals) : Prop :=
  ∀ raw email, ext.emailStr raw = some email → ext.emailStr email = some email

/-- An accepted request body is a command. -/
theorem EmailStable.validate {ext : Externals} (h : EmailStable ext)
    (body : CreateUserRequestSchema ext) :
    ValidRegistration.validate ext body.toRegistrationFields = .ok body := by
  obtain ⟨raw, hraw⟩ := body.email_valid
  have hemail := h raw _ hraw
  refine ValidRegistration.validate_ok.2 ⟨RegistrationFields.rejected_eq_nil.2 ⟨?_, ?_⟩,
    hemail, rfl⟩
  · rw [hemail]
    rfl
  · exact ⟨body.username_length, body.firstName_length, body.lastName_length, body.password_length⟩

/-- A command that is accepted again can be persisted. -/
theorem EmailStable.persist {ext : Externals} (h : EmailStable ext) (n : RegisterUserDTO ext) :
    ∃ p, persistUserData n = .ok p := by
  obtain ⟨raw, hraw⟩ := n.email_valid
  cases hp : persistUserData n with
  | ok p => exact ⟨p, rfl⟩
  | error e =>
    have hnone := persistUserData_error hp
    rw [h raw _ hraw] at hnone
    cases hnone

/-- The errors that a registration is meant to end with. -/
def Exc.IsRegistrationFailure (e : Exc) : Prop := e = .weakPassword ∨ e = .userAlreadyExists

/-- Every execution of the registration that no call failed for outside reasons returns or raises
    one of its two errors. -/
def RegistersOrFails (D : Deployment) (data : RegisterUserDTO D.ext) : Prop :=
  ∀ w i e, D.system.Reachable w → w.procs i = some ⟨.registerUser data, .raise e⟩ →
    ¬FailedOutside w i → e.IsRegistrationFailure

/-- The endpoint answers: with the account, or with one of its two HTTP errors. -/
def EndpointAnswers (D : Deployment) (body : CreateUserRequestSchema D.ext) : Prop :=
  ∀ out t, Runs (D.undisturbed 0) (CreateUserController.endpoint D.settings body)
      (State.idle D.store D.clock) out t →
    (∃ user, out = .ok user) ∨ ∃ status detail, out = .error (.httpException status detail) ∧
      (status = 400 ∨ status = 409)

theorem registersOrFails_iff (hD : D.store.Valid) (email : EmailStable D.ext)
    (data : RegisterUserDTO D.ext) : RegistersOrFails D data ↔ AcceptedAgain D.ext data := by
  rw [← normalize_isOk]
  constructor
  · intro h
    cases hn : normalizeRegisterUserData D.ext data with
    | ok n => exact ⟨n, rfl⟩
    | error e =>
      -- the execution raises before its first call
      have hprog : D.system.execute (.registerUser data) = .raise e := by
        change (do return Response.user (← RegisterUserUseCase.execute D.settings data)) = _
        unfold RegisterUserUseCase.execute
        rw [hn]
        rfl
      have hw : D.system.Reachable (D.start.setProc 0 ⟨.registerUser data, .raise e⟩) :=
        hprog ▸ (System.ReachableIf.init rfl).step (.spawn rfl trivial) trivial
      have hv := ValidRegistration.validate_error hn
      rcases h _ 0 e hw (World.setProc_self ..)
        (by rintro ⟨c, e', he, -⟩; cases he) with he | he <;>
        · rw [he] at hv
          cases hv
  · rintro ⟨n, hn⟩ w i e hw hp hf
    have he : RegistrationError D data e := (raised hD hw hp).2.resolve_left hf
    cases he with
    | invalid h => rw [hn] at h; cases h
    | weak => exact Or.inl rfl
    | @unstorable n' _ h hstore =>
      obtain ⟨p, hpersist⟩ := email.persist n'
      rw [hpersist] at hstore
      cases hstore
    | «exists» => exact Or.inr rfl

/-- A run of the use case by itself is an execution of the application. -/
theorem run_registersOrFails {data : RegisterUserDTO D.ext} (h : RegistersOrFails D data) {e : Exc}
    {t : State} (hr : Runs (D.undisturbed 0) (RegisterUserUseCase.execute D.settings data)
      (State.idle D.store D.clock) (.error e) t) : e.IsRegistrationFailure := by
  have hr' : Runs (D.undisturbed 0) (D.system.execute (.registerUser data))
      (State.idle D.store D.clock) (.error e) t := hr.bind_error
  have hstart : D.system.Reachable (D.start.setProc 0 ⟨_, D.system.execute (.registerUser data)⟩) :=
    (System.ReachableIf.init rfl).step (.spawn rfl trivial) trivial
  have hanswers : ∀ s c r s', D.undisturbed 0 s c r s' → D.system.answer 0 s c r s' ∧
      ∀ code, r ≠ .error (.external code) :=
    fun s c r s' ha => Answer.undisturbed ha Call.mayFail
  have hnew : ∀ c r, ⟨0, c, r⟩ ∈ (D.start.setProc 0 ⟨Request.registerUser data,
      D.system.execute (.registerUser data)⟩).trace → ∀ code, r ≠ .error (.external code) := by
    rintro c r he
    cases he
  obtain ⟨w, hl, hp, -, hgood⟩ := hr'.leads hanswers (World.setProc_self ..) rfl hnew
  refine h w 0 e (hstart.leads hl) hp ?_
  rintro ⟨c, e', he, hext⟩
  cases e' with
  | external code => exact hgood c _ he code rfl
  | _ => cases hext

/-- What the endpoint makes of the use case. -/
theorem endpointAnswers {body : CreateUserRequestSchema D.ext} (email : EmailStable D.ext)
    (h : RegistersOrFails D body) : EndpointAnswers D body := by
  intro out t hr
  rcases hr.handle_inv with ⟨user, -, rfl⟩ | ⟨e, s', hcreate, hhandle⟩
  · exact Or.inl ⟨user, rfl⟩
  refine Or.inr ?_
  unfold CreateUserController.createUser at hcreate
  rw [email.validate body] at hcreate
  have hfailure : e.IsRegistrationFailure := by
    rcases Runs.bind_inv (p := RegisterUserUseCase.execute D.settings body) hcreate with
      ⟨user, s, -, hret⟩ | ⟨e', hexecute, he⟩
    · cases hret
    · cases he
      exact run_registersOrFails h hexecute
  rcases hfailure with rfl | rfl <;>
    · cases hhandle
      exact ⟨_, _, rfl, by decide⟩

/-- **Nothing but the two errors of a registration escapes iff its normalized fields are still
    acceptable.** -/
theorem registration_errors (hD : D.store.Valid) (email : EmailStable D.ext)
    (body : CreateUserRequestSchema D.ext) :
    (RegistersOrFails D body ∧ EndpointAnswers D body) ↔ AcceptedAgain D.ext body := by
  rw [← registersOrFails_iff hD email]
  exact ⟨And.left, fun h => ⟨h, endpointAnswers email h⟩⟩

/-! ## Passwords that repeat the identity -/

/-- The password is the username or the address, up to case. -/
def RepeatsIdentity (ext : Externals) (password username email : String) : Prop :=
  ext.casefold password = ext.casefold username ∨ ext.casefold password = ext.casefold email

/-- The rules of the policy that look at the password alone. -/
def WeakByItself (ext : Externals) (settings : PasswordServiceSettings)
    (password : String) : Prop :=
  password.length < settings.minLength ∨ settings.maxLength < password.length ∨
    ext.isnumeric password = true

theorem isWeakPassword_iff {ext : Externals} {settings : PasswordServiceSettings}
    {data : RegisterUserDTO ext} : isWeakPassword settings data = true ↔
      WeakByItself ext settings data.password ∨
        RepeatsIdentity ext data.password data.username data.email := by
  unfold isWeakPassword WeakByItself RepeatsIdentity
  simp only [Bool.or_eq_true, decide_eq_true_eq, List.contains_iff_mem, List.mem_cons,
    List.not_mem_nil, or_false, gt_iff_lt]
  constructor
  · rintro (((h | h) | h) | h)
    · exact Or.inl (Or.inl h)
    · exact Or.inl (Or.inr (Or.inl h))
    · exact Or.inl (Or.inr (Or.inr h))
    · exact Or.inr h
  · rintro ((h | h | h) | h)
    · exact Or.inl (Or.inl (Or.inl h))
    · exact Or.inl (Or.inl (Or.inr h))
    · exact Or.inl (Or.inr h)
    · exact Or.inr h

/-- The use case raises the error iff the normalized command is weak: what it does otherwise
    begins with the hash of the password. -/
theorem execute_weak_iff {ext : Externals} {settings : Settings} {data n : RegisterUserDTO ext}
    (hn : normalizeRegisterUserData ext data = .ok n) :
    RegisterUserUseCase.execute settings data = .raise .weakPassword ↔
      isWeakPassword settings.password n = true := by
  unfold RegisterUserUseCase.execute
  rw [hn]
  change (Prog.ofExcept (validatePassword settings.password n) >>= fun _ => _) = _ ↔ _
  by_cases h : isWeakPassword settings.password n = true
  · have hv : validatePassword settings.password n = .error .weakPassword := if_pos h
    rw [hv]
    exact iff_of_true rfl h
  · have hv : validatePassword settings.password n = .ok () := if_neg h
    rw [hv]
    refine iff_of_false ?_ h
    -- a call is no `raise`
    intro heq
    cases heq

/-- The policy reads the normalized identity: a password that repeats the submitted one is
    rejected when it still repeats it afterwards, or is weak by itself. -/
theorem rejects_identity_iff {ext : Externals} {settings : Settings} {data n : RegisterUserDTO ext}
    (hn : normalizeRegisterUserData ext data = .ok n) :
    (RepeatsIdentity ext data.password data.username data.email →
      RegisterUserUseCase.execute settings data = .raise .weakPassword) ↔
    (RepeatsIdentity ext data.password data.username data.email →
      WeakByItself ext settings.password data.password ∨
        RepeatsIdentity ext data.password (normalizeUsername ext data.username) n.email) := by
  obtain ⟨hu, hp⟩ := normalize_fields hn
  have hweak : RegisterUserUseCase.execute settings data = .raise .weakPassword ↔ _ :=
    (execute_weak_iff hn).trans isWeakPassword_iff
  rw [hu, hp] at hweak
  exact imp_congr_right fun _ => hweak

namespace Sample

/-- Decomposition never shortens, and leaves alone what it does not lengthen. -/
theorem decompose_fixed {cs : List Char} (h : (cs.flatMap decompose).length ≤ cs.length) :
    ∀ c ∈ cs, decompose c = [c] := by
  have hone : ∀ c, 1 ≤ (decompose c).length ∧ ((decompose c).length = 1 → decompose c = [c]) := by
    intro c
    unfold decompose
    split
    · simp
    · split <;> simp
  have hle : ∀ cs : List Char, cs.length ≤ (cs.flatMap decompose).length := by
    intro cs
    induction cs with
    | nil => simp
    | cons c cs ih =>
      have := (hone c).1
      simp only [List.flatMap_cons, List.length_append, List.length_cons]
      omega
  induction cs with
  | nil => exact nofun
  | cons c cs ih =>
    have hc := hone c
    have hcs := hle cs
    simp only [List.flatMap_cons, List.length_append, List.length_cons] at h
    rw [List.forall_mem_cons]
    exact ⟨hc.2 (by omega), ih (by omega)⟩

theorem flatMap_of_fixed {cs : List Char} (h : ∀ c ∈ cs, decompose c = [c]) :
    cs.flatMap decompose = cs := by
  induction cs with
  | nil => rfl
  | cons c cs ih =>
    rw [List.forall_mem_cons] at h
    rw [List.flatMap_cons, h.1, ih h.2]
    rfl

theorem unicode : UnicodeLaws externals where
  idempotent s := by
    have h : ∀ cs : List Char, (cs.flatMap decompose).flatMap decompose = cs.flatMap decompose :=
      fun cs => flatMap_of_fixed fun d hd => by
        obtain ⟨c, -, hdc⟩ := List.mem_flatMap.1 hd
        exact decompose_decompose c d hdc
    simp [externals, h]
  substring a s b h := by
    have h := congrArg String.toList h
    simp only [externals, String.toList_ofList, String.toList_append] at h
    have hall := decompose_fixed (by rw [h])
    have hs : s.toList.flatMap decompose = s.toList :=
      flatMap_of_fixed fun c hc => hall c (by simp [hc])
    simp [externals, hs]

theorem passwords (salt p : String) :
    externals.verifyPassword p (externals.hashPassword salt p) = .ok true := by
  simp only [externals]
  split
  · rename_i h
    simp [h.2]
  · have : ("$" ++ p).toList.isSuffixOf ("$argon2id$" ++ salt ++ "$" ++ p).toList = true := by
      rw [List.isSuffixOf_iff_suffix]
      exact ⟨("$argon2id$" ++ salt).toList, by simp⟩
    rw [this, Bool.or_true]

/-- A registration under `username`. -/
def registration (username : String) (h : username.length ≤ USER_NAME_MAX_LENGTH) :
    RegisterUserDTO externals :=
  { bob with username := username, password := Sample.password, username_length := h,
             password_length := by decide }

/-- It runs to its end. -/
def register (data : RegisterUserDTO externals) :
    List (Action (Request (deployment .sqlite).ext) Choice) :=
  serve 0 (.registerUser data) 14 { userId := 2, salt := Sample.salt }

/-- The account it creates. -/
def registered (username : String) : User :=
  ⟨2, username, "bob@example.com", "Bob", "Roe", passwordHash, true, false, false⟩

/-- What is left of a program that returns `resp`. -/
def returned (user : User) : App Response → Bool
  | .ret (.user u) => u = user
  | _ => false

/-- A registration that ran to its end handed out the account, and it is stored. -/
theorem register_spec (data : RegisterUserDTO externals) (user : User)
    (h : ((deployment .sqlite).schedule (register data)).any (fun w =>
      (w.procs 0).any (returned user ·.prog) &&
        w.shared.db.committed.users.any (userFromModel · = user)) = true) :
    ∃ w, (deployment .sqlite).schedule (register data) = some w ∧
      Requests w 0 (.registerUser data) ∧ Hands w 0 (.user user) ∧
      ∃ row ∈ w.shared.db.committed.users, userFromModel row = user := by
  obtain ⟨w, hw, h⟩ := (Option.any_eq_true _ _).1 h
  obtain ⟨hret, hrow⟩ := Bool.and_eq_true_iff.1 h
  obtain ⟨p, hp, hret⟩ := (Option.any_eq_true _ _).1 hret
  obtain ⟨row, hrow, huser⟩ := List.any_eq_true.1 hrow
  refine ⟨w, hw, schedule_requests hw, ⟨p, hp, ?_⟩, row, hrow, of_decide_eq_true huser⟩
  revert hret
  unfold returned
  split
  · rename_i u heq
    intro hu
    rw [heq, of_decide_eq_true hu]
    exact .ret
  · exact fun h => by cases h

/-- A registration whose password is its username. -/
def repeating (username : String) (h : username.length ≤ PASSWORD_MAX_LENGTH) :
    RegisterUserDTO externals :=
  { bob with username := username, password := username, password_length := h,
             username_length := h.trans (by decide) }

/-- The length is counted on the characters. -/
theorem length_nfkc_strip (cs : List Char) :
    (externals.nfkc (Text.strip (String.ofList cs))).length =
    ((Text.stripChars cs).flatMap decompose).length := by
  simp [externals, Text.strip]

theorem emailStable : EmailStable externals := by
  intro raw email h
  simp only [externals] at h ⊢
  split at h
  · cases h
    rw [if_pos ‹_›]
  · cases h

end Sample

theorem login_after_registration_bob :
    ∃ w, (Sample.deployment .sqlite).schedule
        (Sample.register (Sample.registration " bob " (by decide))) = some w ∧
      LogsIn (Sample.deployment .sqlite) w.shared.db.committed " bob " Sample.password
        (Sample.registered "bob") ∧
      LogsIn (Sample.deployment .sqlite) w.shared.db.committed "bob" Sample.password
        (Sample.registered "bob") := by
  obtain ⟨w, hw, hreq, hret, row, hrow, huser⟩ :=
    Sample.register_spec (Sample.registration " bob " (by decide)) (Sample.registered "bob")
      (by decide +kernel)
  have hreach := Deployment.schedule_reachable _ hw
  have hvalid := (inv (Sample.valid .sqlite) hreach).state.valid
  exact ⟨w, hw, (login_after_registration (D := Sample.deployment .sqlite) Sample.unicode
    Sample.passwords (Sample.valid .sqlite) hreach hreq hret hvalid hrow huser rfl).2
      (by decide)⟩

/-- U+00A8 is normalized to a space and U+0308: the account it registers is not found again. -/
theorem registration_without_login : ¬∀ (D : Deployment) (w : D.World) (i : ℕ)
    (data : RegisterUserDTO D.ext) (user : User) (S : Store) (row : UserModel),
    UnicodeLaws D.ext →
    (∀ salt p, D.ext.verifyPassword p (D.ext.hashPassword salt p) = .ok true) →
    D.store.Valid → D.system.Reachable w → Requests w i (.registerUser data) →
    Hands w i (.user user) → S.Valid → row ∈ S.users → userFromModel row = user →
    user.isActive = true →
    LogsIn D S data.username data.password user ∧ LogsIn D S user.username data.password user := by
  intro h
  obtain ⟨w, hw, hreq, hret, row, hrow, huser⟩ :=
    Sample.register_spec (Sample.registration (String.ofList [Char.ofNat 0xA8]) (by decide))
      (Sample.registered (String.ofList [' ', Char.ofNat 0x308])) (by decide)
  have hreach := Deployment.schedule_reachable _ hw
  have hvalid := (inv (Sample.valid .sqlite) hreach).state.valid
  have hlogin := (h (Sample.deployment .sqlite) w 0 _ _ _ row Sample.unicode Sample.passwords
    (Sample.valid .sqlite) hreach hreq hret hvalid hrow huser rfl).2
  rw [(registered_logsIn (D := Sample.deployment .sqlite) Sample.passwords (Sample.valid .sqlite)
    hreach hreq hret hvalid hrow huser rfl).2] at hlogin
  exact absurd hlogin (by decide)

theorem registration_errors_bob : RegistersOrFails (Sample.deployment .sqlite) Sample.bob ∧
    EndpointAnswers (Sample.deployment .sqlite) Sample.bob := by
  have haccepted : AcceptedAgain Sample.externals Sample.bob := by decide
  exact (registration_errors (Sample.valid .sqlite) Sample.emailStable Sample.bob).2 haccepted

/-- Nine characters U+FDFA are accepted, and normalized to 162 characters. -/
theorem registration_escapes : ¬∀ (D : Deployment), D.store.Valid → EmailStable D.ext →
    ∀ body : CreateUserRequestSchema D.ext, RegistersOrFails D body ∧ EndpointAnswers D body := by
  intro h
  let body := Sample.registration (String.ofList (List.replicate 9 (Char.ofNat 0xFDFA))) (by decide)
  have hrejected : ¬AcceptedAgain Sample.externals body := by
    rintro ⟨hlength, -⟩
    have hlength :=
      (Sample.length_nfkc_strip (List.replicate 9 (Char.ofNat 0xFDFA))).symm.trans_le hlength
    exact absurd hlength (by decide +kernel)
  have hbody := (h (Sample.deployment .sqlite) (Sample.valid .sqlite) Sample.emailStable body).1
  exact hrejected ((registersOrFails_iff (Sample.valid .sqlite) Sample.emailStable body).1 hbody)

theorem rejects_identity_newUser :
    RegisterUserUseCase.execute (Sample.deployment .sqlite).settings
      (Sample.repeating "New_User" (by decide)) = .raise .weakPassword := by
  let data := Sample.repeating "New_User" (by decide)
  have haccepted : AcceptedAgain Sample.externals data := by decide
  obtain ⟨n, hn⟩ := (normalize_isOk data).2 haccepted
  refine (rejects_identity_iff hn).2 ?_ (Or.inl rfl)
  intro _
  exact Or.inr (Or.inl (by decide +kernel))

/-- The spaces around the username are not part of the normalized one, but stay in the password. -/
theorem accepts_padded_username : ¬∀ (ext : Externals) (settings : Settings)
    (data n : RegisterUserDTO ext), normalizeRegisterUserData ext data = .ok n →
    RepeatsIdentity ext data.password data.username data.email →
    RegisterUserUseCase.execute settings data = .raise .weakPassword := by
  intro h
  let settings := (Sample.deployment .sqlite).settings
  let data := Sample.repeating " new_user " (by decide)
  have hstrong : (normalizeRegisterUserData Sample.externals data).toOption.any
      (fun n => !isWeakPassword settings.password n) = true := by decide
  obtain ⟨n, hn, hstrong⟩ := (Option.any_eq_true _ _).1 hstrong
  have hn : normalizeRegisterUserData Sample.externals data = .ok n := by
    revert hn
    cases normalizeRegisterUserData Sample.externals data with
    | ok _ => exact fun hn => congrArg Except.ok (Option.some.inj hn)
    | error _ => exact fun hn => absurd hn (by simp [Except.toOption])
  have hweak := h Sample.externals settings data n hn (Or.inl rfl)
  rw [(execute_weak_iff hn).1 hweak] at hstrong
  cases hstrong

end FastapiTemplate
