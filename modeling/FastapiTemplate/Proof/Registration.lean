/-
  Concurrent registrations (`registrations`): usernames and addresses stay
  distinct, of two registrations that coincide one commits at most, and the
  loser ends with `UserAlreadyExistsError`, whether its lookup or its `INSERT`
  found the duplicate.
-/
import FastapiTemplate.Proof.Executions

namespace FastapiTemplate

open Effects Locking Locking.Db

variable {D : Deployment} {w w' : D.World} {lab : Label (Request D.ext) Call} {i j : ℕ}

theorem persistUserData_ok {ext : Externals} {n : RegisterUserDTO ext} {p : PersistUserDTO ext}
    (h : persistUserData n = .ok p) : p.username = n.username ∧
    ext.emailStr n.email = some p.email ∧
      p.isActive = true ∧ p.isStaff = false ∧ p.isSuperuser = false := by
  unfold persistUserData at h
  split at h
  · cases h
  · rename_i he
    cases h
    exact ⟨rfl, he, rfl, rfl, rfl⟩

theorem persistUserData_error {ext : Externals} {n : RegisterUserDTO ext} {e : Exc}
    (h : persistUserData n = .error e) : ext.emailStr n.email = none := by
  unfold persistUserData at h
  split at h
  · assumption
  · cases h

/-- What is persisted is determined by the request. -/
theorem Admitted.unique {data n n' : RegisterUserDTO D.ext} {p p' : PersistUserDTO D.ext}
    (h : Admitted D data n p) (h' : Admitted D data n' p') : n = n' ∧ p = p' := by
  obtain rfl := Except.ok.inj (h.normalized.symm.trans h'.normalized)
  exact ⟨rfl, Except.ok.inj (h.persist.symm.trans h'.persist)⟩

/-- A call of execution `i` failed for outside reasons. -/
def FailedOutside (w : D.World) (i : ℕ) : Prop :=
  ∃ c e, ⟨i, c, .error e⟩ ∈ w.trace ∧ e.isExternal = true

/-- The new row of an account: active, without privileges, under the normalized names. -/
structure NewAccount (D : Deployment) (data : RegisterUserDTO D.ext) (row : UserModel) : Prop where
  active : row.isActive = true
  notStaff : row.isStaff = false
  notSuperuser : row.isSuperuser = false
  names : ∃ n, normalizeRegisterUserData D.ext data = .ok n ∧ row.username = n.username ∧
    D.ext.emailStr n.email = some row.email

/-- The account `u` is the account `u'` at another time. -/
def SameKeys (u u' : UserModel) : Prop :=
  u'.id = u.id ∧ u'.username = u.username ∧ u'.email = u.email

section
variable (hD : D.store.Valid) (hw : D.system.Reachable w)
include hD hw

/-- What a registration commits. -/
theorem Committed.registered {data : RegisterUserDTO D.ext} {v : Write} (hc : Committed w i v)
    (hreq : Requests w i (.registerUser data)) :
    ∃ row n p, v = .insertUser row ∧ Admitted D data n p ∧ row.username = p.username ∧
      row.email = p.email ∧ NewAccount D data row := by
  obtain ⟨⟨req, prog⟩, resp, hp, -, hb, -⟩ := hc.execution hD hw
  obtain ⟨q, hq, hqr⟩ := hreq
  rw [hp] at hq
  cases hq
  obtain rfl : req = .registerUser data := hqr
  have hb : Basis D (w.Saw i) (.registerUser data) v := hb
  cases hb with
  | @insertUser _ n p salt id ha =>
    obtain ⟨hu, he, h₁, h₂, h₃⟩ := persistUserData_ok ha.persist
    exact ⟨_, n, p, rfl, ha, rfl, rfl, h₁, h₂, h₃, n, ha.normalized, hu, he⟩

omit hD hw in
theorem Write.apply_users (v : Write) (s : Store) {u : UserModel} (hu : u ∈ s.users) :
    u ∈ (v.apply s).users := by
  cases v with
  | insertUser => exact List.mem_append_left _ hu
  | _ => exact hu

/-- Accounts keep their keys. -/
theorem users_step (hs : D.system.Step w lab w') {u : UserModel}
    (hu : u ∈ w.shared.db.committed.users) :
    ∃ u' ∈ w'.shared.db.committed.users, SameKeys u u' := by
  rcases store_step hD hw hs with ⟨hcom, -⟩ | ⟨i, sid, ws, -, hc⟩ | ⟨-, f, hf, hadm⟩
  · exact ⟨u, hcom ▸ hu, rfl, rfl, rfl⟩
  · rw [hc.committed]
    rcases hc.short with rfl | ⟨v, rfl⟩
    · exact ⟨u, hu, rfl, rfl, rfl⟩
    · exact ⟨u, v.apply_users _ hu, rfl, rfl, rfl⟩
  · rw [hadm]
    exact ⟨f u, List.mem_map_of_mem hu, hf u⟩

/-- A committed account stays, under its names, and no two executions committed the same name. -/
theorem inserted_users :
    (∀ i row, Committed w i (.insertUser row) →
      ∃ u ∈ w.shared.db.committed.users, SameKeys row u) ∧
    ∀ i j row row', Committed w i (.insertUser row) → Committed w j (.insertUser row') →
      row.username = row'.username ∨ row.email = row'.email → i = j := by
  refine System.ReachableIf.induct (I := fun w : D.World => (∀ i row,
      Committed w i (.insertUser row) → ∃ u ∈ w.shared.db.committed.users, SameKeys row u) ∧
    ∀ i j row row', Committed w i (.insertUser row) → Committed w j (.insertUser row') →
      row.username = row'.username ∨ row.email = row'.email → i = j) ?_ ?_ hw
  · rintro s rfl
    have hnone : ∀ i v, ¬Committed (D :=
      D) ⟨State.idle D.store D.clock, fun _ => none, []⟩ i v := by
      rintro i v ⟨sid, -, hlog⟩
      cases hlog
    exact ⟨fun i row hc => absurd hc (hnone i _), fun i j row row' hc _ _ => absurd hc (hnone i _)⟩
  · rintro w lab w' hw hs - ⟨hstays, hone⟩
    -- a row inserted now has names no committed account has
    have hfresh : ∀ i j sid row row', Commits D w w' i sid [.insertUser row] →
        Committed w j (.insertUser row') →
        ¬(row.username = row'.username ∨ row.email = row'.email) := by
      intro i j sid row row' hc hj hsame
      obtain ⟨u, hu, -, hun, hem⟩ := hstays j row' hj
      obtain ⟨-, h₁, h₂⟩ := hc.fits _ (List.mem_singleton_self _) u hu
      rcases hsame with h | h
      · exact h₁ (hun.trans h.symm)
      · exact h₂ (hem.trans h.symm)
    refine ⟨fun i row hc => ?_, fun i j row row' hi hj hsame => ?_⟩
    · rcases Committed.step hD hw hs hc with hc | ⟨sid, hk⟩
      · obtain ⟨u, hu, hkeys⟩ := hstays i row hc
        obtain ⟨u', hu', hkeys'⟩ := users_step hD hw hs hu
        exact ⟨u', hu', hkeys'.1.trans hkeys.1, hkeys'.2.1.trans hkeys.2.1,
          hkeys'.2.2.trans hkeys.2.2⟩
      · rw [hk.committed]
        exact ⟨row, List.mem_append_right _ (List.mem_singleton_self row), rfl, rfl, rfl⟩
    · rcases Committed.step hD hw hs hi with hi | ⟨sid, hki⟩ <;>
        rcases Committed.step hD hw hs hj with hj | ⟨sid', hkj⟩
      · exact hone i j row row' hi hj hsame
      · exact absurd (hsame.imp Eq.symm Eq.symm) (hfresh j i sid' row' row hkj hi)
      · exact absurd hsame (hfresh i j sid row row' hki hj)
      · have hlog := hki.log.symm.trans hkj.log
        obtain rfl : sid = sid' := by
          have := List.append_cancel_left hlog
          exact (Prod.mk.inj (List.singleton_inj.1 this)).1
        exact (inv hD hw).state.owner i j sid hki.owned hkj.owned

/-- **A duplicate makes a registration fail**: it commits nothing, and unless a call failed for
    outside reasons it ends with `UserAlreadyExistsError`. -/
theorem duplicate_loses {data n : RegisterUserDTO D.ext} {p : PersistUserDTO D.ext}
    {prog : App Response} (hp : w.procs i = some ⟨.registerUser data, prog⟩)
    (ha : Admitted D data n p) {u : UserModel} (hu : u ∈ w.shared.db.committed.users)
    (hdup : u.username = p.username ∨ u.email = p.email)
    (hother : ∀ row, Committed w i (.insertUser row) → u.id ≠ row.id) :
    (∀ v, ¬Committed w i v) ∧ (∀ resp, prog ≠ .ret resp) ∧
      ∀ e, prog = .raise e → FailedOutside w i ∨ e = .userAlreadyExists := by
  have hnone : ∀ v, ¬Committed w i v := by
    intro v hc
    obtain ⟨row, n', p', rfl, ha', husername, hemail, -⟩ :=
      hc.registered hD hw ⟨_, hp, rfl⟩
    obtain ⟨rfl, rfl⟩ := ha.unique ha'
    obtain ⟨u', hu', hid, hun, hem⟩ := (inserted_users hD hw).1 i row hc
    have hvalid := (inv hD hw).state.valid
    refine hother row hc (hid ▸ congrArg UserModel.id ?_)
    rcases hdup with h | h
    · exact List.inj_on_of_nodup_map hvalid.usernames hu hu' (h.trans (hun.trans husername).symm)
    · exact List.inj_on_of_nodup_map hvalid.emails hu hu' (h.trans (hem.trans hemail).symm)
  refine ⟨hnone, ?_, ?_⟩
  · rintro resp rfl
    obtain ⟨sid, v, hi, hlog, -⟩ := delivered hD hw hp .ret
    exact hnone v ⟨sid, hi, hlog⟩
  · rintro e rfl
    refine (raised hD hw hp).2.imp_right fun he => ?_
    have he : RegistrationError D data e := he
    cases he with
    | invalid h => rw [ha.normalized] at h; cases h
    | weak h hweak =>
      rw [ha.normalized] at h
      cases h
      rw [ha.strong] at hweak
      cases hweak
    | unstorable h hstore =>
      rw [ha.normalized] at h
      cases h
      rw [ha.persist] at hstore
      cases hstore
    | «exists» => rfl

/-- Of two registrations that coincide in a normalized name, one commits at most. -/
theorem coinciding_once {data data' n n' : RegisterUserDTO D.ext} {v v' : Write}
    (hi : Requests w i (.registerUser data)) (hj : Requests w j (.registerUser data'))
    (hn : normalizeRegisterUserData D.ext data = .ok n)
    (hn' : normalizeRegisterUserData D.ext data' = .ok n')
    (hsame : n.username = n'.username ∨ n.email = n'.email)
    (hv : Committed w i v) (hv' : Committed w j v') : i = j := by
  obtain ⟨row, m, p, rfl, -, -, -, h⟩ := hv.registered hD hw hi
  obtain ⟨row', m', p', rfl, -, -, -, h'⟩ := hv'.registered hD hw hj
  obtain ⟨k, hk, husername, hemail⟩ := h.names
  obtain ⟨k', hk', husername', hemail'⟩ := h'.names
  obtain rfl := Except.ok.inj (hn.symm.trans hk)
  obtain rfl := Except.ok.inj (hn'.symm.trans hk')
  refine (inserted_users hD hw).2 i j row row' hv hv' (hsame.imp (fun h => ?_) fun h => ?_)
  · rw [husername, husername', h]
  · rw [h, hemail'] at hemail
    exact (Option.some.inj hemail).symm

/-- **A registration adds one row** and touches nothing else. -/
theorem registration_step (hs : D.system.Step w lab w') :
    w'.shared.db.committed = w.shared.db.committed ∨ lab = .environment ∨
      ∃ i sid v, lab = .call i (.commit sid) ∧ Committed w' i v ∧
        ∀ data, Requests w i (.registerUser data) → ∃ row, NewAccount D data row ∧
          w'.shared.db.committed = { w.shared.db.committed with
            users := w.shared.db.committed.users ++ [row] } := by
  rcases store_step hD hw hs with ⟨hcom, -⟩ | ⟨i, sid, ws, hlab, hc⟩ | ⟨hlab, -⟩
  · exact Or.inl hcom
  · have hcom := hc.committed
    rcases hc.short with rfl | ⟨v, rfl⟩
    · exact Or.inl hcom
    have hdone : Committed w' i v := (hc.committed_iff hD hw hs).2 (Or.inr ⟨rfl, rfl⟩)
    refine Or.inr (Or.inr ⟨i, sid, v, hlab, hdone, fun data hreq => ?_⟩)
    obtain ⟨row, n, p, rfl, -, -, -, hnew⟩ :=
      hdone.registered hD (hw.step hs trivial) ((grows_step hs).requests i _ hreq)
    exact ⟨row, hnew, hcom⟩
  · exact Or.inr (Or.inl hlab)

end

/-- **Concurrent registrations.** -/
theorem registrations (hD : D.store.Valid) (hw : D.system.Reachable w) :
    -- (1) usernames are distinct, and so are addresses
    (w.shared.db.committed.users.map (·.username)).Nodup ∧
    (w.shared.db.committed.users.map (·.email)).Nodup ∧
    -- (2) two executions that coincide never both commit
    (∀ i j data data' n n' v v', Requests w i (.registerUser data) →
      Requests w j (.registerUser data') → normalizeRegisterUserData D.ext data = .ok n →
      normalizeRegisterUserData D.ext data' = .ok n' →
      n.username = n'.username ∨ n.email = n'.email →
      Committed w i v → Committed w j v' → i = j) ∧
    -- (3) who meets a duplicate of another commits nothing, and ends with the error
    (∀ i data n p prog u, w.procs i = some ⟨.registerUser data, prog⟩ → Admitted D data n p →
      u ∈ w.shared.db.committed.users → u.username = p.username ∨ u.email = p.email →
      (∀ row, Committed w i (.insertUser row) → u.id ≠ row.id) →
      (∀ v, ¬Committed w i v) ∧ (∀ resp, prog ≠ .ret resp) ∧
        ∀ e, prog = .raise e → FailedOutside w i ∨ e = .userAlreadyExists) ∧
    -- (4) only commits and administration change the store, and who commits a registration
    -- appends one account without privileges
    (∀ lab w', D.system.Step w lab w' →
      w'.shared.db.committed = w.shared.db.committed ∨ lab = .environment ∨
        ∃ i sid v, lab = .call i (.commit sid) ∧ Committed w' i v ∧
          ∀ data, Requests w i (.registerUser data) → ∃ row, NewAccount D data row ∧
            w'.shared.db.committed = { w.shared.db.committed with
              users := w.shared.db.committed.users ++ [row] }) := by
  have hvalid := (inv hD hw).state.valid
  exact ⟨hvalid.usernames, hvalid.emails,
    fun i j data data' n n' v v' hi hj hn hn' hsame hv hv' =>
      coinciding_once hD hw hi hj hn hn' hsame hv hv',
    fun i data n p prog u hp ha hu hdup hother => duplicate_loses hD hw hp ha hu hdup hother,
    fun lab w' hs => registration_step hD hw hs⟩

namespace Sample

/-- Bob's registration, with spaces around the username. -/
def bob : RegisterUserDTO externals where
  email := "bob@example.com"
  username := " bob "
  firstName := "Bob"
  lastName := "Roe"
  password := "a long enough password"
  email_valid := ⟨"bob@example.com", by decide⟩
  username_length := by decide
  firstName_length := by decide
  lastName_length := by decide
  password_length := by decide

/-- The normalized command. -/
def bobNormalized : RegisterUserDTO externals :=
  { bob with username := "bob", username_length := by decide }

/-- What is persisted of it. -/
def bobPersisted : PersistUserDTO externals where
  email := "bob@example.com"
  username := "bob"
  firstName := "Bob"
  lastName := "Roe"
  email_valid := ⟨"bob@example.com", by decide⟩
  username_length := by decide
  firstName_length := by decide
  lastName_length := by decide

/-- Two registrations of Bob look for a duplicate before either inserts. -/
def twoBobs : List (Action (Request (deployment .postgresql).ext) Choice) :=
  serve 0 (.registerUser bob) 7 { session := 0, salt := "first" } ++
  serve 1 (.registerUser bob) 7 { session := 1, salt := "second" } ++
  List.replicate 7 (.answer 0 { userId := 2 }) ++
  List.replicate 6 (.answer 1 { userId := 3 })

theorem bob_admitted : Admitted (deployment .postgresql) bob bobNormalized bobPersisted :=
  ⟨rfl, by decide, rfl⟩

end Sample

/-- Whether the program ended with `UserAlreadyExistsError`. -/
def lost : App Response → Bool
  | .raise .userAlreadyExists => true
  | _ => false

theorem registrations_two_bobs :
    ∃ w, (Sample.deployment .postgresql).schedule Sample.twoBobs = some w ∧
      w.shared.db.log.length = 1 ∧ (w.procs 1).any (lost ·.prog) = true ∧
      ∀ prog u, w.procs 1 = some ⟨.registerUser Sample.bob, prog⟩ →
        u ∈ w.shared.db.committed.users → u.username = "bob" →
        (∀ row, Committed w 1 (.insertUser row) → u.id ≠ row.id) → ∀ v, ¬Committed w 1 v := by
  have hrun : ((Sample.deployment .postgresql).schedule Sample.twoBobs).any (fun w =>
      w.shared.db.log.length == 1 && (w.procs 1).any (lost ·.prog)) = true := by decide
  obtain ⟨w, hw, hrun⟩ := (Option.any_eq_true _ _).1 hrun
  obtain ⟨hlen, hlost⟩ := Bool.and_eq_true_iff.1 hrun
  obtain ⟨-, -, -, h, -⟩ :=
    registrations (Sample.valid .postgresql) (Deployment.schedule_reachable _ hw)
  exact ⟨w, hw, by simpa using hlen, hlost, fun prog u hp hu hun hother =>
    (h 1 _ _ _ prog u hp Sample.bob_admitted hu (Or.inl hun) hother).1⟩

end FastapiTemplate
