/-
  What a request reads, it reads of the committed store of a moment: the moment
  at which its statement is answered (`saw_during`).
-/
import FastapiTemplate.Proof.Api

namespace FastapiTemplate

open Effects Locking Locking.Db

/-! ## Statements and the work of an execution -/

/-- An execution's work is the write of the one statement that wrote, or a revocation. -/
structure Loc.Recorded (l : Loc) : Prop where
  work : ∀ sid work, l.stage = .inside sid work → ∀ sid' q a w, l.saw (.sql sid' q) a →
    q.outcome a = some w → work = .wrote w
  wrote : ∀ sid w, l.stage = .inside sid (.wrote w) →
    (∃ sid' q a, l.saw (.sql sid' q) a ∧ q.outcome a = some w) ∨ ∃ id t, w = .setRevokedAt id t
  unasked : l.stage = .outside ∨ (∃ sid, l.stage = .opened sid) → ∀ sid q a, ¬l.saw (.sql sid q) a

variable {D : Deployment} {req : Request D.ext} {saw : History} {st : Stage} {l : Loc} {c : Call}
  {r : Except Exc (Ret c)} {s : State} {i : ℕ} {sid : SessionId} {work : Work} {q : Stmt}

/-- The calls that leave stage and statements alone. -/
theorem Loc.Recorded.keep (h : l.Recorded) (hst : l.stage.after c r = l.stage)
    (hc : ∀ sid q, c ≠ .sql sid q) : (l.after c r).Recorded := by
  have hold : ∀ sid q a, (l.after c r).saw (.sql sid q) a → l.saw (.sql sid q) a := by
    intro sid q a ha
    cases r with
    | error e => exact ha
    | ok b =>
      rcases List.mem_cons.1 ha with ha | ha
      · exact absurd (congrArg Sigma.fst ha).symm (hc sid q)
      · exact ha
  have hstage : (l.after c r).stage = l.stage := (l.stage_after c r).trans hst
  constructor
  · exact fun sid work hs sid' q a w ha ho =>
      h.work sid work (hstage.symm.trans hs) sid' q a w (hold _ _ _ ha) ho
  · intro sid w hs
    refine (h.wrote sid w (hstage.symm.trans hs)).imp_left ?_
    rintro ⟨sid', q, a, ha, ho⟩
    exact ⟨sid', q, a, Loc.saw_after ha, ho⟩
  · intro hs sid q a ha
    rw [hstage] at hs
    exact h.unasked hs sid q a (hold _ _ _ ha)

/-- Nothing but the end of the transaction follows, or it has ended. -/
def Stage.Over : Stage → Prop
  | .broken _ | .committed _ _ | .aborted _ => True
  | _ => False

/-- What is over needs no record. -/
theorem Loc.Recorded.of_over {st : Stage} (hst : l.stage = st) (hover : st.Over) : l.Recorded where
  work sid work hs := by
    rw [hst] at hs
    exact (hs ▸ hover : (Stage.inside sid work).Over).elim
  wrote sid w hs := by
    rw [hst] at hs
    exact (hs ▸ hover : (Stage.inside sid (.wrote w)).Over).elim
  unasked hs := by
    rw [hst] at hs
    rcases hs with hs | ⟨sid, hs⟩
    · exact (hs ▸ hover : Stage.outside.Over).elim
    · exact (hs ▸ hover : (Stage.opened sid).Over).elim

theorem Stmt.outcome_ne_setRevokedAt {a : q.Ret} (id : UUID) (t : Instant) :
    q.outcome a ≠ some (.setRevokedAt id t) := by
  intro h
  cases q with
  | updateTokenHash data =>
    simp only [Stmt.outcome] at h
    split at h <;> cases h
  | _ => cases h

/-- A statement that succeeds. -/
theorem Loc.Recorded.sql (h : l.Recorded) (hst : l.stage = .inside sid work) {a : q.Ret}
    (hidle : q.isWrite = true → work = .idle) : (l.after (.sql sid q) (.ok a)).Recorded := by
  have hstage : (l.after (.sql sid q) (.ok a)).stage = .inside sid (work.after q a) := by
    rw [l.stage_after, hst]
    rfl
  have hwork : ∀ w, q.outcome a = some w → work = .idle ∧ work.after q a = .wrote w := by
    intro w ho
    refine ⟨hidle (Stmt.outcome_isWrite ho), ?_⟩
    rw [Work.after, ho]
  constructor
  · intro sid' work' hs sid'' q' a' w ha ho
    obtain ⟨rfl, rfl⟩ : sid = sid' ∧ work.after q a = work' := by
      simpa using hstage.symm.trans hs
    rcases List.mem_cons.1 ha with ha | ha
    · cases ha
      exact (hwork w ho).2
    · have hold := h.work _ _ hst _ _ _ w ha ho
      cases hq : q.outcome a with
      | none => rw [Work.after, hq]; exact hold
      | some w' =>
        rw [(hwork w' hq).1] at hold
        cases hold
  · intro sid' w hs
    obtain ⟨rfl, hw⟩ : sid = sid' ∧ work.after q a = .wrote w := by
      simpa using hstage.symm.trans hs
    cases hq : q.outcome a with
    | none =>
      rw [Work.after, hq] at hw
      subst hw
      refine (h.wrote sid w hst).imp_left ?_
      rintro ⟨sid', q', a', ha, ho⟩
      exact ⟨sid', q', a', Loc.saw_after ha, ho⟩
    | some w' =>
      rw [(hwork w' hq).2] at hw
      cases hw
      exact Or.inl ⟨sid, q, a, Loc.saw_after_ok .., hq⟩
  · rw [hstage]
    rintro (hs | ⟨_, hs⟩) <;> cases hs

/-- **Every call an execution makes keeps the record.** -/
theorem Loc.Recorded.after (h : l.Recorded) (hc : Can D req l.saw l.stage c) :
    (l.after c r).Recorded := by
  have hquiet : c.quiet = true → (l.after c r).Recorded := fun hq =>
    h.keep (Stage.after_quiet _ hq) fun sid q heq => by rw [heq] at hq; cases hq
  have hstage := l.stage_after c r
  generalize hst : l.stage = st at hc hstage
  cases hc with
  | scopeGet | begin | hashPassword | now | tokenUrlsafe | uuid7 | jwtEncode => exact hquiet rfl
  | sessionFactory =>
    cases r with
    | error e => exact h.keep (by rw [hst]; rfl) nofun
    | ok sid =>
      refine ⟨fun _ _ hs => ?_, fun _ _ hs => ?_, fun _ sid' q a ha => ?_⟩
      · rw [hstage] at hs
        cases hs
      · rw [hstage] at hs
        cases hs
      · rcases List.mem_cons.1 ha with ha | ha
        · cases ha
        · exact h.unasked (Or.inl hst) _ _ _ ha
  | @enter sid =>
    cases r with
    | error e => exact h.keep (by rw [hst]; rfl) nofun
    | ok _ =>
      have hnone : ∀ sid' q a, ¬(l.after (.scopeSet (some (Scope.of sid))) (.ok ())).saw
          (.sql sid' q) a := by
        intro sid' q a ha
        rcases List.mem_cons.1 ha with ha | ha
        · cases ha
        · exact h.unasked (Or.inr ⟨sid, hst⟩) _ _ _ ha
      refine ⟨fun _ _ _ _ _ _ _ ha => absurd ha (hnone _ _ _), fun _ _ hs => ?_, fun _ => hnone⟩
      rw [hstage] at hs
      cases hs
  | read hq =>
    cases r with
    | error e => exact .of_over hstage trivial
    | ok a => exact h.sql hst fun hw => by rw [hq] at hw; cases hw
  | write =>
    cases r with
    | error e => exact .of_over hstage trivial
    | ok a => exact h.sql hst fun _ => rfl
  | setRevokedAt =>
    cases r with
    | error e => exact h.keep (by rw [hst]; rfl) nofun
    | ok _ =>
      refine ⟨fun _ _ _ sid' q a w ha ho => ?_, fun _ _ hs => ?_, fun hs => ?_⟩
      · rcases List.mem_cons.1 ha with ha | ha
        · cases ha
        · cases h.work _ _ hst sid' q a w ha ho
      · rw [hstage] at hs
        cases hs
      · rw [hstage] at hs
        exact absurd hs nofun
  | @flush sid work =>
    cases r with
    | error e => exact .of_over hstage trivial
    | ok _ =>
      refine ⟨fun sid' work' hs sid'' q a w ha ho => ?_, fun sid' w hs => ?_, fun hs => ?_⟩
      · rcases List.mem_cons.1 ha with ha | ha
        · cases ha
        · rw [hstage] at hs
          cases hs
          rw [h.work _ _ hst sid'' q a w ha ho]
          rfl
      · rw [hstage] at hs
        obtain ⟨rfl, hw⟩ : sid = sid' ∧ work.flushed = .wrote w := by simpa [Stage.after] using hs
        cases work with
        | idle => cases hw
        | pending id t =>
          cases hw
          exact Or.inr ⟨id, t, rfl⟩
        | wrote w' =>
          cases hw
          refine (h.wrote sid w hst).imp_left ?_
          rintro ⟨sid', q, a, ha, ho⟩
          exact ⟨sid', q, a, Loc.saw_after ha, ho⟩
      · rw [hstage] at hs
        exact absurd hs nofun
  | _ => cases r <;> exact .of_over hstage trivial

/-- An execution is outside its block as long as it made no session. -/
def Loc.Entered (l : Loc) : Prop := l.stage = .outside ↔ ∀ sid, ¬l.saw .sessionFactory sid

theorem Stage.after_eq_outside (hc : c ≠ .sessionFactory) : st.after c r = .outside ↔
    st = .outside := by
  unfold Stage.after
  split
  · exact absurd rfl hc
  all_goals simp

theorem Loc.Entered.after (h : l.Entered) : (l.after c r).Entered := by
  have hstage := l.stage_after c r
  unfold Loc.Entered at h ⊢
  rw [hstage]
  by_cases hc : c = .sessionFactory
  · subst hc
    cases r with
    | error e =>
      have hkeep : ∀ st : Stage, st.after .sessionFactory (.error e) = st :=
        fun st => by cases st <;> rfl
      rw [hkeep]
      exact h
    | ok sid =>
      refine iff_of_false ?_ fun hno => hno sid (Loc.saw_after_ok ..)
      cases l.stage <;> exact nofun
  · rw [Stage.after_eq_outside hc, h]
    refine forall_congr' fun sid => not_congr ⟨Loc.saw_after, fun ha => ?_⟩
    cases r with
    | error e => exact ha
    | ok b => exact (List.mem_cons.1 ha).resolve_left fun heq => hc (congrArg Sigma.fst heq).symm

/-- A revocation was asked for by the call that set it. -/
def Loc.Revokes (l : Loc) : Prop := ∀ id t,
  l.stage.work = .pending id t ∨ l.stage.work = .wrote (.setRevokedAt id t) →
    ∃ sid, l.saw (.setRevokedAt sid id t) ()

theorem Loc.Revokes.after (h : l.Revokes) (hc : Can D req l.saw l.stage c) :
    (l.after c r).Revokes := by
  intro id t hw
  have hold : l.stage.work = .pending id t ∨ l.stage.work = .wrote (.setRevokedAt id t) →
      ∃ sid, (l.after c r).saw (.setRevokedAt sid id t) () := fun hw => by
    obtain ⟨sid, hs⟩ := h id t hw
    exact ⟨sid, Loc.saw_after hs⟩
  rw [l.stage_after] at hw
  generalize l.stage = st at hc hw hold
  have hsql : ∀ {sid work} {q : Stmt} {a : q.Ret}, st = .inside sid work → c = .sql sid q →
      work.after q a = .pending id t ∨ work.after q a = .wrote (.setRevokedAt id t) →
      ∃ sid, (l.after c r).saw (.setRevokedAt sid id t) () := by
    rintro sid work q a rfl - hw
    cases ho : q.outcome a with
    | none => rw [Work.after, ho] at hw; exact hold hw
    | some w =>
      rw [Work.after, ho] at hw
      rcases hw with hw | hw <;> cases hw
      exact absurd ho (Stmt.outcome_ne_setRevokedAt _ _)
  cases hc with
  | scopeGet =>
    rw [Stage.after_quiet _ rfl] at hw
    exact hold hw
  | read | write => cases r with
    | error e => rcases hw with hw | hw <;> cases hw
    | ok a => exact hsql rfl rfl hw
  | @setRevokedAt sid id' t' => cases r with
    | error e => exact hold hw
    | ok a =>
      rcases hw with hw | hw <;> cases hw
      exact ⟨sid, l.saw_after_ok _ _⟩
  | @flush sid work => cases r with
    | error e => rcases hw with hw | hw <;> cases hw
    | ok a =>
      refine hold ?_
      cases work with
      | idle => rcases hw with hw | hw <;> cases hw
      | pending =>
        rcases hw with hw | hw <;> cases hw
        exact Or.inl rfl
      | wrote => exact hw
  | _ => cases r <;> first | exact hold hw | (rcases hw with hw | hw <;> cases hw)

/-! ## What a transaction sees -/

/-- The statements that come before any write. -/
def Stmt.First (q : Stmt) : Prop := q.isWrite = true ∨ ∃ h, q = .selectSessionByHash h true

/-- Statements are made inside a block; a statement that writes, and the lookup of a session, come
    before any write. -/
theorem Can.sql (hc : Can D req saw st (.sql sid q)) :
    ∃ work, st = .inside sid work ∧ (q.First → work.writes = []) := by
  cases hc with
  | @read _ work _ hq _ hs =>
    refine ⟨work, rfl, ?_⟩
    rintro (hw | ⟨h, hh⟩)
    · rw [hq] at hw
      cases hw
    · exact hs h hh
  | write => exact ⟨.idle, rfl, fun _ => rfl⟩

/-- Only the insertion of an account writes accounts. -/
theorem Write.apply_users_eq {w : Write} (hw : ∀ row, w ≠ .insertUser row) (s : Store) :
    (w.apply s).users = s.users := by
  cases w with
  | insertUser row => exact absurd rfl (hw row)
  | insertRefreshSession | setTokenHash | setRevokedAt => rfl

/-- The accounts a transaction sees are the committed ones, unless it inserted one. -/
theorem Inside.users (h : Inside D req saw s i sid work)
    (hw : ∀ row, work ≠ .wrote (.insertUser row)) :
    (s.db.view D.dialect.schema sid).users = s.db.committed.users := by
  rw [Db.view, h.writes]
  cases work with
  | wrote w =>
    refine Write.apply_users_eq (fun row hrow => hw row ?_) _
    rw [hrow]
  | idle | pending => rfl

/-- Only a registration inserts accounts. -/
theorem Basis.registers {row : UserModel} (h : Basis D saw req (.insertUser row)) :
    ∃ data, req = .registerUser data := by
  cases h
  exact ⟨_, rfl⟩

/-- A key selects one row, if any. -/
theorem length_filter_le_one {α β : Type} {f : α → β} {xs : List α} (h : (xs.map f).Nodup)
    {P : α → Bool} {b : β} (hP : ∀ x, P x = true → f x = b) : (xs.filter P).length ≤ 1 := by
  have hnodup : ((xs.filter P).map f).Nodup := h.sublist (List.filter_sublist.map f)
  have hrep : (xs.filter P).map f = List.replicate ((xs.filter P).map f).length b := by
    refine List.eq_replicate_of_mem fun y hy => ?_
    obtain ⟨x, hx, rfl⟩ := List.mem_map.1 hy
    exact hP x (List.mem_filter.1 hx).2
  rw [hrep, List.nodup_replicate, List.length_map] at hnodup
  exact hnodup

/-- An update matches one row, if any. -/
theorem Store.Valid.tokenHashMatches_length {store : Store} (h : store.Valid)
    {row : RefreshSessionModel} {data : ReplaceRefreshSessionTokenDTO}
    (hrow : row ∈ store.refreshSessions) (hid : row.id = data.sessionId)
    (hhash : row.refreshTokenHash = data.expectedRefreshTokenHash) :
    (store.tokenHashMatches data).length = 1 := by
  have hmem : row ∈ store.tokenHashMatches data :=
    List.mem_filter.2 ⟨hrow, decide_eq_true ⟨hid, hhash⟩⟩
  have hone : (store.tokenHashMatches data).length ≤ 1 :=
    length_filter_le_one h.sessionIds fun row hrow => (of_decide_eq_true hrow).1
  exact le_antisymm hone (List.length_pos_of_mem hmem)

/-! ## Moments of a request -/

namespace Delivery

variable {S : Service} {w v : S.World} {p : Proc (ApiRequest S.ext) Call Ret Exc Reply}

theorem api_inv (hS : S.store.Valid) (hw : S.system.Reachable w) :
    Inv S.toDeployment (workflows w) :=
  ((apiSound hS).annotated hw).1

/-- The local state of a request knows its past, records its work, and its user once it is
    inside. -/
structure Tracks (S : Service) (req : ApiRequest S.ext) (past : AppPast) (l : ApiLoc) : Prop where
  recorded : l.loc.Recorded
  entered : l.loc.Entered
  saw : ∀ c a, Heard past c a ↔ l.loc.saw c a
  ready : l.loc.stage = .outside ∨ l.Ready req
  revokes : l.loc.Revokes
  subject : ∀ userId, l.userId = some userId → Subject S req past userId

theorem Tracks.after {req : ApiRequest S.ext} {past : AppPast} {l : ApiLoc} {r : Except Exc (Ret c)}
    (h : Tracks S req past l) (hc : (apiSpec S req).can l c) :
    Tracks S req (⟨c, r⟩ :: past) (l.after S req c r) := by
  refine ⟨?_, ?_, fun c' a => ?_, ?_, ?_, fun userId hu => ?_⟩
  · rw [l.after_loc]
    rcases hc with ⟨rfl, hst, -⟩ | ⟨-, hc⟩
    · exact h.recorded.keep (Stage.after_quiet _ rfl) nofun
    · exact h.recorded.after hc
  · rw [l.after_loc]
    exact h.entered.after
  · rw [l.after_loc]
    cases r with
    | error e =>
      refine Iff.trans ⟨fun ha => ?_, List.mem_cons_of_mem _⟩ (h.saw c' a)
      rcases List.mem_cons.1 ha with ha | ha
      · cases ha
      · exact ha
    | ok b =>
      have heq : (⟨c', .ok a⟩ : Σ c : Call, Except Exc (Ret c)) = ⟨c, .ok b⟩ ↔
          (⟨c', a⟩ : Σ c : Call, Ret c) = ⟨c, b⟩ := by
        constructor <;> intro heq <;> cases heq <;> rfl
      exact List.mem_cons.trans ((or_congr heq (h.saw c' a)).trans List.mem_cons.symm)
  · rcases hc with ⟨rfl, hst, -⟩ | ⟨hready, -⟩
    · rw [l.after_loc, Loc.stage_after, Stage.after_quiet _ rfl]
      exact Or.inl hst
    · have hu := hready.after_userId c r
      exact Or.inr (hready.imp_right fun hs => by rw [hu]; exact hs)
  · rw [l.after_loc]
    rcases hc with ⟨rfl, hst, -⟩ | ⟨-, hc⟩
    · intro id t hw
      rw [Loc.stage_after, Stage.after_quiet _ rfl, hst] at hw
      rcases hw with hw | hw <;> cases hw
    · exact h.revokes.after hc
  · rcases hc with ⟨rfl, -, hnew⟩ | ⟨hready, -⟩
    · cases r with
      | error e => exact (h.subject userId hu).mono (List.suffix_cons _ _)
      | ok t =>
        rcases Option.or_eq_some_iff.1 hu with hu | ⟨-, hu⟩
        · exact (h.subject userId hu).mono (List.suffix_cons _ _)
        · refine ⟨t, firstAnswer_cons fun c a ha => ?_, hu⟩
          have ha := (h.saw c a).1 ha
          rw [Loc.saw, hnew] at ha
          cases ha
    · rw [hready.after_userId] at hu
      exact (h.subject userId hu).mono (List.suffix_cons _ _)

theorem api_annotated (hS : S.store.Valid) (hw : S.system.Reachable w) (hp : w.procs i = some p) :
    ∃ l, S.protocol.At w i p l ∧ Tracks S p.request (w.past i) l := by
  have hstart : ∀ req, Tracks S req [] ⟨none, .outside, [], false⟩ := fun req =>
    ⟨⟨fun _ _ => nofun, fun _ _ => nofun, fun _ _ _ _ => List.not_mem_nil⟩,
      iff_of_true rfl fun _ => List.not_mem_nil,
      fun _ _ => iff_of_false List.not_mem_nil List.not_mem_nil, Or.inl rfl,
      fun _ _ h => h.elim nofun nofun, nofun⟩
  have hsound := (apiSound hS).restrict (F := Tracks S) hstart (by
    rintro req past l c r l' hl hc ⟨rfl, -⟩
    exact hl.after hc)
  obtain ⟨l, hwp, hk, hl⟩ := (hsound.annotated hw).2 i p hp
  exact ⟨l, ⟨hwp, hk⟩, hl⟩

theorem api_told (hw : S.system.Reachable w) (hp : w.procs i = some p) :
    wp (pastSpec (Asks S p.request)) p.prog (fun r h => Concludes S p.request h r) (w.past i) :=
  System.told (fun req _ => execute_tells req) hw hp

/-- Only the request of a registration has its workflow. -/
theorem ApiRequest.core_registers {req : ApiRequest S.ext} {userId : Option ℤ} {data}
    (h : req.core S userId = .registerUser data) : ∃ requestBody, req =
    .createUser requestBody := by
  cases req with
  | createUser requestBody => exact ⟨requestBody, rfl⟩
  | _ => cases h

/-- At a moment of the request `i` the store was committed. -/
def During (w : S.World) (i : ℕ) (store : Store) : Prop :=
  ∃ c r v, S.system.Moment w i c r v ∧ v.shared.db.committed = store

theorem During.valid {store : Store} (hS : S.store.Valid) (h : During w i store) : store.Valid := by
  obtain ⟨c, r, v, hm, rfl⟩ := h
  exact (api_inv hS hm.reachable).state.valid

/-- A request that inserted an account has been told so. -/
theorem Tracks.insertUser {req : ApiRequest S.ext} {past : AppPast} {l : ApiLoc}
    (h : Tracks S req past l) {row : UserModel}
    (hst : l.loc.stage = .inside sid (.wrote (.insertUser row))) :
    ∃ sid values id, Heard past (.sql sid (.insertUser values)) id := by
  rcases h.recorded.wrote sid _ hst with ⟨sid', q, a, ha, ho⟩ | ⟨id, t, heq⟩
  · have hq : ∃ values, q = .insertUser values := by
      cases q with
      | insertUser values => exact ⟨values, rfl⟩
      | updateTokenHash data =>
        simp only [Stmt.outcome] at ho
        split at ho <;> cases ho
      | _ => cases ho
    obtain ⟨values, rfl⟩ := hq
    exact ⟨sid', values, a, (h.saw _ _).2 ha⟩
  · cases heq

/-- A request at the moment of a call that is no reading of the clock. -/
structure Executes (S : Service) (v : S.World) (i : ℕ) (req : ApiRequest S.ext) (c : Call)
    (r : Except Exc (Ret c)) (l : ApiLoc) : Prop where
  tracks : Tracks S req (v.past i) l
  knows : ApiKnows S v i req l
  can : Can S.toDeployment (req.core S l.userId) l.loc.saw l.loc.stage c
  asks : Asks S req (v.past i) c
  answer : ∃ s, Answer S.ext S.dialect Call.mayFail i v.shared c r s
  answered : ∀ a, r = .ok a → Answered S.toDeployment l.loc c a

theorem executes_of_moment (hS : S.store.Valid) {r : Except Exc (Ret c)}
    (hm : S.system.Moment w i c r v) (hp : w.procs i = some p) (hc : c ≠ .now) :
    ∃ l, Executes S v i p.request c r l := by
  obtain ⟨req, k, s, hv, ha, -⟩ := hm.answered
  obtain ⟨p', hp', hreq⟩ := hm.leads.request hv
  rw [hp] at hp'
  obtain rfl := Option.some.inj hp'
  obtain rfl : p.request = req := hreq
  obtain ⟨l, ⟨hwp, hk⟩, hl⟩ := api_annotated hS hm.reachable hv
  obtain ⟨-, hcan⟩ := hwp.1.resolve_left fun h => hc h.1
  obtain ⟨-, ⟨-, hn⟩, -⟩ := ApiKnows.own (p := ⟨p.request, k r⟩) (api_inv hS hm.reachable) hk
    hwp.1 ha.1
  refine ⟨l, hl, hk, hcan, (api_told hm.reachable hv).1, ⟨s, ha.1⟩, fun a hr => ?_⟩
  subst hr
  exact hn.2

/-- The transaction of a statement. -/
theorem Executes.inside {req : ApiRequest S.ext} {r : Except Exc q.Ret} {l : ApiLoc}
    (h : Executes S v i req (.sql sid q) r l) : ∃ work, l.loc.stage = .inside sid work ∧
      (q.First → work.writes = []) ∧
      Inside S.toDeployment (req.core S l.userId) l.loc.saw v.shared i sid work := by
  obtain ⟨work, hst, hnil⟩ := Can.sql h.can
  have hh := h.knows.knows.holds
  rw [hst] at hh
  exact ⟨work, hst, hnil, hh⟩

/-- What a statement answers, it computes from the view of its transaction. -/
theorem Executes.run {req : ApiRequest S.ext} {r : Except Exc q.Ret} {l : ApiLoc}
    (h : Executes S v i req (.sql sid q) r l) {a : q.Ret} (hr : r = .ok a) :
    ∃ userId, ∃ e : Effect q, q.run (v.shared.db.view S.dialect.schema sid) userId = .ok e ∧
      e.ret = a := by
  subst hr
  obtain ⟨s, ha⟩ := h.answer
  rcases ha.inv with ha | ⟨_, hr, -⟩
  · cases ha with
    | sql hrun _ => exact ⟨_, _, hrun, rfl⟩
  · cases hr

/-- And what it violates. -/
theorem Executes.violation {req : ApiRequest S.ext} {r : Except Exc q.Ret} {l : ApiLoc}
    (h : Executes S v i req (.sql sid q) r l) {orig : DriverError}
    (hr : r = .error (.integrityError orig)) : ∃ userId cs c,
      q.run (v.shared.db.view S.dialect.schema sid) userId = .error cs ∧ c ∈ cs ∧
        q.accepts (v.shared.db.view S.dialect.schema sid) userId = true ∧
          orig = S.dialect.violation c := by
  subst hr
  obtain ⟨s, ha⟩ := h.answer
  rcases ha.inv with ha | ⟨_, hr, -⟩
  · cases ha with
    | violation hcs hc hacc _ => exact ⟨_, _, _, hcs, hc, hacc, rfl⟩
  · cases hr

/-- **What a statement reads**: the accounts that are committed, if its request registers none or
    has registered none before, and of the sessions the committed ones, if it precedes every
    write. -/
theorem moment_view (hS : S.store.Valid) {r : Except Exc q.Ret}
    (hm : S.system.Moment w i (.sql sid q) r v) (hp : w.procs i = some p) :
    ∃ view : Store, view.Valid ∧ (q.First → view = v.shared.db.committed) ∧
      ((∀ requestBody, p.request ≠ .createUser requestBody) ∨
        (∃ username email, q = .selectUserByUsernameOrEmail username email) →
        view.users = v.shared.db.committed.users) ∧
      (∀ a, r = .ok a → ∃ userId, ∃ e : Effect q, q.run view userId = .ok e ∧ e.ret = a) ∧
      ∀ orig, r = .error (.integrityError orig) → ∃ userId cs c, q.run view userId = .error cs ∧
        c ∈ cs ∧ q.accepts view userId = true ∧ orig = S.dialect.violation c := by
  obtain ⟨l, he⟩ := executes_of_moment hS hm hp nofun
  obtain ⟨work, hst, hnil, hin⟩ := he.inside
  refine ⟨v.shared.db.view S.dialect.schema sid, hin.valid (api_inv hS hm.reachable).state,
    fun hf => ?_, ?_, fun a hr => he.run hr, fun orig hr => he.violation hr⟩
  · rw [hin.view, hnil hf]
    rfl
  · rintro (hreg | ⟨username, email, rfl⟩)
    · refine hin.users fun row hrow => ?_
      subst hrow
      obtain ⟨data, heq⟩ := (hin.basis _ (List.mem_singleton_self _)).registers
      obtain ⟨requestBody, hc⟩ := ApiRequest.core_registers heq
      exact hreg requestBody hc
    · refine hin.users fun row hrow => ?_
      rw [hrow] at hst
      obtain ⟨sid', values, id, hheard⟩ := he.tracks.insertUser hst
      exact he.asks.duplicates username email rfl sid' values id hheard

/-! ## Answers of statements -/

section
variable (hS : S.store.Valid) (hw : S.system.Reachable w) (hp : w.procs i = some p)
include hS hw hp

theorem saw_view {a : q.Ret} (hs : w.Saw i (.sql sid q) a) : ∃ store view, During w i store ∧
    view.Valid ∧ (q.First → view = store) ∧
    ((∀ requestBody, p.request ≠ .createUser requestBody) ∨
      (∃ username email, q = .selectUserByUsernameOrEmail username email) →
      view.users = store.users) ∧
    ∃ userId, ∃ e : Effect q, q.run view userId = .ok e ∧ e.ret = a := by
  obtain ⟨v, hv⟩ := System.moment_of_mem hw (World.mem_past.2 hs)
  obtain ⟨view, hvalid, hfirst, husers, hok, -⟩ := moment_view hS hv hp
  exact ⟨_, view, ⟨_, _, v, hv, rfl⟩, hvalid, hfirst, husers, hok a rfl⟩

/-- A session that is looked up is committed. -/
theorem session_during {hash : String} {rows : List RefreshSessionModel}
    (hs : w.Saw i (.sql sid (.selectSessionByHash hash true)) rows) : ∃ store, During w i store ∧
    ∀ row, row ∈ rows ↔ row ∈ store.refreshSessions ∧ row.refreshTokenHash = hash := by
  obtain ⟨store, view, hd, -, hfirst, -, userId, e, he, hret⟩ := saw_view hS hw hp hs
  obtain rfl := hfirst (Or.inr ⟨hash, rfl⟩)
  cases he
  subst hret
  exact ⟨view, hd, fun row => by simp [List.mem_filter]⟩

/-- An update counts the committed rows that match. -/
theorem update_during {data : ReplaceRefreshSessionTokenDTO} {rowcount : ℕ}
    (hs : w.Saw i (.sql sid (.updateTokenHash data)) rowcount) :
    ∃ store, During w i store ∧ rowcount = (store.tokenHashMatches data).length := by
  obtain ⟨store, view, hd, -, hfirst, -, userId, e, he, hret⟩ := saw_view hS hw hp hs
  obtain rfl := hfirst (Or.inl rfl)
  refine ⟨view, hd, ?_⟩
  simp only [Stmt.run] at he
  split at he <;> cases he
  exact hret.symm

/-- Whoever is found by username or address is committed. -/
theorem usernameOrEmail_during {username email : String} {rows : List UserModel}
    (hs : w.Saw i (.sql sid (.selectUserByUsernameOrEmail username email)) rows) :
    ∃ store, During w i store ∧
      ∀ u ∈ rows, u ∈ store.users ∧ (u.username = username ∨ u.email = email) := by
  obtain ⟨store, view, hd, -, -, husers, userId, e, he, hret⟩ := saw_view hS hw hp hs
  have husers := husers (Or.inr ⟨username, email, rfl⟩)
  cases he
  subst hret
  refine ⟨store, hd, fun u hu => ?_⟩
  simpa [husers] using List.mem_filter.1 (List.mem_of_mem_take hu)

/-- An insertion fails on a committed account with its username or address. -/
theorem insertUser_during {values : NewUser} {orig : DriverError}
    (hs : ⟨i, .sql sid (.insertUser values), .error (.integrityError orig)⟩ ∈ w.trace) :
    ∃ store, During w i store ∧
      ∃ u ∈ store.users, u.username = values.username ∨ u.email = values.email := by
  obtain ⟨v, hv⟩ := System.moment_of_mem hw (World.mem_past.2 hs)
  obtain ⟨view, -, hfirst, -, -, herror⟩ := moment_view hS hv hp
  obtain rfl := hfirst (Or.inl rfl)
  obtain ⟨userId, cs, c, hcs, hc, hacc, -⟩ := herror orig rfl
  refine ⟨_, ⟨_, _, v, hv, rfl⟩, ?_⟩
  rcases Stmt.run_insertUser_error hcs hacc hc with ⟨-, u, hu, h⟩ | ⟨-, u, hu, h⟩
  · exact ⟨u, hu, Or.inl h⟩
  · exact ⟨u, hu, Or.inr h⟩

/-- The session that is reloaded after an update is the one that was updated. -/
theorem reload_during {sid' sid'' : SessionId} {hash : String} {row row' : RefreshSessionModel}
    {data : ReplaceRefreshSessionTokenDTO} {newer older : AppPast}
    (hpast : w.past i = newer ++
      ⟨.sql sid (.selectSessionByHash data.refreshTokenHash false), .ok [row']⟩ :: older)
    (hupdate : Heard older (.sql sid' (.updateTokenHash data)) (1 : ℕ))
    (hrow : Heard older (.sql sid'' (.selectSessionByHash hash true)) [row])
    (hid : row.id = data.sessionId) : row'.userId = row.userId := by
  obtain ⟨v, hm, rfl⟩ := System.moment hw hpast
  obtain ⟨l, he⟩ := executes_of_moment hS hm hp nofun
  obtain ⟨work, hst, -, hin⟩ := he.inside
  have hsaw := he.tracks.saw
  obtain rfl : work = .wrote (.setTokenHash data) :=
    he.tracks.recorded.work _ _ hst _ _ _ _ ((hsaw _ _).1 hupdate) rfl
  obtain ⟨-, huser, hself⟩ := he.answered _ rfl row' (List.mem_singleton_self row')
  have hid' := hself data (by rw [hst]; rfl) rfl
  exact (huser row ⟨_, _, _, (hsaw _ _).1 hrow, List.mem_singleton_self row⟩
    (hid.trans hid'.symm)).symm

variable (hreg : ∀ requestBody, p.request ≠ .createUser requestBody)
include hreg

theorem activeUser_during {userId : ℤ} {rows : List UserModel}
    (hs : w.Saw i (.sql sid (.selectActiveUser userId)) rows) : ∃ store, During w i store ∧
    ∀ u, u ∈ rows ↔ u ∈ store.users ∧ u.id = userId ∧ u.isActive = true := by
  obtain ⟨store, view, hd, -, -, husers, id, e, he, hret⟩ := saw_view hS hw hp hs
  have husers := husers (Or.inl hreg)
  cases he
  subst hret
  exact ⟨store, hd, fun u => by simp [List.mem_filter, husers]⟩

theorem username_during {username : String} {rows : List UserModel}
    (hs : w.Saw i (.sql sid (.selectUserByUsername username)) rows) : ∃ store, During w i store ∧
    ∀ u, u ∈ rows ↔ u ∈ store.users ∧ u.username = username := by
  obtain ⟨store, view, hd, -, -, husers, id, e, he, hret⟩ := saw_view hS hw hp hs
  have husers := husers (Or.inl hreg)
  cases he
  subst hret
  exact ⟨store, hd, fun u => by simp [List.mem_filter, husers]⟩

theorem users_during {ids : List ℤ} {rows : List UserModel}
    (hs : w.Saw i (.sql sid (.selectUsers ids)) rows) : ∃ store, During w i store ∧
    ∀ u, u ∈ rows ↔ u ∈ store.users ∧ u.id ∈ ids := by
  obtain ⟨store, view, hd, -, -, husers, id, e, he, hret⟩ := saw_view hS hw hp hs
  have husers := husers (Or.inl hreg)
  cases he
  subst hret
  exact ⟨store, hd, fun u => by simp [List.mem_filter, husers]⟩

end

/-- A token that was signed is the one PyJWT encodes. -/
theorem signed_during (hw : S.system.Reachable w) {payload : List (String × Claim)}
    {key algorithm token : String} (hs : w.Saw i (.jwtEncode payload key algorithm) token) :
    S.jwt.encode payload key algorithm = some token := by
  obtain ⟨v, hv⟩ := System.moment_of_mem hw (World.mem_past.2 hs)
  obtain ⟨req, k, s, -, ha, -⟩ := hv.answered
  exact ha.2

end Delivery

end FastapiTemplate
