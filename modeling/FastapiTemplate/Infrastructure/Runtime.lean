/-
  The calls workflows make and how they are answered.

  A workflow calls its context variable, the session factory, a database
  session, the clock, the token generator and the signer.  `perform` answers
  one call of one task on the shared state; a `Choice` resolves what the code
  does not determine (the clock, fresh tokens and identifiers, failures).
-/
import FastapiTemplate.Foundation.Json
import FastapiTemplate.Infrastructure.Tables
import FastapiTemplate.Lib.Program

namespace FastapiTemplate

open Effects Locking

/-- An `AsyncSession` object. -/
abbrev SessionId := ℕ

/-- Repositories are bound to a session. -/
structure SQLAlchemyUserRepository where
  session : SessionId
  deriving DecidableEq

structure SQLAlchemyRefreshSessionRepository where
  session : SessionId
  deriving DecidableEq

/-- `AsyncSessionTransaction`: the transaction a session has begun. -/
structure SessionTransaction where
  session : SessionId
  deriving DecidableEq

/-- `_SQLAlchemyUnitOfWorkScope`. -/
structure Scope where
  session : SessionId
  transaction : SessionTransaction
  userRepository : SQLAlchemyUserRepository
  refreshSessionRepository : SQLAlchemyRefreshSessionRepository
  deriving DecidableEq

/-- The scope `__aenter__` builds for a session. -/
def Scope.of (session : SessionId) : Scope where
  session := session
  transaction := ⟨session⟩
  userRepository := ⟨session⟩
  refreshSessionRepository := ⟨session⟩

@[simp] theorem Scope.of_session (s : SessionId) : (Scope.of s).session = s := rfl
@[simp] theorem Scope.of_transaction (s : SessionId) : (Scope.of s).transaction.session = s := rfl
@[simp] theorem Scope.of_userRepository (s : SessionId) :
    (Scope.of s).userRepository = ⟨s⟩ := rfl
@[simp] theorem Scope.of_refreshSessionRepository (s : SessionId) :
    (Scope.of s).refreshSessionRepository = ⟨s⟩ := rfl

/-- A claim of a token payload before it is encoded. -/
inductive Claim where
  | json (value : Json)
  | datetime (value : Instant)

inductive Call where
  | scopeGet
  | scopeSet (scope : Option Scope)
  /-- `self._session_factory()` -/
  | sessionFactory
  | begin (session : SessionId)
  /-- the flush of pending attribute changes that `transaction.commit()` starts with -/
  | flush (session : SessionId)
  | commit (session : SessionId)
  | rollback (session : SessionId)
  | close (session : SessionId)
  /-- `model.revoked_at = revoked_at` on a loaded `RefreshSessionModel` -/
  | setRevokedAt (session : SessionId) (id : UUID) (revokedAt : Instant)
  | sql (session : SessionId) (stmt : Stmt)
  | now
  | tokenUrlsafe (nbytes : ℕ)
  | uuid7
  | hashPassword (password : String)
  | jwtEncode (payload : List (String × Claim)) (key algorithm : String)

/-- What a call answers when it does not raise. -/
def Ret : Call → Type
  | .scopeGet => Option Scope
  | .sessionFactory => SessionId
  | .sql _ q => q.Ret
  | .now => Instant
  | .uuid7 => UUID
  | .tokenUrlsafe _ | .hashPassword _ | .jwtEncode .. => String
  | .scopeSet _ | .begin _ | .flush _ | .commit _ | .rollback _ | .close _
  | .setRevokedAt .. => Unit

/-- Workflows: programs over these calls. -/
abbrev App (α : Type) := Prog Call Ret Exc α

/-- A call as a workflow. -/
abbrev call (c : Call) : App (Ret c) := Prog.perform c

/-- A call raises for an outside reason: without effect, or after it took effect. -/
inductive Failure where
  | before (code : ℕ)
  | after (code : ℕ)

/-- What a call's answer may depend on beyond the state; a call uses the fields it needs. -/
structure Choice where
  failure : Option Failure := none
  session : SessionId := 0
  /-- the identifier the database generates for an inserted user -/
  userId : ℤ := 0
  /-- which of several violated constraints the database reports -/
  reported : ℕ := 0
  now : Instant := 0
  token : String := ""
  uuid : UUID := 0
  salt : String := ""
  encoded : String := ""

/-- The shared state: the database, the pending attribute changes of each session, the context
    variable of each task, the sessions obtained from the factory (with the task that obtained
    them), the clock, and the tokens generated so far. -/
structure State where
  db : Db Store Write Lock SessionId
  pending : SessionId → List (UUID × Instant)
  scopes : ℕ → Option Scope
  sessions : List (ℕ × SessionId)
  clock : Instant
  minted : List String

/-- The state before anything ran. -/
def State.idle (s : Store) (clock : Instant) : State :=
  ⟨Db.idle s, fun _ => [], fun _ => none, [], clock, []⟩

/-- The end of a session's transaction, however it ends. -/
def State.release (s : State) (sid : SessionId) : State :=
  { s with db := s.db.release sid, pending := Function.update s.pending sid [] }

/-- The writes of a flush. -/
def pendingWrites (changes : List (UUID × Instant)) : List Write :=
  changes.map fun c => .setRevokedAt c.1 c.2

/-- Flush the pending attribute changes: one `UPDATE` by primary key each. -/
def State.flush (d : Dialect) (s : State) (sid : SessionId) : Option (Except Exc Unit × State) :=
  let writes := pendingWrites (s.pending sid)
  let locks := writes.flatMap d.schema.guard
  if ∀ l ∈ locks, s.db.Free sid l then
    if ∀ c ∈ s.pending sid, (s.db.view d.schema sid).refreshSessions.any (·.id = c.1) then
      some (.ok (),
        { s with db := s.db.write sid locks writes, pending := Function.update s.pending sid [] })
    else some (.error .staleData, s)
  else none

/-- The identifier the database generates for an inserted user is fresh among the rows seen. -/
def Stmt.accepts (q : Stmt) (view : Store) (userId : ℤ) : Bool :=
  match q with
  | .insertUser _ => view.users.all (·.id ≠ userId)
  | _ => true

/-- Execute a statement: it waits (`none`) while another transaction holds a lock it needs. -/
def State.sql (d : Dialect) (s : State) (sid : SessionId) (q : Stmt) (userId : ℤ) (reported : ℕ) :
    Option (Except Exc q.Ret × State) :=
  let view := s.db.view d.schema sid
  if q.accepts view userId then
    match q.run view userId with
    | .ok e =>
      if ∀ l ∈ d.locks e, s.db.Free sid l then
        some (.ok e.ret, { s with db := s.db.write sid (d.locks e) e.writes })
      else none
    | .error violated =>
      if ∀ l ∈ d.violationLocks, s.db.Free sid l then
        violated[reported]?.map fun c =>
          (.error (.integrityError (d.violation c)),
            { s with db := s.db.write sid d.violationLocks [] })
      else none
  else none

/-- Answer a call of task `i` that does not fail for outside reasons. -/
def respond (ext : Externals) (d : Dialect) (i : ℕ) (s : State) (c : Call) (ch : Choice) :
    Option (Except Exc (Ret c) × State) :=
  match c with
  | .scopeGet => some (.ok (s.scopes i), s)
  | .scopeSet scope => some (.ok (), { s with scopes := Function.update s.scopes i scope })
  | .sessionFactory =>
    if ∀ e ∈ s.sessions, e.2 ≠ ch.session then
      some (.ok ch.session, { s with sessions := (i, ch.session) :: s.sessions })
    else none
  | .begin _ => some (.ok (), s)
  | .flush sid => s.flush d sid
  | .commit sid => some (.ok (),
      { s with db := s.db.commit d.schema sid, pending := Function.update s.pending sid [] })
  | .rollback sid => some (.ok (), s.release sid)
  | .close sid => some (.ok (), s.release sid)
  | .setRevokedAt sid id t => some (.ok (),
      { s with pending := Function.update s.pending sid (s.pending sid ++ [(id, t)]) })
  | .sql sid q => s.sql d sid q ch.userId ch.reported
  | .now => if s.clock ≤ ch.now then some (.ok ch.now, { s with clock := ch.now }) else none
  | .tokenUrlsafe _ =>
    if ch.token ∉ s.minted then some (.ok ch.token, { s with minted := ch.token :: s.minted })
    else none
  | .uuid7 => some (.ok ch.uuid, s)
  | .hashPassword password => some (.ok (ext.hashPassword ch.salt password), s)
  | .jwtEncode .. => some (.ok ch.encoded, s)

/-- A call that raises without effect; a commit, rollback or close that raises discards the
    transaction. -/
def State.fault (s : State) : Call → State
  | .commit sid | .rollback sid | .close sid => s.release sid
  | _ => s

/-- The calls that may take effect and raise nevertheless: statements. -/
def Call.isStatement : Call → Bool
  | .sql .. | .flush _ => true
  | _ => false

/-- Answer one call of task `i`; `faulty` tells which calls may raise for outside reasons. -/
def perform (ext : Externals) (d : Dialect) (faulty : Call → Bool) (i : ℕ) (s : State) (c : Call)
    (ch : Choice) : Option (Except Exc (Ret c) × State) :=
  match ch.failure with
  | none => respond ext d i s c ch
  | some (.before code) => if faulty c then some (.error (.external code), s.fault c) else none
  | some (.after code) =>
    if faulty c ∧ c.isStatement then
      (respond ext d i s c ch).map fun r => (.error (.external code), r.2)
    else none

/-- The answers to a call of task `i`. -/
def Answer (ext : Externals) (d : Dialect) (faulty : Call → Bool) (i : ℕ) (s : State) (c : Call)
    (r : Except Exc (Ret c)) (s' : State) : Prop :=
  ∃ ch, perform ext d faulty i s c ch = some (r, s')

end FastapiTemplate
