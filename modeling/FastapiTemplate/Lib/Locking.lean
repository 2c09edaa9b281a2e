/-
  A transactional store under two-phase locking.

  A transaction reads the committed store overlaid with its own uncommitted
  writes, takes locks as it goes, and keeps them until it commits or rolls
  back.  Every write is guarded by locks.  The central fact (`stable_commit`): a
  property of the store that a transaction's locks protect is preserved by the
  commits of the other transactions.
-/
import Mathlib.Data.List.Basic
import Mathlib.Logic.Function.Basic

namespace Locking

/-- How writes change the store, and the locks that guard a write. -/
structure Schema (σ W L : Type) where
  apply : W → σ → σ
  guard : W → List L

/-- A store with running transactions: the committed store, the log of commits (oldest first), the
    uncommitted writes of each transaction (oldest first), and the locks held. -/
structure Db (σ W L T : Type) where
  committed : σ
  log : List (T × List W)
  writes : T → List W
  locks : List (T × L)

variable {σ W L T : Type} [DecidableEq T] (S : Schema σ W L)

/-- Apply writes in order. -/
def Schema.replay (s : σ) (ws : List W) : σ := ws.foldl (fun s w => S.apply w s) s

@[simp] theorem Schema.replay_nil (s : σ) : S.replay s [] = s := rfl

@[simp] theorem Schema.replay_append (s : σ) (ws vs : List W) :
    S.replay s (ws ++ vs) = S.replay (S.replay s ws) vs := List.foldl_append

@[simp] theorem Schema.replay_singleton (s : σ) (w : W) : S.replay s [w] = S.apply w s := rfl

namespace Db

/-- The store with nothing running. -/
def idle (s : σ) : Db σ W L T := ⟨s, [], fun _ => [], []⟩

/-- What transaction `t` sees. -/
def view (db : Db σ W L T) (t : T) : σ := S.replay db.committed (db.writes t)

/-- No other transaction holds the lock. -/
def Free (db : Db σ W L T) (t : T) (l : L) : Prop := ∀ e ∈ db.locks, e.2 = l → e.1 = t

instance [DecidableEq L] (db : Db σ W L T) (t : T) (l : L) : Decidable (db.Free t l) :=
  inferInstanceAs (Decidable (∀ e ∈ db.locks, e.2 = l → e.1 = t))

/-- Transaction `t` executes a statement: it takes locks and writes. -/
def write (db : Db σ W L T) (t : T) (ls : List L) (ws : List W) : Db σ W L T :=
  { db with
    writes := Function.update db.writes t (db.writes t ++ ws)
    locks := ls.map (t, ·) ++ db.locks }

/-- The end of a transaction: its writes are dropped and its locks released. -/
def release (db : Db σ W L T) (t : T) : Db σ W L T :=
  { db with
    writes := Function.update db.writes t []
    locks := db.locks.filter fun e => e.1 ≠ t }

/-- Commit: the writes of the transaction become visible. -/
def commit (db : Db σ W L T) (t : T) : Db σ W L T :=
  { db.release t with
    committed := db.view S t
    log := db.log ++ [(t, db.writes t)] }

section
variable (db : Db σ W L T) (t u : T) (ls : List L) (ws : List W)

@[simp] theorem write_committed : (db.write t ls ws).committed = db.committed := rfl
@[simp] theorem write_log : (db.write t ls ws).log = db.log := rfl
@[simp] theorem write_self : (db.write t ls ws).writes t = db.writes t ++ ws := by simp [write]
@[simp] theorem write_ne (h : u ≠ t) : (db.write t ls ws).writes u = db.writes u := by
  simp [write, h]
@[simp] theorem mem_locks_write {e : T × L} :
    e ∈ (db.write t ls ws).locks ↔ (e.1 = t ∧ e.2 ∈ ls) ∨ e ∈ db.locks := by
  obtain ⟨u, l⟩ := e
  simp only [write, List.mem_append, List.mem_map, Prod.mk.injEq]
  constructor
  · rintro (⟨l', h, rfl, rfl⟩ | h)
    · exact Or.inl ⟨rfl, h⟩
    · exact Or.inr h
  · rintro (⟨rfl, h⟩ | h)
    · exact Or.inl ⟨l, h, rfl, rfl⟩
    · exact Or.inr h

@[simp] theorem release_committed : (db.release t).committed = db.committed := rfl
@[simp] theorem release_log : (db.release t).log = db.log := rfl
@[simp] theorem release_self : (db.release t).writes t = [] := by simp [release]
@[simp] theorem release_ne (h : u ≠ t) : (db.release t).writes u = db.writes u := by
  simp [release, h]
@[simp] theorem mem_locks_release {e : T × L} :
    e ∈ (db.release t).locks ↔ e ∈ db.locks ∧ e.1 ≠ t := by simp [release]

@[simp] theorem commit_committed : (db.commit S t).committed = db.view S t := rfl
@[simp] theorem commit_log : (db.commit S t).log = db.log ++ [(t, db.writes t)] := rfl
@[simp] theorem commit_writes : (db.commit S t).writes = (db.release t).writes := rfl
@[simp] theorem commit_locks : (db.commit S t).locks = (db.release t).locks := rfl

end

/-! ## The locking discipline -/

/-- Locks are exclusive and cover the uncommitted writes. -/
structure TwoPhase (db : Db σ W L T) : Prop where
  exclusive : ∀ t u l, (t, l) ∈ db.locks → (u, l) ∈ db.locks → t = u
  covered : ∀ t, ∀ w ∈ db.writes t, ∀ l ∈ S.guard w, (t, l) ∈ db.locks

variable {S} {db : Db σ W L T} {t u : T}

omit [DecidableEq T] in
theorem TwoPhase.idle {s : σ} : TwoPhase S (idle s : Db σ W L T) where
  exclusive := by simp [Db.idle]
  covered := by simp [Db.idle]

/-- A statement keeps the discipline if its locks were free and guard its writes. -/
theorem TwoPhase.write (h : TwoPhase S db) {ls : List L} {ws : List W}
    (free : ∀ l ∈ ls, db.Free t l) (cover : ∀ w ∈ ws, ∀ l ∈ S.guard w, l ∈ ls) :
    TwoPhase S (db.write t ls ws) where
  exclusive a b l ha hb := by
    rw [mem_locks_write] at ha hb
    rcases ha with ⟨rfl, ha⟩ | ha <;> rcases hb with ⟨rfl, hb⟩ | hb
    · rfl
    · exact (free l ha _ hb rfl).symm
    · exact free l hb _ ha rfl
    · exact h.exclusive a b l ha hb
  covered a w hw l hl := by
    rw [mem_locks_write]
    by_cases ha : a = t
    · subst ha
      rw [write_self, List.mem_append] at hw
      rcases hw with hw | hw
      · exact Or.inr (h.covered _ w hw l hl)
      · exact Or.inl ⟨rfl, cover w hw l hl⟩
    · rw [write_ne _ _ _ _ _ ha] at hw
      exact Or.inr (h.covered a w hw l hl)

theorem TwoPhase.release (h : TwoPhase S db) : TwoPhase S (db.release t) where
  exclusive a b l ha hb := by
    rw [mem_locks_release] at ha hb
    exact h.exclusive a b l ha.1 hb.1
  covered a w hw l hl := by
    by_cases ha : a = t
    · subst ha; rw [release_self] at hw; cases hw
    · rw [release_ne _ _ _ ha] at hw
      rw [mem_locks_release]; exact ⟨h.covered a w hw l hl, ha⟩

theorem TwoPhase.commit (h : TwoPhase S db) : TwoPhase S (db.commit S t) :=
  ⟨h.release.exclusive, h.release.covered⟩

/-- Locks protect a property of the store: writes guarded by none of them preserve it. -/
def Protects (S : Schema σ W L) (ls : List L) (P : σ → Prop) : Prop :=
  ∀ w s, (∀ l ∈ ls, l ∉ S.guard w) → P s → P (S.apply w s)

theorem Protects.replay {ls : List L} {P : σ → Prop} (hp : Protects S ls P) {s : σ} {ws : List W}
    (hw : ∀ w ∈ ws, ∀ l ∈ ls, l ∉ S.guard w) (h : P s) : P (S.replay s ws) := by
  induction ws generalizing s with
  | nil => exact h
  | cons w ws ih =>
    have hs : P (S.apply w s) := hp w s (hw w (List.mem_cons_self ..)) h
    exact ih (fun v hv => hw v (List.mem_cons_of_mem w hv)) hs

/-- **What a transaction's locks protect survives the commits of the others.** -/
theorem TwoPhase.stable_commit (h : TwoPhase S db) {ls : List L} {P : σ → Prop}
    (hp : Protects S ls P) (hl : ∀ l ∈ ls, (t, l) ∈ db.locks) (hne : u ≠ t)
    (hs : P db.committed) : P (db.commit S u).committed :=
  hp.replay (fun w hw l hm hg => hne (h.exclusive u t l (h.covered u w hw l hg) (hl l hm))) hs

end Db

end Locking
