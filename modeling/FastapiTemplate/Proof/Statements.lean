/-
  One spec lemma for each thing a statement does: what it writes, that the
  write fits the rows it saw, that its locks cover the write, and how it fails.
-/
import FastapiTemplate.Proof.Store
import FastapiTemplate.Infrastructure.Runtime

namespace FastapiTemplate

open Locking Locking.Db

/-- The write of a statement, read off its answer. -/
def Stmt.outcome : (q : Stmt) → q.Ret → Option Write
  | .insertUser values, id => some (.insertUser (values.toModel id))
  | .insertRefreshSession row, _ => some (.insertRefreshSession row)
  | .updateTokenHash data, (n : ℕ) => if n = 0 then none else some (.setTokenHash data)
  | _, _ => none

theorem Stmt.run_writes {q : Stmt} {s : Store} {userId : ℤ} {e : Effect q}
    (h : q.run s userId = .ok e) : e.writes = (q.outcome e.ret).toList := by
  cases q with
  | insertUser values =>
    simp only [run] at h
    split at h <;> cases h
    rfl
  | insertRefreshSession row =>
    simp only [run] at h
    split at h <;> cases h
    rfl
  | updateTokenHash data =>
    simp only [run] at h
    split at h <;> cases h
    simp only [outcome, List.length_eq_zero_iff]
    split <;> rfl
  | _ => cases h; rfl

theorem Stmt.outcome_setTokenHash {q : Stmt} {a : q.Ret} {data : ReplaceRefreshSessionTokenDTO}
    (h : q.outcome a = some (.setTokenHash data)) : q = .updateTokenHash data := by
  cases q with
  | updateTokenHash data' =>
    simp only [outcome, Option.ite_none_left_eq_some, Option.some.injEq, Write.setTokenHash.injEq]
      at h
    rw [h.2]
  | insertUser | insertRefreshSession => cases h
  | _ => cases h

/-- A write fits the rows its statement saw. -/
theorem Stmt.run_fits {q : Stmt} {s : Store} {userId : ℤ} {e : Effect q}
    (h : q.run s userId = .ok e) : ∀ w ∈ e.writes, w.Fits s := by
  cases q with
  | insertUser values =>
    simp only [run] at h
    split at h
    · rename_i hv
      cases h
      simp only [Store.userViolations, List.append_eq_nil_iff, ite_eq_right_iff, reduceCtorEq,
        imp_false, List.any_eq_true, decide_eq_true_eq, not_exists, not_and] at hv
      simp only [List.forall_mem_singleton]
      exact fun u hu => ⟨hv.1.1 u hu, hv.1.2 u hu, hv.2 u hu⟩
    · cases h
  | insertRefreshSession row =>
    simp only [run] at h
    split at h
    · rename_i hv
      cases h
      simp only [Store.sessionViolations, List.append_eq_nil_iff, ite_eq_right_iff, reduceCtorEq,
        imp_false, List.any_eq_true, decide_eq_true_eq, not_exists, not_and] at hv
      simp only [List.forall_mem_singleton]
      exact fun r hr => ⟨hv.1 r hr, hv.2 r hr⟩
    · cases h
  | updateTokenHash data =>
    simp only [run] at h
    split at h
    · rename_i hv
      cases h
      simp only [Store.updateViolations, ite_eq_right_iff, reduceCtorEq, imp_false] at hv
      intro w hw
      split at hw
      · cases hw
      · rename_i hne
        obtain rfl := List.mem_singleton.1 hw
        obtain ⟨r, hr⟩ := List.exists_mem_of_ne_nil _ hne
        refine ⟨⟨r, ?_⟩, fun r' hr' hid hh => hv ⟨hne, ?_⟩⟩
        · simpa [Store.tokenHashMatches] using hr
        · exact List.any_eq_true.2 ⟨r', hr', decide_eq_true ⟨hid, hh⟩⟩
    · cases h
  | _ => cases h; simp

/-- Only the statements that write have writes. -/
theorem Stmt.outcome_isWrite {q : Stmt} {a : q.Ret} {w : Write} (h : q.outcome a = some w) :
    q.isWrite := by
  cases q <;> first | rfl | cases h

/-- The locks of a statement guard what it writes. -/
theorem Dialect.locks_cover (d : Dialect) {q : Stmt} {s : Store} {userId : ℤ} {e : Effect q}
    (h : q.run s userId = .ok e) : ∀ w ∈ e.writes, ∀ l ∈ d.schema.guard w, l ∈ d.locks e := by
  intro w hw l hl
  cases d with
  | postgresql =>
    obtain ⟨l', hl', rfl⟩ := List.mem_map.1 hl
    exact List.mem_append_right _ (List.mem_flatMap_of_mem hw hl')
  | sqlite =>
    obtain ⟨l, -, rfl⟩ := List.mem_map.1 hl
    rw [Stmt.run_writes h, Option.mem_toList] at hw
    simp [Dialect.locks, Dialect.lock, Stmt.outcome_isWrite hw]

/-- Only statements that write fail. -/
theorem Stmt.run_error {q : Stmt} {s : Store} {userId : ℤ} {cs : List UniqueConstraint}
    (h : q.run s userId = .error cs) : q.isWrite := by
  cases q <;> first | rfl | cases h

/-- An inserted user can only violate the constraints on its username and address. -/
theorem Stmt.run_insertUser_error {values : NewUser} {s : Store} {userId : ℤ}
    {cs : List UniqueConstraint} (h : (Stmt.insertUser values).run s userId = .error cs)
    (ha : (Stmt.insertUser values).accepts s userId) {c : UniqueConstraint} (hc : c ∈ cs) :
    (c = .usersUsername ∧ ∃ u ∈ s.users, u.username = values.username) ∨
      (c = .usersEmail ∧ ∃ u ∈ s.users, u.email = values.email) := by
  simp only [run] at h
  split at h
  · cases h
  · cases h
    simp only [accepts, List.all_eq_true, decide_eq_true_eq] at ha
    simp only [Store.userViolations, List.mem_append, List.mem_ite_nil_right, List.mem_singleton,
      List.any_eq_true, decide_eq_true_eq] at hc
    rcases hc with (⟨⟨u, hu, hid⟩, rfl⟩ | ⟨hu, rfl⟩) | ⟨hu, rfl⟩
    · exact absurd hid (ha u hu)
    · exact Or.inl ⟨rfl, hu⟩
    · exact Or.inr ⟨rfl, hu⟩

end FastapiTemplate
