/-
  What writes and statements do to the store: the unique constraints, what a
  write needs to find, and which locks keep it there.
-/
import FastapiTemplate.Infrastructure.Tables
import Mathlib.Data.List.Nodup

namespace FastapiTemplate

open Locking Locking.Db

/-- The unique constraints of the schema. -/
structure Store.Valid (s : Store) : Prop where
  userIds : (s.users.map (·.id)).Nodup
  usernames : (s.users.map (·.username)).Nodup
  emails : (s.users.map (·.email)).Nodup
  sessionIds : (s.refreshSessions.map (·.id)).Nodup
  tokenHashes : (s.refreshSessions.map (·.refreshTokenHash)).Nodup

theorem Store.Valid.session_ext {s : Store} (h : s.Valid) {r r' : RefreshSessionModel}
    (hr : r ∈ s.refreshSessions) (hr' : r' ∈ s.refreshSessions) (hid : r.id = r'.id) : r = r' :=
  List.inj_on_of_nodup_map h.sessionIds hr hr' hid

theorem Store.Valid.hash_ext {s : Store} (h : s.Valid) {r r' : RefreshSessionModel}
    (hr : r ∈ s.refreshSessions) (hr' : r' ∈ s.refreshSessions)
    (hh : r.refreshTokenHash = r'.refreshTokenHash) : r = r' :=
  List.inj_on_of_nodup_map h.tokenHashes hr hr' hh

/-! ## Session rows over time -/

/-- `r'` is a later version of the row `r`: no write changes these columns, or clears
    `revoked_at`. -/
structure RefreshSessionModel.Continues (r r' : RefreshSessionModel) : Prop where
  id : r'.id = r.id
  userId : r'.userId = r.userId
  userAgent : r'.userAgent = r.userAgent
  ipAddressTrace : r'.ipAddressTrace = r.ipAddressTrace
  createdAt : r'.createdAt = r.createdAt
  expiresAt : r'.expiresAt = r.expiresAt
  revoked : r.revokedAt ≠ none → r'.revokedAt ≠ none

namespace RefreshSessionModel

theorem Continues.refl (r : RefreshSessionModel) : r.Continues r :=
  ⟨rfl, rfl, rfl, rfl, rfl, rfl, fun h => h⟩

theorem Continues.trans {a b c : RefreshSessionModel} (h : a.Continues b) (k : b.Continues c) :
    a.Continues c :=
  ⟨k.id.trans h.id, k.userId.trans h.userId, k.userAgent.trans h.userAgent,
    k.ipAddressTrace.trans h.ipAddressTrace, k.createdAt.trans h.createdAt,
    k.expiresAt.trans h.expiresAt, fun hr => k.revoked (h.revoked hr)⟩

@[simp] theorem withTokenHash_id (r : RefreshSessionModel) (data : ReplaceRefreshSessionTokenDTO) :
    (r.withTokenHash data).id = r.id := rfl

@[simp] theorem withTokenHash_hash (r : RefreshSessionModel)
    (data : ReplaceRefreshSessionTokenDTO) :
    (r.withTokenHash data).refreshTokenHash = data.refreshTokenHash := rfl

@[simp] theorem withTokenHash_revokedAt (r : RefreshSessionModel)
    (data : ReplaceRefreshSessionTokenDTO) : (r.withTokenHash data).revokedAt = r.revokedAt := rfl

@[simp] theorem withTokenHash_userId (r : RefreshSessionModel)
    (data : ReplaceRefreshSessionTokenDTO) : (r.withTokenHash data).userId = r.userId := rfl

@[simp] theorem withRevokedAt_id (r : RefreshSessionModel) (t : Instant) :
    (r.withRevokedAt t).id = r.id := rfl

@[simp] theorem withRevokedAt_hash (r : RefreshSessionModel) (t : Instant) :
    (r.withRevokedAt t).refreshTokenHash = r.refreshTokenHash := rfl

theorem continues_withTokenHash (r : RefreshSessionModel) (data : ReplaceRefreshSessionTokenDTO) :
    r.Continues (r.withTokenHash data) :=
  ⟨rfl, rfl, rfl, rfl, rfl, rfl, fun h => h⟩

theorem continues_withRevokedAt (r : RefreshSessionModel) (t : Instant) :
    r.Continues (r.withRevokedAt t) :=
  ⟨rfl, rfl, rfl, rfl, rfl, rfl, fun _ => Option.some_ne_none t⟩

end RefreshSessionModel

@[simp] theorem mem_updateSession {id : UUID} {f : RefreshSessionModel → RefreshSessionModel}
    {rows : List RefreshSessionModel} {r : RefreshSessionModel} :
    r ∈ updateSession id f rows ↔ ∃ r₀ ∈ rows, (if r₀.id = id then f r₀ else r₀) = r :=
  List.mem_map

/-- A row after an update was updated, or it is another row. -/
theorem of_mem_updateSession {id : UUID} {f : RefreshSessionModel → RefreshSessionModel}
    {rows : List RefreshSessionModel} {r : RefreshSessionModel} (h : r ∈ updateSession id f rows) :
    (∃ r₀ ∈ rows, r₀.id = id ∧ f r₀ = r) ∨ r ∈ rows ∧ r.id ≠ id := by
  obtain ⟨r₀, hr₀, rfl⟩ := mem_updateSession.1 h
  by_cases hid : r₀.id = id
  · exact Or.inl ⟨r₀, hr₀, hid, (if_pos hid).symm⟩
  · rw [if_neg hid]
    exact Or.inr ⟨hr₀, hid⟩

/-- An update that keeps identifiers keeps their list. -/
theorem map_id_updateSession {id : UUID} {f : RefreshSessionModel → RefreshSessionModel}
    (hf : ∀ r, (f r).id = r.id) (rows : List RefreshSessionModel) :
    (updateSession id f rows).map (·.id) = rows.map (·.id) := by
  simp only [updateSession, List.map_map, List.map_inj_left, Function.comp_apply]
  intro r _
  split <;> simp [hf]

/-- Every row has a later version after a write. -/
theorem Write.apply_continues (w : Write) (s : Store) {r : RefreshSessionModel}
    (hr : r ∈ s.refreshSessions) : ∃ r' ∈ (w.apply s).refreshSessions, r.Continues r' := by
  cases w with
  | insertUser => exact ⟨r, hr, .refl r⟩
  | insertRefreshSession row => exact ⟨r, List.mem_append_left _ hr, .refl r⟩
  | setTokenHash data =>
    refine ⟨_, mem_updateSession.2 ⟨r, hr, rfl⟩, ?_⟩
    split
    · exact r.continues_withTokenHash data
    · exact .refl r
  | setRevokedAt id t =>
    refine ⟨_, mem_updateSession.2 ⟨r, hr, rfl⟩, ?_⟩
    split
    · exact r.continues_withRevokedAt t
    · exact .refl r

/-- Every row after a write is a later version of a row, or the row it inserts. -/
theorem Write.continues_of_apply {w : Write} {s : Store} {r' : RefreshSessionModel}
    (hr : r' ∈ (w.apply s).refreshSessions) :
    (∃ r ∈ s.refreshSessions, r.Continues r') ∨ w = .insertRefreshSession r' := by
  cases w with
  | insertUser => exact Or.inl ⟨r', hr, .refl r'⟩
  | insertRefreshSession row =>
    rcases List.mem_append.1 hr with hr | hr
    · exact Or.inl ⟨r', hr, .refl r'⟩
    · exact Or.inr (by rw [List.mem_singleton.1 hr])
  | setTokenHash data =>
    obtain ⟨r, hr₀, rfl⟩ := mem_updateSession.1 hr
    refine Or.inl ⟨r, hr₀, ?_⟩
    split
    · exact r.continues_withTokenHash data
    · exact .refl r
  | setRevokedAt id t =>
    obtain ⟨r, hr₀, rfl⟩ := mem_updateSession.1 hr
    refine Or.inl ⟨r, hr₀, ?_⟩
    split
    · exact r.continues_withRevokedAt t
    · exact .refl r

theorem replay_continues (d : Dialect) (ws : List Write) (s : Store) {r : RefreshSessionModel}
    (hr : r ∈ s.refreshSessions) :
    ∃ r' ∈ (d.schema.replay s ws).refreshSessions, r.Continues r' := by
  induction ws generalizing s r with
  | nil => exact ⟨r, hr, .refl r⟩
  | cons w ws ih =>
    obtain ⟨r', hr', h⟩ := w.apply_continues s hr
    obtain ⟨r'', hr'', h'⟩ := ih (w.apply s) hr'
    exact ⟨r'', hr'', h.trans h'⟩

/-! ## What a write needs -/

/-- The store a statement found when it wrote `w`: no duplicate, or the row it updates. -/
def Write.Fits (s : Store) : Write → Prop
  | .insertUser row =>
    ∀ u ∈ s.users, u.id ≠ row.id ∧ u.username ≠ row.username ∧ u.email ≠ row.email
  | .insertRefreshSession row =>
    ∀ r ∈ s.refreshSessions, r.id ≠ row.id ∧ r.refreshTokenHash ≠ row.refreshTokenHash
  | .setTokenHash data =>
    (∃ r ∈ s.refreshSessions,
      r.id = data.sessionId ∧ r.refreshTokenHash = data.expectedRefreshTokenHash) ∧
    ∀ r ∈ s.refreshSessions, r.id ≠ data.sessionId → r.refreshTokenHash ≠ data.refreshTokenHash
  | .setRevokedAt id _ => ∃ r ∈ s.refreshSessions, r.id = id

/-- Writes of other rows and keys do not get in the way. -/
theorem Write.Fits.apply {s : Store} {w v : Write} (h : w.Fits s)
    (hd : ∀ l ∈ w.touches, l ∉ v.touches) : w.Fits (v.apply s) := by
  cases w with
  | insertUser row =>
    cases v with
    | insertUser row' =>
      simp only [touches, List.mem_cons, List.not_mem_nil, or_false, not_or, forall_eq_or_imp,
        forall_eq, Lock.user.injEq, Lock.username.injEq, Lock.email.injEq] at hd
      intro u hu
      rcases List.mem_append.1 hu with hu | hu
      · exact h u hu
      · obtain rfl := List.mem_singleton.1 hu
        exact ⟨Ne.symm hd.1.1, Ne.symm hd.2.1.2.1, Ne.symm hd.2.2.2.2⟩
    | _ => exact h
  | insertRefreshSession row =>
    cases v with
    | insertUser => exact h
    | insertRefreshSession row' =>
      simp only [touches, List.mem_cons, List.not_mem_nil, or_false, not_or, forall_eq_or_imp,
        forall_eq, Lock.refreshSession.injEq, Lock.tokenHash.injEq] at hd
      intro r hr
      rcases List.mem_append.1 hr with hr | hr
      · exact h r hr
      · obtain rfl := List.mem_singleton.1 hr
        exact ⟨Ne.symm hd.1.1, Ne.symm hd.2.2⟩
    | setTokenHash data =>
      simp only [touches, List.mem_cons, List.not_mem_nil, or_false, not_or, forall_eq_or_imp,
        forall_eq, Lock.refreshSession.injEq, Lock.tokenHash.injEq] at hd
      intro r hr
      obtain ⟨r₀, hr₀, rfl⟩ := mem_updateSession.1 hr
      split
      · exact ⟨(h r₀ hr₀).1, Ne.symm hd.2.2⟩
      · exact h r₀ hr₀
    | setRevokedAt id t =>
      intro r hr
      obtain ⟨r₀, hr₀, rfl⟩ := mem_updateSession.1 hr
      split <;> exact h r₀ hr₀
  | setTokenHash data =>
    obtain ⟨⟨r, hr, hid, hh⟩, hne⟩ := h
    cases v with
    | insertUser => exact ⟨⟨r, hr, hid, hh⟩, hne⟩
    | insertRefreshSession row' =>
      simp only [touches, List.mem_cons, List.not_mem_nil, or_false, not_or, forall_eq_or_imp,
        forall_eq, Lock.refreshSession.injEq, Lock.tokenHash.injEq] at hd
      refine ⟨⟨r, List.mem_append_left _ hr, hid, hh⟩, fun r' hr' hid' => ?_⟩
      rcases List.mem_append.1 hr' with hr' | hr'
      · exact hne r' hr' hid'
      · obtain rfl := List.mem_singleton.1 hr'
        exact Ne.symm hd.2.2
    | setTokenHash data' =>
      simp only [touches, List.mem_cons, List.not_mem_nil, or_false, not_or, forall_eq_or_imp,
        forall_eq, Lock.refreshSession.injEq, Lock.tokenHash.injEq] at hd
      refine ⟨⟨r, mem_updateSession.2 ⟨r, hr, ?_⟩, hid, hh⟩, fun r' hr' hid' => ?_⟩
      · rw [if_neg (by rw [hid]; exact hd.1.1)]
      · obtain ⟨r₀, hr₀, rfl⟩ := mem_updateSession.1 hr'
        split
        · exact Ne.symm hd.2.2
        · rename_i hn
          rw [if_neg hn] at hid'
          exact hne r₀ hr₀ hid'
    | setRevokedAt id t =>
      simp only [touches, List.mem_cons, List.not_mem_nil, or_false, forall_eq_or_imp,
        forall_eq, Lock.refreshSession.injEq] at hd
      refine ⟨⟨r, mem_updateSession.2 ⟨r, hr, ?_⟩, hid, hh⟩, fun r' hr' hid' => ?_⟩
      · rw [if_neg (by rw [hid]; exact hd.1)]
      · obtain ⟨r₀, hr₀, rfl⟩ := mem_updateSession.1 hr'
        split at hid' <;> split <;> first | contradiction | exact hne r₀ hr₀ hid'
  | setRevokedAt id t =>
    obtain ⟨r, hr, hid⟩ := h
    obtain ⟨r', hr', hc⟩ := v.apply_continues s hr
    exact ⟨r', hr', hc.id.trans hid⟩

/-- A property that only writes of certain rows and keys can break is protected by their locks,
    on both databases. -/
theorem Dialect.protects (d : Dialect) (ls : List Lock) {P : Store → Prop}
    (h : ∀ (v : Write) s, (∀ l ∈ ls, l ∉ v.touches) → P s → P (v.apply s)) :
    Protects d.schema (ls.map d.lock) P := fun v s hv hs =>
  h v s (fun _ hl hlv => hv _ (List.mem_map_of_mem hl) (List.mem_map_of_mem hlv)) hs

/-- The locks of a write keep what it needs. -/
theorem Write.protects_fits (d : Dialect) (w : Write) :
    Protects d.schema (d.schema.guard w) fun s => w.Fits s :=
  d.protects w.touches fun _ _ hv hs => hs.apply hv

/-- The lock of a row keeps the row. -/
theorem protects_row (d : Dialect) (row : RefreshSessionModel) :
    Protects d.schema [d.lock (.refreshSession row.id)] fun s => row ∈ s.refreshSessions := by
  refine d.protects [.refreshSession row.id] fun v s hv hs => ?_
  rw [List.forall_mem_singleton] at hv
  cases v with
  | insertUser => exact hs
  | insertRefreshSession row' => exact List.mem_append_left _ hs
  | setTokenHash data =>
    refine mem_updateSession.2 ⟨row, hs, if_neg fun h => hv ?_⟩
    simp [Write.touches, h]
  | setRevokedAt id t =>
    refine mem_updateSession.2 ⟨row, hs, if_neg fun h => hv ?_⟩
    simp [Write.touches, h]

/-- Adding a row with a fresh key. -/
theorem nodup_map_concat {α β : Type} {f : α → β} {xs : List α} {x : α} (h : (xs.map f).Nodup)
    (hx : ∀ y ∈ xs, f y ≠ f x) : ((xs ++ [x]).map f).Nodup := by
  rw [List.map_append, List.nodup_append]
  refine ⟨h, List.nodup_singleton _, ?_⟩
  rintro a ha b hb rfl
  obtain ⟨y, hy, rfl⟩ := List.mem_map.1 ha
  exact hx y hy (List.mem_singleton.1 hb)

/-- A write that found what it needs keeps the constraints. -/
theorem Store.Valid.apply {s : Store} (h : s.Valid) {w : Write} (hw : w.Fits s) :
    (w.apply s).Valid := by
  cases w with
  | insertUser row =>
    exact ⟨nodup_map_concat h.userIds fun u hu => (hw u hu).1,
      nodup_map_concat h.usernames fun u hu => (hw u hu).2.1,
      nodup_map_concat h.emails fun u hu => (hw u hu).2.2, h.sessionIds, h.tokenHashes⟩
  | insertRefreshSession row =>
    exact ⟨h.userIds, h.usernames, h.emails, nodup_map_concat h.sessionIds fun r hr => (hw r hr).1,
      nodup_map_concat h.tokenHashes fun r hr => (hw r hr).2⟩
  | setTokenHash data =>
    refine ⟨h.userIds, h.usernames, h.emails, ?_, ?_⟩
    · rw [Write.apply, map_id_updateSession fun r => r.withTokenHash_id data]
      exact h.sessionIds
    · simp only [Write.apply, updateSession, List.map_map]
      refine List.Nodup.map_on (fun a ha b hb hab => ?_) (List.Nodup.of_map _ h.sessionIds)
      simp only [Function.comp_apply] at hab
      by_cases hia : a.id = data.sessionId <;> by_cases hib : b.id = data.sessionId
      · exact h.session_ext ha hb (hia.trans hib.symm)
      · rw [if_pos hia, if_neg hib] at hab
        exact absurd hab.symm (hw.2 b hb hib)
      · rw [if_neg hia, if_pos hib] at hab
        exact absurd hab (hw.2 a ha hia)
      · rw [if_neg hia, if_neg hib] at hab
        exact h.hash_ext ha hb hab
  | setRevokedAt id t =>
    refine ⟨h.userIds, h.usernames, h.emails, ?_, ?_⟩
    · rw [Write.apply, map_id_updateSession fun r => r.withRevokedAt_id t]
      exact h.sessionIds
    · have : (updateSession id (·.withRevokedAt t) s.refreshSessions).map (·.refreshTokenHash) =
          s.refreshSessions.map (·.refreshTokenHash) := by
        simp only [updateSession, List.map_map, List.map_inj_left, Function.comp_apply]
        intro r _
        split <;> rfl
      simp only [Write.apply, this]
      exact h.tokenHashes

end FastapiTemplate
