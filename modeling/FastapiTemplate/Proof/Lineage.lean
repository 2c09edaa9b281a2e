/-
  The refresh tokens of a session form one chain (`token_chains`).

  The invariant `Chains` follows the log of commits: an insert starts the chain
  of its session, a token update appends to it.  What makes a rotation append
  at the end is the comparison with the old hash: the row read before and the
  row updated carry the hash of the same link.
-/
import FastapiTemplate.Proof.Executions
import Mathlib.Data.Set.Function

namespace FastapiTemplate

open Effects Locking Locking.Db

variable {D : Deployment} {w w' : D.World} {i j : ℕ}

/-! ## Tokens -/

/-- The tokens of a run: those generated and those presented. -/
def tokens (w : D.World) : Set String :=
  {t | t ∈ w.shared.minted ∨ ∃ i, Requests w i (.refreshToken ⟨t⟩)}

theorem Grows.tokens (h : Grows w w') : tokens w ⊆ tokens w' := by
  rintro t (ht | ⟨i, ht⟩)
  · exact Or.inl (h.minted t ht)
  · exact Or.inr ⟨i, h.requests i _ ht⟩

/-- Every generated token was generated once. -/
theorem minted_once (hw : D.system.Reachable w) : ∀ i n (t : String),
    w.Saw i (.tokenUrlsafe n) t → t ∈ w.shared.minted ∧
      ∀ j m, w.Saw j (.tokenUrlsafe m) t → j = i := by
  refine System.ReachableIf.induct (I := fun w => ∀ i n (t : String),
    w.Saw i (.tokenUrlsafe n) t → t ∈ w.shared.minted ∧
      ∀ j m, w.Saw j (.tokenUrlsafe m) t → j = i) ?_ ?_ hw
  · intro s _ i n t h
    cases h
  · intro w lab w' hw hs _ ih
    have hg := grows_step hs
    cases hs with
    | spawn => exact ih
    | environment he =>
      obtain ⟨f, -, rfl⟩ := he
      exact ih
    | @call i₀ req c k r s hi ha =>
      have ha : Answer D.ext D.dialect Call.mayFail i₀ w.shared c r s := ha
      -- a token generated in this step is new
      have hnew : ∀ i n (t : String), w.Saw i (.tokenUrlsafe n) t → ∀ m,
          (⟨c, r⟩ : Σ c, Except Exc (Ret c)) ≠ ⟨.tokenUrlsafe m, .ok t⟩ := by
        intro i n t h m heq
        cases heq
        rcases ha.inv with ha | ⟨_, hr, -⟩
        · cases ha with
          | tokenUrlsafe ht => exact ht (ih i n t h).1
        · cases hr
      intro i n t h
      rcases World.saw_reply h with h₀ | ⟨rfl, heq⟩
      · refine ⟨hg.minted t (ih i n t h₀).1, fun j m hj => ?_⟩
        rcases World.saw_reply hj with hj | ⟨-, heq⟩
        · exact (ih i n t h₀).2 j m hj
        · exact absurd heq (hnew i n t h₀ m)
      · cases heq
        rcases ha.inv with ha | ⟨_, hr, -⟩
        · cases ha
          refine ⟨List.mem_cons_self .., fun j m hj => ?_⟩
          rcases World.saw_reply hj with hj | ⟨hji, -⟩
          · exact absurd rfl (hnew j m t hj n)
          · exact hji
        · cases hr

/-! ## The invariant -/

/-- The write gives the session the token. -/
def Write.Mints (D : Deployment) (id : UUID) (t : String) : Write → Prop
  | .insertRefreshSession row => row.id = id ∧ row.refreshTokenHash = hashRefreshToken D.ext t
  | .setTokenHash data =>
    data.sessionId = id ∧ data.refreshTokenHash = hashRefreshToken D.ext t
  | _ => False

/-- The write comes after the first `n` links: it starts the chain, or it replaced the token of
    the link before it. -/
def Write.Follows (D : Deployment) (chain : List (ℕ × String)) : ℕ → Write → Prop
  | 0, .insertRefreshSession _ => True
  | n + 1, .setTokenHash data => ∃ prev, chain[n]? = some prev ∧
      data.expectedRefreshTokenHash = hashRefreshToken D.ext prev.2
  | _, _ => False

/-- The row carries the token of link `n` and the counter `n`. -/
def RefreshSessionModel.AtLink (D : Deployment) (row : RefreshSessionModel)
    (chain : List (ℕ × String)) (n : ℕ) : Prop :=
  ∃ e, chain[n]? = some e ∧ row.refreshTokenHash = hashRefreshToken D.ext e.2 ∧
    row.rotationCounter = n

/-- The chains of the sessions: executions with the tokens they generated, oldest first. -/
structure Chains (D : Deployment) (w : D.World) (chain : UUID → List (ℕ × String)) : Prop where
  link : ∀ id n e, (chain id)[n]? = some e → Minted D (w.Saw e.1) e.2 ∧
    ∃ v, Committed w e.1 v ∧ v.Mints D id e.2 ∧ v.Follows D (chain id) n
  complete : ∀ i v id t, Committed w i v → v.Mints D id t → ∃ t', (i, t') ∈ chain id
  live : ∀ id, chain id ≠ [] → ∃ r ∈ w.shared.db.committed.refreshSessions, r.id = id
  last : ∀ r ∈ w.shared.db.committed.refreshSessions, ∃ n, (chain r.id).length = n + 1 ∧
    r.AtLink D (chain r.id) n
  seen : ∀ i row, SawRow (w.Saw i) row → ∃ n, row.AtLink D (chain row.id) n

theorem getElem?_append_some {α : Type} {xs ys : List α} {n : ℕ} {a : α} (h : xs[n]? = some a) :
    (xs ++ ys)[n]? = some a := by
  rw [List.getElem?_append_left (List.getElem?_eq_some_iff.1 h).1, h]

theorem Write.Follows.append {chain : List (ℕ × String)} {n : ℕ} {v : Write}
    (h : v.Follows D chain n) (es : List (ℕ × String)) : v.Follows D (chain ++ es) n := by
  cases n <;> cases v <;> try exact h
  obtain ⟨prev, h₁, h₂⟩ := h
  exact ⟨prev, getElem?_append_some h₁, h₂⟩

theorem RefreshSessionModel.AtLink.append {row : RefreshSessionModel} {chain : List (ℕ × String)}
    {n : ℕ} (h : row.AtLink D chain n) (es : List (ℕ × String)) : row.AtLink D (chain ++ es) n :=
  h.imp fun _ h => ⟨getElem?_append_some h.1, h.2⟩

theorem Write.Mints.session {a b : UUID} {t t' : String} {v : Write} (h : v.Mints D a t)
    (h' : v.Mints D b t') : a = b := by
  cases v with
  | insertRefreshSession | setTokenHash => exact h.1.symm.trans h'.1
  | _ => exact h.elim

section
variable (hD : D.store.Valid) (hw : D.system.Reachable w) {chain : UUID → List (ℕ × String)}
  (h : Chains D w chain) (hinj : Set.InjOn D.ext.sha256hex (tokens w))
include hw hinj

/-- The hash of a generated token determines the token and who generated it. -/
theorem minted_ext {t t' : String} (ht : Minted D (w.Saw i) t) (ht' : Minted D (w.Saw j) t')
    (hh : hashRefreshToken D.ext t = hashRefreshToken D.ext t') : i = j ∧ t = t' := by
  have hm := minted_once hw i _ t ht
  have hm' := minted_once hw j _ t' ht'
  obtain rfl : t = t' := hinj (Or.inl hm.1) (Or.inl hm'.1) hh
  exact ⟨hm'.2 i _ ht, rfl⟩

include hD h

/-- An execution is one link of one chain. -/
theorem Chains.once {a b : UUID} {m n : ℕ} {e f : ℕ × String} (he : (chain a)[m]? = some e)
    (hf : (chain b)[n]? = some f) (hef : e.1 = f.1) : a = b ∧ m = n ∧ e = f := by
  induction m generalizing n e f with
  | zero =>
    obtain ⟨hm, v, hc, hv, hfol⟩ := h.link a 0 e he
    obtain ⟨hm', v', hc', hv', hfol'⟩ := h.link b n f hf
    obtain rfl := hc.unique hD hw (hef ▸ hc')
    cases v with
    | insertRefreshSession row =>
      obtain ⟨-, htok⟩ := minted_ext hw hinj hm hm' (hv.2.symm.trans hv'.2)
      cases n with
      | zero => exact ⟨hv.1.symm.trans hv'.1, rfl, Prod.ext hef htok⟩
      | succ n => exact hfol'.elim
    | _ => exact hfol.elim
  | succ m ih =>
    obtain ⟨hm, v, hc, hv, hfol⟩ := h.link a (m + 1) e he
    obtain ⟨hm', v', hc', hv', hfol'⟩ := h.link b n f hf
    obtain rfl := hc.unique hD hw (hef ▸ hc')
    cases v with
    | setTokenHash data =>
      obtain ⟨-, htok⟩ := minted_ext hw hinj hm hm' (hv.2.symm.trans hv'.2)
      cases n with
      | zero => exact hfol'.elim
      | succ n =>
        obtain ⟨prev, hp, hx⟩ := hfol
        obtain ⟨prev', hp', hx'⟩ := hfol'
        have hpp := minted_ext hw hinj (h.link a m prev hp).1 (h.link b n prev' hp').1
          (hx.symm.trans hx')
        obtain ⟨hab, rfl, -⟩ := ih hp hp' hpp.1
        exact ⟨hab, rfl, Prod.ext hef htok⟩
    | _ => exact hfol.elim

end

/-! ## Steps -/

section
variable {chain : UUID → List (ℕ × String)} (hD : D.store.Valid) (hw : D.system.Reachable w)
  {lab : Label (Request D.ext) Call} (hs : D.system.Step w lab w')
include hD hw hs

/-- A step that commits no token. -/
theorem Chains.keep (h : Chains D w chain)
    (hlog : ∀ e ∈ w'.shared.db.log, e ∉ w.shared.db.log → ∀ v ∈ e.2, ∀ id t, ¬v.Mints D id t)
    (hrows : ∀ r' ∈ w'.shared.db.committed.refreshSessions,
      ∃ r ∈ w.shared.db.committed.refreshSessions, r.Continues r' ∧
        r'.refreshTokenHash = r.refreshTokenHash ∧ r'.rotationCounter = r.rotationCounter)
    (hlive : ∀ r ∈ w.shared.db.committed.refreshSessions,
      ∃ r' ∈ w'.shared.db.committed.refreshSessions, r.Continues r') :
    Chains D w' chain := by
  have hg := grows_step hs
  refine {
    link := fun id n e he => ?_
    complete := fun i v id t hc hv => ?_
    live := fun id hne => ?_
    last := fun r hr => ?_
    seen := fun i row hrow => ?_ }
  · obtain ⟨hm, v, hc, hv⟩ := h.link id n e he
    exact ⟨hg.saw _ _ _ hm, v, hc.grows hg, hv⟩
  · rcases Committed.new hD hw hs hc with hc | ⟨sid, -, hnew, hold⟩
    · exact h.complete i v id t hc hv
    · exact absurd hv (hlog _ hnew hold v (List.mem_singleton_self v) id t)
  · obtain ⟨r, hr, hid⟩ := h.live id hne
    obtain ⟨r', hr', hcont⟩ := hlive r hr
    exact ⟨r', hr', hcont.id.trans hid⟩
  · obtain ⟨r₀, hr₀, hcont, hh, hcount⟩ := hrows r hr
    obtain ⟨n, hlen, e, he, hhash, hn⟩ := h.last r₀ hr₀
    rw [hcont.id]
    exact ⟨n, hlen, e, he, hh.trans hhash, hcount.trans hn⟩
  · rcases sawRow_step hD hw hs hrow with hrow | hrow
    · exact h.seen i row hrow
    · obtain ⟨n, -, hat⟩ := h.last row hrow
      exact ⟨n, hat⟩

/-- A commit of a write that gives the session `id` the token `t`: the chain of the session gets
    a link. -/
theorem Chains.append (h : Chains D w chain) {sid : SessionId} {v : Write}
    (hc : Commits D w w' i sid [v]) {id : UUID} {t : String} (hm : Minted D (w.Saw i) t)
    (hv : v.Mints D id t) (hfol : v.Follows D (chain id) (chain id).length)
    (hrow : ∃ r ∈ w'.shared.db.committed.refreshSessions, r.id = id ∧
      r.refreshTokenHash = hashRefreshToken D.ext t ∧ r.rotationCounter = (chain id).length)
    (hrows : ∀ r' ∈ w'.shared.db.committed.refreshSessions, r'.id ≠ id →
      r' ∈ w.shared.db.committed.refreshSessions) :
    Chains D w' fun x => chain x ++ if x = id then [(i, t)] else [] := by
  have hg := grows_step hs
  have hiff : ∀ {j u}, Committed w' j u ↔ Committed w j u ∨ j = i ∧ u = v :=
    hc.committed_iff hD hw hs
  have hvalid := (inv hD (hw.step hs trivial)).state.valid
  refine {
    link := fun x n e he => ?_
    complete := fun j u x t' hj hu => ?_
    live := fun x hne => ?_
    last := fun r hr => ?_
    seen := fun j row hsaw => ?_ }
  · rcases Nat.lt_or_ge n (chain x).length with hlt | hge
    · rw [List.getElem?_append_left hlt] at he
      obtain ⟨hm', u, hu, hmints, hf⟩ := h.link x n e he
      exact ⟨hg.saw _ _ _ hm', u, hu.grows hg, hmints, hf.append _⟩
    · -- the new link
      rw [List.getElem?_append_right hge] at he
      split at he
      · rename_i hx
        subst hx
        rw [List.getElem?_singleton] at he
        split at he
        · obtain rfl : n = (chain x).length := by omega
          obtain rfl := Option.some.inj he
          exact ⟨hg.saw _ _ _ hm, v, hiff.2 (Or.inr ⟨rfl, rfl⟩), hv, hfol.append _⟩
        · cases he
      · cases he
  · rcases hiff.1 hj with hj | ⟨rfl, rfl⟩
    · obtain ⟨t'', ht⟩ := h.complete j u x t' hj hu
      exact ⟨t'', List.mem_append_left _ ht⟩
    · refine ⟨t, List.mem_append_right _ ?_⟩
      rw [if_pos (hu.session hv)]
      exact List.mem_singleton_self _
  · by_cases hx : x = id
    · obtain ⟨r, hr, hid, -⟩ := hrow
      exact ⟨r, hr, hid.trans hx.symm⟩
    · rw [if_neg hx, List.append_nil] at hne
      obtain ⟨r, hr, rfl⟩ := h.live x hne
      obtain ⟨r', hr', hcont⟩ := replay_continues D.dialect [v] _ hr
      exact ⟨r', hc.committed ▸ hr', hcont.id⟩
  · by_cases hx : r.id = id
    · obtain ⟨r', hr', hid, hh, hn⟩ := hrow
      obtain rfl := hvalid.session_ext hr hr' (hx.trans hid.symm)
      refine ⟨(chain id).length, by simp [hx], (i, t), ?_, hh, hn⟩
      simp [hx]
    · obtain ⟨n, hlen, hat⟩ := h.last r (hrows r hr hx)
      exact ⟨n, by simpa [hx] using hlen, hat.append _⟩
  · rcases sawRow_step hD hw hs hsaw with hsaw | hsaw
    · obtain ⟨n, hat⟩ := h.seen j row hsaw
      exact ⟨n, hat.append _⟩
    · obtain ⟨n, -, hat⟩ := h.last row hsaw
      exact ⟨n, hat.append _⟩

/-- An insert starts the chain of its session. -/
theorem Chains.insert (h : Chains D w chain) {sid : SessionId} {u : UserModel}
    {context : TokenRequestContextDTO} {token : String} {id : UUID} {createdAt : Instant}
    (hc : Commits D w w' i sid [.insertRefreshSession (issuedRow D u context token id createdAt)])
    (hm : Minted D (w.Saw i) token) :
    Chains D w' fun x => chain x ++ if x = id then [(i, token)] else [] := by
  have hfit := hc.fits _ (List.mem_singleton_self _)
  -- no row has the identifier yet, so its chain is empty
  have hnil : chain id = [] := by
    by_contra hne
    obtain ⟨r, hr, hid⟩ := h.live id hne
    exact (hfit r hr).1 hid
  refine h.append hD hw hs hc hm ⟨rfl, rfl⟩ (by rw [hnil]; trivial) ?_ fun r' hr' hne => ?_
  · refine ⟨issuedRow D u context token id createdAt, ?_, rfl, rfl, by rw [hnil]; rfl⟩
    rw [hc.committed]
    exact List.mem_append_right _ (List.mem_singleton_self _)
  · rw [hc.committed] at hr'
    rcases List.mem_append.1 hr' with hr' | hr'
    · exact hr'
    · rw [List.mem_singleton.1 hr'] at hne
      exact absurd rfl hne

/-- **A rotation appends at the end**: the row it read and the row it updates carry the same
    hash, hence the token of the same link. -/
theorem Chains.rotate (h : Chains D w chain) (hinj : Set.InjOn D.ext.sha256hex (tokens w))
    {sid : SessionId} {presented minted : String} {row : RefreshSessionModel}
    {now usedAt : Instant}
    (hc : Commits D w w' i sid [.setTokenHash (rotation D presented minted row usedAt)])
    (hf : FoundActive D (w.Saw i) presented row now) (hm : Minted D (w.Saw i) minted) :
    Chains D w' fun x => chain x ++ if x = row.id then [(i, minted)] else [] := by
  obtain ⟨r, hr, hid, hh⟩ := (hc.fits _ (List.mem_singleton_self _)).1
  have hid : r.id = row.id := hid
  obtain ⟨n, hlen, e, he, hre, hrn⟩ := h.last r hr
  obtain ⟨m, e', he', hre', hrm⟩ := h.seen i row hf.sawRow
  rw [hid] at hlen he
  have hee : hashRefreshToken D.ext e.2 = hashRefreshToken D.ext e'.2 :=
    (hre.symm.trans hh).trans (hf.2.1.symm.trans hre')
  have hie := (minted_ext hw hinj (h.link _ _ _ he).1 (h.link _ _ _ he').1 hee).1
  obtain ⟨-, rfl, rfl⟩ := h.once hD hw hinj he he' hie
  refine h.append hD hw hs hc hm ⟨rfl, rfl⟩ ?_ ?_ fun r' hr' hne => ?_
  · rw [hlen]
    exact ⟨e, he, hf.2.1.symm.trans hre'⟩
  · refine ⟨r.withTokenHash (rotation D presented minted row usedAt), ?_, hid, rfl, ?_⟩
    · rw [hc.committed]
      exact mem_updateSession.2 ⟨r, hr, if_pos hid⟩
    · rw [hlen, Int.natCast_add, ← hrm]
      rfl
  · rw [hc.committed] at hr'
    obtain ⟨r₀, hr₀, rfl⟩ := mem_updateSession.1 hr'
    split at hne
    · exact absurd ‹_› hne
    · rwa [if_neg ‹_›]

/-- **Every step keeps the chains**, perhaps with a new link. -/
theorem Chains.step (h : Chains D w chain) (hinj : Set.InjOn D.ext.sha256hex (tokens w)) :
    ∃ chain', Chains D w' chain' := by
  rcases store_step hD hw hs with ⟨hcom, hlog⟩ | ⟨i, sid, ws, -, hc⟩ | ⟨-, f, -, hadm⟩
  · refine ⟨chain, h.keep hD hw hs (fun e he hold => absurd (hlog ▸ he) hold) (fun r hr => ?_)
      fun r hr => ?_⟩
    · exact ⟨r, hcom ▸ hr, .refl r, rfl, rfl⟩
    · exact ⟨r, hcom ▸ hr, .refl r⟩
  · -- a commit that gives no session a token
    have hkeep : (∀ v ∈ ws, ∀ id t, ¬v.Mints D id t) →
        (∀ r' ∈ w'.shared.db.committed.refreshSessions,
          ∃ r ∈ w.shared.db.committed.refreshSessions, r.Continues r' ∧
            r'.refreshTokenHash = r.refreshTokenHash ∧ r'.rotationCounter = r.rotationCounter) →
        Chains D w' chain := by
      intro hno hrows
      refine h.keep hD hw hs (fun e he hold v hv => ?_) hrows fun r hr => ?_
      · rw [hc.log, List.mem_append, List.mem_singleton] at he
        obtain rfl := he.resolve_left hold
        exact hno v hv
      · rw [hc.committed]
        exact replay_continues D.dialect ws _ hr
    have hcom := hc.committed
    obtain ⟨⟨req, prog⟩, -, hb⟩ := hc.proc
    rcases hc.short with rfl | ⟨v, rfl⟩
    · rw [Schema.replay_nil] at hcom
      exact ⟨chain, hkeep nofun fun r hr => ⟨r, hcom ▸ hr, .refl r, rfl, rfl⟩⟩
    have hb : Basis D (w.Saw i) req v := hb v (List.mem_singleton_self v)
    cases hb with
    | insertUser _ =>
      refine ⟨chain, hkeep ?_ fun r hr => ⟨r, ?_, .refl r, rfl, rfl⟩⟩
      · rw [List.forall_mem_singleton]
        exact fun _ _ hm => hm
      · rwa [hcom] at hr
    | insertRefreshSession _ hm _ => exact ⟨_, h.insert hD hw hs hc hm⟩
    | setTokenHash hf hm _ _ => exact ⟨_, h.rotate hD hw hs hinj hc hf hm⟩
    | setRevokedAt _ _ =>
      refine ⟨chain, hkeep ?_ fun r hr => ?_⟩
      · rw [List.forall_mem_singleton]
        exact fun _ _ hm => hm
      · rw [hcom] at hr
        obtain ⟨r₀, hr₀, rfl⟩ := mem_updateSession.1 hr
        refine ⟨r₀, hr₀, ?_⟩
        split
        · exact ⟨r₀.continues_withRevokedAt _, rfl, rfl⟩
        · exact ⟨.refl r₀, rfl, rfl⟩
  · refine ⟨chain, h.keep hD hw hs (fun e he hold => ?_) (fun r hr => ?_) fun r hr => ?_⟩
    · rw [hadm] at he
      exact absurd he hold
    · rw [hadm] at hr
      exact ⟨r, hr, .refl r, rfl, rfl⟩
    · rw [hadm]
      exact ⟨r, hr, .refl r⟩

end

/-- **The chains of every run**, from a store without sessions. -/
theorem exists_chains (hD : D.store.Valid) (hempty : D.store.refreshSessions = [])
    (hw : D.system.Reachable w) (hinj : Set.InjOn D.ext.sha256hex (tokens w)) :
    ∃ chain, Chains D w chain := by
  refine System.ReachableIf.induct (I := fun w => Set.InjOn D.ext.sha256hex (tokens w) →
    ∃ chain, Chains D w chain) ?_ ?_ hw hinj
  · rintro s rfl -
    have hnone : ∀ r, r ∉ (State.idle D.store D.clock).db.committed.refreshSessions := by
      intro r hr
      rw [show (State.idle D.store D.clock).db.committed = D.store from rfl, hempty] at hr
      cases hr
    refine ⟨fun _ => [], ⟨nofun, ?_, nofun, ?_, ?_⟩⟩
    · rintro i v id t ⟨sid, -, hlog⟩
      cases hlog
    · exact fun r hr => absurd hr (hnone r)
    · rintro i row ⟨_, _, _, hs, -⟩
      cases hs
  · intro w lab w' hw hs _ ih hinj
    have hinj₀ := hinj.mono (grows_step hs).tokens
    obtain ⟨chain, h⟩ := ih hinj₀
    exact h.step hD hw hs hinj₀

/-! ## The lineage of a session -/

/-- The execution `i` rotated the token: it presented it and committed. -/
def Rotated (w : D.World) (i : ℕ) (token : String) : Prop :=
  Requests w i (.refreshToken ⟨token⟩) ∧ ∃ v, Committed w i v

/-- The refresh tokens handed out for a session, each with the execution that returned it. -/
structure Lineage (D : Deployment) (w : D.World) (row : RefreshSessionModel)
    (chain : List (ℕ × String)) : Prop where
  /-- the first is from the execution that created the session, for the user it authenticated -/
  issued : ∃ i token data context u v, chain[0]? = some (i, token) ∧
    Requests w i (.issueToken data context) ∧ Verified D (w.Saw i) data u ∧ u.id = row.userId ∧
    Committed w i (.insertRefreshSession v) ∧ v.id = row.id
  /-- every other is from a committed rotation of this session that presented the one before -/
  rotated : ∀ n e e', chain[n]? = some e → chain[n + 1]? = some e' → Rotated w e'.1 e.2 ∧
    ∃ data, Committed w e'.1 (.setTokenHash data) ∧ data.sessionId = row.id
  /-- its execution returned it, with an access token for the user of the session -/
  handed : ∀ e ∈ chain, ∃ token, Hands w e.1 (.token token) ∧ token.refreshToken = e.2 ∧
    SignedFor D (w.Saw e.1) token.accessToken row.userId
  /-- the row stands at the last token -/
  stored : ∃ n e, chain.length = n + 1 ∧ chain[n]? = some e ∧ row.rotationCounter = n ∧
    row.refreshTokenHash = hashRefreshToken D.ext e.2

section
variable {chain : UUID → List (ℕ × String)} (hD : D.store.Valid) (hw : D.system.Reachable w)
  (h : Chains D w chain) (hinj : Set.InjOn D.ext.sha256hex (tokens w))
include hD hw h hinj

/-- An execution that committed a token it minted is a link of the chain. -/
theorem Chains.mem {v : Write} {id : UUID} {t : String} (hc : Committed w i v)
    (hv : v.Mints D id t) (hm : Minted D (w.Saw i) t) : (i, t) ∈ chain id := by
  obtain ⟨t', ht'⟩ := h.complete i v id t hc hv
  obtain ⟨n, hn⟩ := List.mem_iff_getElem?.1 ht'
  obtain ⟨hm', v', hc', hv', -⟩ := h.link id n _ hn
  obtain rfl := hc.unique hD hw hc'
  have hh : hashRefreshToken D.ext t = hashRefreshToken D.ext t' := by
    cases v with
    | insertRefreshSession | setTokenHash => exact hv.2.symm.trans hv'.2
    | _ => exact hv.elim
  rwa [(minted_ext hw hinj hm hm' hh).2]

omit hinj in
/-- The first link created the session. -/
theorem Chains.issued {id : UUID} {e : ℕ × String} (he : (chain id)[0]? = some e) :
    ∃ data context u row, Requests w e.1 (.issueToken data context) ∧
      Verified D (w.Saw e.1) data u ∧ row.userId = u.id ∧
      Committed w e.1 (.insertRefreshSession row) ∧ row.id = id := by
  obtain ⟨-, v, hc, hv, hfol⟩ := h.link id 0 e he
  obtain ⟨⟨req, prog⟩, resp, hp, -, hb, -⟩ := hc.execution hD hw
  have hb : Basis D (w.Saw e.1) req v := hb
  cases hb with
  | insertRefreshSession hver _ _ => exact ⟨_, _, _, _, ⟨_, hp, rfl⟩, hver, rfl, hc, hv.1⟩
  | _ => exact hfol.elim

/-- Every other link rotated the token of the one before. -/
theorem Chains.rotated {id : UUID} {n : ℕ} {e : ℕ × String} (he : (chain id)[n + 1]? = some e) :
    ∃ prev, (chain id)[n]? = some prev ∧ Rotated w e.1 prev.2 ∧
      ∃ data, Committed w e.1 (.setTokenHash data) ∧ data.sessionId = id := by
  obtain ⟨-, v, hc, hv, hfol⟩ := h.link id (n + 1) e he
  obtain ⟨⟨req, prog⟩, resp, hp, -, hb, -⟩ := hc.execution hD hw
  have hb : Basis D (w.Saw e.1) req v := hb
  cases hb with
  | @setTokenHash data row now minted usedAt _ _ _ _ =>
    obtain ⟨prev, hprev, hh⟩ := hfol
    have hreq : Requests w e.1 (.refreshToken data) := ⟨_, hp, rfl⟩
    have hpm := (minted_once hw prev.1 _ prev.2 (h.link id n prev hprev).1).1
    -- the presented token has the hash of the link before, hence is its token
    have htok : data.refreshToken = prev.2 := hinj (Or.inr ⟨e.1, hreq⟩) (Or.inl hpm) hh
    exact ⟨prev, hprev, ⟨htok ▸ hreq, _, hc⟩, _, hc, hv.1⟩
  | _ => exact hfol.elim

/-- Who presented a token and committed is the link after it. -/
theorem Chains.after_presented {t : String} (hr : Rotated w i t) : ∃ id n e e',
    (chain id)[n]? = some e ∧ e.2 = t ∧ (chain id)[n + 1]? = some e' ∧ e'.1 = i := by
  obtain ⟨⟨p, hp, hreq⟩, v, hc⟩ := hr
  obtain ⟨⟨req, prog⟩, resp, hp', -, hb, -⟩ := hc.execution hD hw
  rw [hp] at hp'
  cases hp'
  cases hreq
  have hb : Basis D (w.Saw i) (.refreshToken ⟨t⟩) v := hb
  cases hb with
  | @setTokenHash _ row now minted usedAt _ hm _ _ =>
    have hmem := h.mem hD hw hinj hc ⟨rfl, rfl⟩ hm
    obtain ⟨n, hn⟩ := List.mem_iff_getElem?.1 hmem
    obtain ⟨-, v', hc', -, hfol⟩ := h.link _ n _ hn
    obtain rfl := hc.unique hD hw hc'
    cases n with
    | zero => exact hfol.elim
    | succ n =>
      obtain ⟨prev, hprev, hh⟩ := hfol
      have hpm := (minted_once hw prev.1 _ prev.2 (h.link _ n prev hprev).1).1
      have htok : t = prev.2 := hinj (Or.inr ⟨i, ⟨_, hp, rfl⟩⟩) (Or.inl hpm) hh
      exact ⟨_, n, prev, _, hprev, htok.symm, hn, rfl⟩

/-- An execution that hands out tokens is a link of the chain of its session. -/
theorem Chains.of_hands {token : TokenDTO} (hh : Hands w i (.token token)) :
    ∃ row ∈ w.shared.db.committed.refreshSessions, (i, token.refreshToken) ∈ chain row.id := by
  obtain ⟨p, hp, hd⟩ := hh
  obtain ⟨sid, v, hi, hlog, -, ho⟩ := delivered hD hw hp hd
  have hmints : ∃ id, v.Mints D id token.refreshToken ∧
      Minted D (w.Saw i) token.refreshToken := by
    cases ho with
    | insertRefreshSession hm hhash _ => exact ⟨_, ⟨rfl, hhash⟩, hm⟩
    | setTokenHash hm hhash _ _ _ => exact ⟨_, ⟨rfl, hhash⟩, hm⟩
  obtain ⟨id, hv, hm⟩ := hmints
  have hmem := h.mem hD hw hinj ⟨sid, hi, hlog⟩ hv hm
  obtain ⟨r, hr, rfl⟩ := h.live id (List.ne_nil_of_mem hmem)
  exact ⟨r, hr, hmem⟩

/-- The execution of a link returned its token to the user of the session. -/
theorem Chains.handed {row : RefreshSessionModel}
    (hrow : row ∈ w.shared.db.committed.refreshSessions) {e : ℕ × String}
    (he : e ∈ chain row.id) : ∃ token, Hands w e.1 (.token token) ∧ token.refreshToken = e.2 ∧
      SignedFor D (w.Saw e.1) token.accessToken row.userId := by
  have hvalid := (inv hD hw).state.valid
  obtain ⟨n, hn⟩ := List.mem_iff_getElem?.1 he
  obtain ⟨hm, v, hc, hv, -⟩ := h.link _ n e hn
  obtain ⟨p, resp, hp, hd, -, ho⟩ := hc.execution hD hw
  cases ho with
  | @insertRefreshSession inserted token hm' hhash hsigned =>
    obtain ⟨r, hr, hcont⟩ := inserted_continues hD hw e.1 inserted hc
    obtain rfl := hvalid.session_ext hr hrow (hcont.id.trans hv.1)
    exact ⟨token, ⟨p, hp, hd⟩, (minted_ext hw hinj hm' hm (hhash.symm.trans hv.2)).2,
      hcont.userId ▸ hsigned⟩
  | @setTokenHash data found token hm' hhash hsaw hid hsigned =>
    obtain ⟨sid, hsaw⟩ := hsaw
    obtain ⟨r, hr, hcont⟩ := (inv hD hw).rows e.1 found
      ⟨sid, _, _, hsaw, List.mem_singleton_self _⟩
    obtain rfl := hvalid.session_ext hr hrow ((hcont.id.trans hid).trans hv.1)
    exact ⟨token, ⟨p, hp, hd⟩, (minted_ext hw hinj hm' hm (hhash.symm.trans hv.2)).2,
      hcont.userId ▸ hsigned⟩
  | _ => exact hv.elim

theorem Chains.lineage {row : RefreshSessionModel}
    (hrow : row ∈ w.shared.db.committed.refreshSessions) : Lineage D w row (chain row.id) := by
  obtain ⟨n, hlen, e, he, hh, hn⟩ := h.last row hrow
  refine ⟨?_, fun m a b ha hb => ?_, fun e he => h.handed hD hw hinj hrow he,
    n, e, hlen, he, hn, hh⟩
  · obtain ⟨first, hfirst⟩ : ∃ first, (chain row.id)[0]? = some first :=
      ⟨_, List.getElem?_eq_getElem (by omega)⟩
    obtain ⟨data, context, u, v, hreq, hver, huser, hc, hid⟩ := h.issued hD hw hfirst
    obtain ⟨r, hr, hcont⟩ := inserted_continues hD hw _ v hc
    obtain rfl := (inv hD hw).state.valid.session_ext hr hrow (hcont.id.trans hid)
    exact ⟨first.1, first.2, data, context, u, v, hfirst, hreq, hver,
      huser.symm.trans hcont.userId.symm, hc, hid⟩
  · obtain ⟨prev, hprev, hrot, hdata⟩ := h.rotated hD hw hinj hb
    rw [ha] at hprev
    cases hprev
    exact ⟨hrot, hdata⟩

/-- A token is in one place of one chain. -/
theorem Chains.token_once {a b : UUID} {m n : ℕ} {e f : ℕ × String}
    (he : (chain a)[m]? = some e) (hf : (chain b)[n]? = some f) (hef : e.2 = f.2) :
    a = b ∧ m = n := by
  have hm : Minted D (w.Saw e.1) e.2 := (h.link a m e he).1
  have hi := (minted_once hw f.1 _ f.2 (h.link b n f hf).1).2 e.1 _ (hef ▸ hm)
  obtain ⟨hab, hmn, -⟩ := h.once hD hw hinj he hf hi
  exact ⟨hab, hmn⟩

/-- Two committed rotations that presented one token are the same link. -/
theorem Chains.rotated_once {t : String} (hi : Rotated w i t) (hj : Rotated w j t) : i = j := by
  obtain ⟨a, m, e, e', he, rfl, he', rfl⟩ := h.after_presented hD hw hinj hi
  obtain ⟨b, n, f, f', hf, hft, hf', rfl⟩ := h.after_presented hD hw hinj hj
  obtain ⟨rfl, rfl⟩ := h.token_once hD hw hinj he hf hft.symm
  rw [he'] at hf'
  cases hf'
  rfl

end

/-- **The refresh tokens of every session form one chain**, in every run. -/
theorem token_chains (hD : D.store.Valid) (hempty : D.store.refreshSessions = [])
    (hw : D.system.Reachable w) (hinj : Set.InjOn D.ext.sha256hex (tokens w)) :
    ∃ chain : UUID → List (ℕ × String),
      -- (1) every stored session has its lineage
      (∀ row ∈ w.shared.db.committed.refreshSessions, Lineage D w row (chain row.id)) ∧
      -- (2) every token handed to a caller is in it
      (∀ i token, Hands w i (.token token) →
        ∃ row ∈ w.shared.db.committed.refreshSessions, (i, token.refreshToken) ∈ chain row.id) ∧
      -- (3) an execution or a token is one link of one chain
      (∀ a b (m n : ℕ) (e f : ℕ × String), (chain a)[m]? = some e → (chain b)[n]? = some f →
        e.1 = f.1 ∨ e.2 = f.2 → a = b ∧ m = n) ∧
      -- (4) no two committed rotations accepted the same token
      (∀ i j token, Rotated w i token → Rotated w j token → i = j) := by
  obtain ⟨chain, h⟩ := exists_chains hD hempty hw hinj
  refine ⟨chain, fun row hrow => h.lineage hD hw hinj hrow,
    fun i token hh => h.of_hands hD hw hinj hh, fun a b m n e f he hf hor => ?_,
    fun i j token hi hj => h.rotated_once hD hw hinj hi hj⟩
  rcases hor with hef | hef
  · obtain ⟨hab, hmn, -⟩ := h.once hD hw hinj he hf hef
    exact ⟨hab, hmn⟩
  · exact h.token_once hD hw hinj he hf hef

theorem token_chains_login_rotate :
    ∃ w, (Sample.deployment .sqlite).schedule (Sample.login .sqlite ++ Sample.rotate .sqlite) =
        some w ∧ w.shared.db.log.length = 2 ∧ ∃ chain : UUID → List (ℕ × String),
      ∀ row ∈ w.shared.db.committed.refreshSessions, Lineage _ w row (chain row.id) := by
  have hrun : ((Sample.deployment .sqlite).schedule
      (Sample.login .sqlite ++ Sample.rotate .sqlite)).any
        (fun w => w.shared.db.log.length == 2) = true := by decide +kernel
  obtain ⟨w, hw, hlen⟩ := (Option.any_eq_true _ _).1 hrun
  obtain ⟨chain, h, -⟩ := token_chains (Sample.valid .sqlite) rfl
    (Deployment.schedule_reachable _ hw) Sample.sha256hex_injective.injOn
  exact ⟨w, hw, by simpa using hlen, chain, h⟩

end FastapiTemplate
