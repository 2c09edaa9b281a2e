/-
  What one answered call does to the shared state: which parts of it a call
  can change (`Frame`), and an inversion lemma for each kind of call.
-/
import FastapiTemplate.Proof.Statements
import FastapiTemplate.Core.UseCases

namespace FastapiTemplate

open Effects Locking Locking.Db

/-- The session a call works on. -/
def Call.session : Call → Option SessionId
  | .begin sid | .flush sid | .commit sid | .rollback sid | .close sid | .setRevokedAt sid _ _
  | .sql sid _ => some sid
  | _ => none

def State.Logged (s : State) (sid : SessionId) : Prop := ∃ ws, (sid, ws) ∈ s.db.log

/-- A step of task `i` on the session `sid` leaves the other tasks and sessions alone. -/
structure Frame (i : ℕ) (sid : Option SessionId) (s s' : State) : Prop where
  scopes : ∀ j, j ≠ i → s'.scopes j = s.scopes j
  sessions : ∀ j u, j ≠ i → ((j, u) ∈ s'.sessions ↔ (j, u) ∈ s.sessions)
  writes : ∀ u, sid ≠ some u → s'.db.writes u = s.db.writes u
  pending : ∀ u, sid ≠ some u → s'.pending u = s.pending u
  log : ∀ u ws, sid ≠ some u → ((u, ws) ∈ s'.db.log ↔ (u, ws) ∈ s.db.log)
  locks : ∀ u l, sid ≠ some u → ((u, l) ∈ s'.db.locks ↔ (u, l) ∈ s.db.locks)
  clock : s.clock ≤ s'.clock

variable {ext : Externals} {d : Dialect} {i : ℕ} {s s' : State} {sid : SessionId}

namespace Frame

theorem refl (i : ℕ) (sid : Option SessionId) (s : State) : Frame i sid s s :=
  ⟨fun _ _ => rfl, fun _ _ _ => Iff.rfl, fun _ _ => rfl, fun _ _ => rfl, fun _ _ _ => Iff.rfl,
    fun _ _ _ => Iff.rfl, le_rfl⟩

theorem write (i : ℕ) (s : State) (ls : List Lock) (ws : List Write)
    (changes : List (UUID × Instant)) :
    Frame i (some sid) s
      { s with db := s.db.write sid ls ws, pending := Function.update s.pending sid changes } where
  scopes _ _ := rfl
  sessions _ _ _ := Iff.rfl
  writes u hu := write_ne _ _ _ _ _ fun h => hu (by rw [h])
  pending u hu := Function.update_of_ne (fun h => hu (by rw [h])) _ _
  log _ _ _ := Iff.rfl
  locks u l hu := by
    rw [mem_locks_write]
    exact or_iff_right fun h => hu (congrArg some h.1.symm)
  clock := le_rfl

theorem release (i : ℕ) (s : State) : Frame i (some sid) s (s.release sid) where
  scopes _ _ := rfl
  sessions _ _ _ := Iff.rfl
  writes u hu := release_ne _ _ _ fun h => hu (by rw [h])
  pending u hu := Function.update_of_ne (fun h => hu (by rw [h])) _ _
  log _ _ _ := Iff.rfl
  locks u l hu := by
    show (u, l) ∈ (s.db.release sid).locks ↔ _
    rw [mem_locks_release]
    exact and_iff_left fun h => hu (congrArg some h.symm)
  clock := le_rfl

theorem commit (i : ℕ) (s : State) :
    Frame i (some sid) s
      { s with
        db := s.db.commit d.schema sid, pending := Function.update s.pending sid [] } where
  scopes _ _ := rfl
  sessions _ _ _ := Iff.rfl
  writes u hu := release_ne _ _ _ fun h => hu (by rw [h])
  pending u hu := Function.update_of_ne (fun h => hu (by rw [h])) _ _
  log u ws hu := by
    rw [commit_log, List.mem_append, List.mem_singleton]
    exact or_iff_left fun h => hu (by rw [(Prod.mk.inj h).1])
  locks u l hu := by
    show (u, l) ∈ (s.db.release sid).locks ↔ _
    rw [mem_locks_release]
    exact and_iff_left fun h => hu (congrArg some h.symm)
  clock := le_rfl

end Frame

/-! ## Inversion -/

/-- All that an ordinary answer can be, with its conditions and its effect. -/
inductive Responded (ext : Externals) (d : Dialect) (i : ℕ) (s : State) :
    (c : Call) → Except Exc (Ret c) → State → Prop
  | scopeGet : Responded ext d i s .scopeGet (.ok (s.scopes i)) s
  | scopeSet {sc} : Responded ext d i s (.scopeSet sc) (.ok ())
      { s with scopes := Function.update s.scopes i sc }
  | sessionFactory {sid : SessionId} : (∀ e ∈ s.sessions, e.2 ≠ sid) →
      Responded ext d i s .sessionFactory (.ok sid) { s with sessions := (i, sid) :: s.sessions }
  | begin {sid : SessionId} : Responded ext d i s (.begin sid) (.ok ()) s
  | flush {sid : SessionId} :
      (∀ l ∈ (pendingWrites (s.pending sid)).flatMap d.schema.guard, s.db.Free sid l) →
      Responded ext d i s (.flush sid) (.ok ())
        { s with
          db := s.db.write sid ((pendingWrites (s.pending sid)).flatMap d.schema.guard)
            (pendingWrites (s.pending sid))
          pending := Function.update s.pending sid [] }
  | stale {sid : SessionId} : s.pending sid ≠ [] →
    Responded ext d i s (.flush sid) (.error .staleData) s
  | commit {sid : SessionId} : Responded ext d i s (.commit sid) (.ok ())
      { s with db := s.db.commit d.schema sid, pending := Function.update s.pending sid [] }
  | rollback {sid : SessionId} : Responded ext d i s (.rollback sid) (.ok ()) (s.release sid)
  | close {sid : SessionId} : Responded ext d i s (.close sid) (.ok ()) (s.release sid)
  | setRevokedAt {sid : SessionId} {id t} : Responded ext d i s (.setRevokedAt sid id t) (.ok ())
      { s with pending := Function.update s.pending sid (s.pending sid ++ [(id, t)]) }
  | sql {sid : SessionId} {q userId} {e : Effect q} :
    q.run (s.db.view d.schema sid) userId = .ok e →
      (∀ l ∈ d.locks e, s.db.Free sid l) → Responded ext d i s (.sql sid q) (.ok e.ret)
        { s with db := s.db.write sid (d.locks e) e.writes }
  | violation {sid : SessionId} {q userId cs c} : q.run (s.db.view d.schema sid) userId =
    .error cs → c ∈ cs →
      q.accepts (s.db.view d.schema sid) userId = true →
      (∀ l ∈ d.violationLocks, s.db.Free sid l) →
      Responded ext d i s (.sql sid q) (.error (.integrityError (d.violation c)))
        { s with db := s.db.write sid d.violationLocks [] }
  | now {t} : s.clock ≤ t → Responded ext d i s .now (.ok t) { s with clock := t }
  | tokenUrlsafe {n t} : t ∉ s.minted →
      Responded ext d i s (.tokenUrlsafe n) (.ok t) { s with minted := t :: s.minted }
  | uuid7 {id} : Responded ext d i s .uuid7 (.ok id) s
  | hashPassword {password salt} :
      Responded ext d i s (.hashPassword password) (.ok (ext.hashPassword salt password)) s
  | jwtEncode {p k a t} : Responded ext d i s (.jwtEncode p k a) (.ok t) s

theorem respond_inv {c : Call} {ch : Choice} {r : Except Exc (Ret c)}
    (h : respond ext d i s c ch = some (r, s')) : Responded ext d i s c r s' := by
  cases c with
  | flush sid =>
    simp only [respond, State.flush] at h
    split at h
    · rename_i hfree
      split at h <;> cases h
      · exact .flush hfree
      · exact .stale fun hp => ‹¬_› (by simp [hp])
    · cases h
  | sql sid q =>
    simp only [respond, State.sql] at h
    split at h
    · rename_i ha
      split at h
      · rename_i e he
        split at h <;> cases h
        exact .sql he ‹_›
      · rename_i cs hcs
        split at h
        · obtain ⟨c, hc, hr⟩ := Option.map_eq_some_iff.1 h
          cases hr
          exact .violation hcs (List.mem_of_getElem? hc) ha ‹_›
        · cases h
    · cases h
  | sessionFactory =>
    simp only [respond] at h
    split at h <;> cases h
    exact .sessionFactory ‹_›
  | now =>
    simp only [respond] at h
    split at h <;> cases h
    exact .now ‹_›
  | tokenUrlsafe n =>
    simp only [respond] at h
    split at h <;> cases h
    exact .tokenUrlsafe ‹_›
  | _ => cases h; constructor

/-- A call is answered in the ordinary way, or it fails for outside reasons: without effect, or
    (a statement) after it took effect. -/
theorem Answer.inv {f : Call → Bool} {c : Call} {r : Except Exc (Ret c)}
    (h : Answer ext d f i s c r s') : Responded ext d i s c r s' ∨
      ∃ code, r = .error (.external code) ∧ f c = true ∧ (s' = s.fault c ∨
        c.isStatement = true ∧ ∃ r', Responded ext d i s c r' s') := by
  obtain ⟨ch, h⟩ := h
  unfold perform at h
  split at h
  · exact Or.inl (respond_inv h)
  · split at h <;> cases h
    exact Or.inr ⟨_, rfl, ‹_›, Or.inl rfl⟩
  · split at h
    · rename_i hf
      obtain ⟨⟨r', t⟩, hr, hrt⟩ := Option.map_eq_some_iff.1 h
      cases hrt
      exact Or.inr ⟨_, rfl, hf.1, Or.inr ⟨hf.2, r', respond_inv hr⟩⟩
    · cases h

/-- Where nothing fails for outside reasons, the answers are those of any other place, and their
    exceptions are the database's. -/
theorem Answer.undisturbed {c : Call} {r : Except Exc (Ret c)}
    (h : Answer ext d (fun _ => false) i s c r s') (f : Call → Bool) :
    Answer ext d f i s c r s' ∧ ∀ code, r ≠ .error (.external code) := by
  constructor
  · obtain ⟨ch, h⟩ := h
    refine ⟨ch, ?_⟩
    unfold perform at h ⊢
    split at h
    · exact h
    · cases h
    · cases h
  · rintro code rfl
    rcases h.inv with h | ⟨_, -, hf, -⟩
    · cases h
    · cases hf

/-- **Frame**: a call changes nothing of the other tasks and sessions. -/
theorem Responded.frame {c : Call} {r : Except Exc (Ret c)} (h : Responded ext d i s c r s') :
    Frame i c.session s s' := by
  have hwrite : ∀ sid ls ws, Frame i (some sid) s { s with db := s.db.write sid ls ws } := by
    intro sid ls ws
    have h : Frame i (some sid) s _ := Frame.write i s ls ws (s.pending sid)
    rwa [Function.update_eq_self] at h
  cases h with
  | scopeSet =>
    exact { Frame.refl i none s with scopes := fun j hj => Function.update_of_ne hj _ _ }
  | sessionFactory hfresh =>
    refine { Frame.refl i none s with sessions := fun j u hj => ?_ }
    rw [List.mem_cons]
    exact or_iff_right fun h => hj (Prod.mk.inj h).1
  | flush => exact .write ..
  | commit => exact .commit ..
  | rollback | close => exact .release ..
  | setRevokedAt =>
    exact { Frame.refl i (some _) s with
      pending := fun u hu => Function.update_of_ne (fun h => hu (congrArg some h.symm)) _ _ }
  | sql | violation => exact hwrite _ _ _
  | now ht => exact { Frame.refl i none s with clock := ht }
  | tokenUrlsafe => exact { Frame.refl i none s with }
  | _ => exact .refl ..

theorem Answer.frame {f : Call → Bool} {c : Call} {r : Except Exc (Ret c)}
    (h : Answer ext d f i s c r s') : Frame i c.session s s' := by
  rcases h.inv with h | ⟨code, -, -, rfl | ⟨-, r', h⟩⟩
  · exact h.frame
  · cases c <;> first | exact .release .. | exact .refl ..
  · exact h.frame

/-- Only a commit changes what is committed. -/
theorem Answer.committed {f : Call → Bool} {c : Call} {r : Except Exc (Ret c)}
    (h : Answer ext d f i s c r s') :
    (s'.db.committed = s.db.committed ∧ s'.db.log = s.db.log) ∨
      ∃ sid, c = .commit sid ∧ (∃ a, r = .ok a) ∧ s' = { s with
        db := s.db.commit d.schema sid, pending := Function.update s.pending sid [] } := by
  rcases h.inv with h | ⟨code, -, -, rfl | ⟨hs, r', h⟩⟩
  · cases h with
    | commit => exact Or.inr ⟨_, rfl, ⟨_, rfl⟩, rfl⟩
    | _ => exact Or.inl ⟨rfl, rfl⟩
  · cases c <;> exact Or.inl ⟨rfl, rfl⟩
  · cases h with
    | commit => cases hs
    | _ => exact Or.inl ⟨rfl, rfl⟩

/-- The calls that change neither transactions nor scopes. -/
def Call.quiet : Call → Bool
  | .scopeGet | .begin _ | .now | .tokenUrlsafe _ | .uuid7 | .hashPassword _ | .jwtEncode .. => true
  | _ => false

theorem Answer.quiet {f : Call → Bool} {c : Call} {r : Except Exc (Ret c)} (hq : c.quiet = true)
    (h : Answer ext d f i s c r s') : s'.db = s.db ∧ s'.pending = s.pending ∧
      s'.scopes = s.scopes ∧ s'.sessions = s.sessions := by
  rcases h.inv with h | ⟨code, -, -, rfl | ⟨-, r', h⟩⟩
  · cases h <;> first | exact ⟨rfl, rfl, rfl, rfl⟩ | cases hq
  · cases c <;> first | exact ⟨rfl, rfl, rfl, rfl⟩ | cases hq
  · cases h <;> first | exact ⟨rfl, rfl, rfl, rfl⟩ | cases hq

/-- Sessions come from the factory, and are new. -/
theorem Answer.sessions {f : Call → Bool} {c : Call} {r : Except Exc (Ret c)}
    (h : Answer ext d f i s c r s') : s'.sessions = s.sessions ∨
      ∃ sid, (∀ e ∈ s.sessions, e.2 ≠ sid) ∧ s'.sessions = (i, sid) :: s.sessions := by
  have key : ∀ {r}, Responded ext d i s c r s' → s'.sessions = s.sessions ∨
      ∃ sid, (∀ e ∈ s.sessions, e.2 ≠ sid) ∧ s'.sessions = (i, sid) :: s.sessions := by
    intro r h
    cases h with
    | sessionFactory hfresh => exact Or.inr ⟨_, hfresh, rfl⟩
    | _ => exact Or.inl rfl
  rcases h.inv with h | ⟨code, -, -, rfl | ⟨-, r', h⟩⟩
  · exact key h
  · cases c <;> exact Or.inl rfl
  · exact key h

/-- Every call keeps the locking discipline. -/
theorem Answer.twoPhase {f : Call → Bool} {c : Call} {r : Except Exc (Ret c)}
    (h : Answer ext d f i s c r s') (ht : TwoPhase d.schema s.db) : TwoPhase d.schema s'.db := by
  have key : ∀ {r}, Responded ext d i s c r s' → TwoPhase d.schema s'.db := by
    intro r h
    cases h with
    | flush hfree => exact ht.write hfree fun w hw l hl => List.mem_flatMap_of_mem hw hl
    | commit => exact ht.commit
    | rollback | close => exact ht.release
    | sql he hfree => exact ht.write hfree (d.locks_cover he)
    | violation _ _ _ hfree => exact ht.write hfree nofun
    | _ => exact ht
  rcases h.inv with h | ⟨code, -, -, rfl | ⟨-, r', h⟩⟩
  · exact key h
  · cases c <;> first | exact ht.release | exact ht
  · exact key h

/-- What a call adds to the uncommitted writes of a transaction: the writes of a statement, or the
    pending changes it flushes. -/
theorem Answer.new_writes {f : Call → Bool} {c : Call} {r : Except Exc (Ret c)}
    (h : Answer ext d f i s c r s') {u : SessionId} {v : Write} (hv : v ∈ s'.db.writes u) :
    v ∈ s.db.writes u ∨
      (∃ q userId, ∃ e : Effect q, c = .sql u q ∧ q.run (s.db.view d.schema u) userId = .ok e ∧
        v ∈ e.writes) ∨
      (c = .flush u ∧ v ∈ pendingWrites (s.pending u)) := by
  by_cases hs : c.session = some u
  swap
  · rw [h.frame.writes u hs] at hv
    exact Or.inl hv
  have hwrite : ∀ {ls ws}, v ∈ (s.db.write u ls ws).writes u → v ∈ s.db.writes u ∨ v ∈ ws := by
    intro ls ws hv
    rwa [write_self, List.mem_append] at hv
  have hrelease : v ∉ (s.db.release u).writes u := by
    rw [release_self]
    exact List.not_mem_nil
  have key : ∀ {r}, Responded ext d i s c r s' → v ∈ s.db.writes u ∨
      (∃ q userId, ∃ e : Effect q, c = .sql u q ∧ q.run (s.db.view d.schema u) userId = .ok e ∧
        v ∈ e.writes) ∨ (c = .flush u ∧ v ∈ pendingWrites (s.pending u)) := by
    intro r h
    cases h with
    | sql he _ =>
      cases hs
      exact (hwrite hv).imp_right fun hv => Or.inl ⟨_, _, _, rfl, he, hv⟩
    | flush _ =>
      cases hs
      exact (hwrite hv).imp_right fun hv => Or.inr ⟨rfl, hv⟩
    | violation =>
      cases hs
      exact Or.inl ((hwrite hv).resolve_right List.not_mem_nil)
    | commit | rollback | close =>
      cases hs
      exact absurd hv hrelease
    | _ => exact Or.inl hv
  rcases h.inv with h | ⟨code, -, -, rfl | ⟨-, r', h⟩⟩
  · exact key h
  · cases c with
    | commit | rollback | close =>
      cases hs
      exact absurd hv hrelease
    | _ => exact Or.inl hv
  · exact key h

end FastapiTemplate
