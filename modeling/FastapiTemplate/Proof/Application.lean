/-
  The protocol holds in every run of the application: `sound`, and what every
  reachable world satisfies.
-/
import FastapiTemplate.Proof.Transactions

namespace FastapiTemplate

open Effects Locking Locking.Db

variable {D : Deployment}

/-- What a local state knows of the world. -/
structure Knows (D : Deployment) (w : D.World) (i : ℕ) (req : Request D.ext) (l : Loc) : Prop where
  seen : ∀ c a, l.saw c a → w.Saw i c a
  failed : l.failed = true → ∃ c e, ⟨i, c, .error e⟩ ∈ w.trace ∧ e.isExternal = true
  clock : ∀ t : Instant, l.saw .now t → t ≤ w.shared.clock
  holds : l.stage.Holds D req l.saw w.shared i

/-- The protocol of the executions. -/
def Deployment.protocol (D : Deployment) :
    Protocol State (Request D.ext) Call Ret Exc Response Loc where
  spec := protocolSpec D
  start := ⟨.outside, [], false⟩
  fin := Ends D
  knows := Knows D

/-- What is true of every reachable world. -/
structure Inv (D : Deployment) (w : D.World) : Prop where
  state : StateInv D w.shared
  idle : ∀ i, w.procs i = none → w.shared.scopes i = none ∧ ∀ u, (i, u) ∉ w.shared.sessions
  rows : ∀ i row, SawRow (w.Saw i) row →
    ∃ r ∈ w.shared.db.committed.refreshSessions, row.Continues r

/-! ## Steps -/

/-- Every committed row has a later version after a call. -/
theorem Answer.continues {s s' : State} {i : ℕ} {c : Call} {r : Except Exc (Ret c)}
    (h : Answer D.ext D.dialect Call.mayFail i s c r s') {row : RefreshSessionModel}
    (hrow : row ∈ s.db.committed.refreshSessions) :
    ∃ row' ∈ s'.db.committed.refreshSessions, row.Continues row' := by
  rcases h.committed with ⟨hcom, -⟩ | ⟨sid, rfl, -, rfl⟩
  · exact ⟨row, hcom ▸ hrow, .refl row⟩
  · exact replay_continues D.dialect _ _ hrow

/-- A step of an execution keeps what its local state knows. -/
theorem Knows.own {w : D.World} {i : ℕ} {req : Request D.ext} {l : Loc} {c : Call}
    {r : Except Exc (Ret c)} {s : State} {p : Proc (Request D.ext) Call Ret Exc Response}
    (hI : Inv D w) (h : Knows D w i req l) (hc : Can D req l.saw l.stage c)
    (ha : Answer D.ext D.dialect Call.mayFail i w.shared c r s) :
    Knows D (w.reply i c r s p) i req (l.after c r) := by
  have hrows : ∀ row, SawRow l.saw row →
      ∃ r ∈ w.shared.db.committed.refreshSessions, row.Continues r := fun row hrow =>
    hI.rows i row (by
      obtain ⟨sid, hash, rows, hs, hm⟩ := hrow
      exact ⟨sid, hash, rows, h.seen _ _ hs, hm⟩)
  refine ⟨fun c' a hs => ?_, fun hf => ?_, fun t ht => ?_, ?_⟩
  · cases r with
    | error e => exact List.mem_cons_of_mem _ (h.seen c' a hs)
    | ok b =>
      rcases List.mem_cons.1 hs with hs | hs
      · cases hs
        exact List.mem_cons_self ..
      · exact List.mem_cons_of_mem _ (h.seen c' a hs)
  · have hold : l.failed = true → ∃ c' e, ⟨i, c', .error e⟩ ∈ (w.reply i c r s p).trace ∧
        e.isExternal = true := fun hl => by
      obtain ⟨c', e, he, hx⟩ := h.failed hl
      exact ⟨c', e, List.mem_cons_of_mem _ he, hx⟩
    cases r with
    | ok b => exact hold hf
    | error e =>
      rcases Bool.or_eq_true_iff.1 hf with hf | hf
      · exact hold hf
      · exact ⟨c, e, List.mem_cons_self .., hf⟩
  · have hclock := ha.frame.clock
    cases r with
    | error e => exact (h.clock t ht).trans hclock
    | ok b =>
      rcases List.mem_cons.1 ht with ht | ht
      · cases ht
        rcases ha.inv with ha | ⟨_, hr, -⟩
        · cases ha
          exact le_rfl
        · cases hr
      · exact (h.clock t ht).trans hclock
  · rw [Loc.stage_after]
    exact h.holds.own hI.state hrows hc ha

/-- And what the local states of the others know. -/
theorem Knows.other {w : D.World} {i j : ℕ} {req req' : Request D.ext} {l l' : Loc} {c : Call}
    {r : Except Exc (Ret c)} {s : State} {p : Proc (Request D.ext) Call Ret Exc Response}
    (hI : Inv D w) (h : Knows D w i req l) (hc : Can D req l.saw l.stage c)
    (ha : Answer D.ext D.dialect Call.mayFail i w.shared c r s) (hj : j ≠ i)
    (h' : Knows D w j req' l') : Knows D (w.reply i c r s p) j req' l' where
  seen c' a hs := List.mem_cons_of_mem _ (h'.seen c' a hs)
  failed hf := by
    obtain ⟨c', e, he, hx⟩ := h'.failed hf
    exact ⟨c', e, List.mem_cons_of_mem _ he, hx⟩
  clock t ht := (h'.clock t ht).trans ha.frame.clock
  holds := Stage.Holds.other hI.state h.holds hc ha hj h'.holds

/-- The rows a call looks up are committed: the execution has written nothing yet. -/
theorem Knows.sawRow {w : D.World} {i j : ℕ} {req : Request D.ext} {l : Loc} {c : Call}
    {r : Except Exc (Ret c)} {s : State} {p : Proc (Request D.ext) Call Ret Exc Response}
    (h : Knows D w i req l) (hc : Can D req l.saw l.stage c)
    (ha : Answer D.ext D.dialect Call.mayFail i w.shared c r s) {row : RefreshSessionModel}
    (hrow : SawRow ((w.reply i c r s p).Saw j) row) :
    SawRow (w.Saw j) row ∨ row ∈ w.shared.db.committed.refreshSessions := by
  obtain ⟨sid, hash, rows, hs, hm⟩ := hrow
  rcases World.saw_reply hs with hs | ⟨rfl, heq⟩
  · exact Or.inl ⟨sid, hash, rows, hs, hm⟩
  cases heq
  rcases ha.inv with ha | ⟨_, hr, -⟩
  · cases ha with
    | sql he _ =>
      cases he
      have hwork : ∃ work, l.stage = .inside sid work ∧ work.writes = [] := by
        revert hc
        generalize l.stage = st
        intro hc
        cases hc with
        | read _ _ hs' => exact ⟨_, rfl, hs' hash rfl⟩
        | write _ => exact ⟨_, rfl, rfl⟩
      obtain ⟨work, hst, hnil⟩ := hwork
      have hin : Inside D req l.saw w.shared j sid work := by
        have := h.holds
        rwa [hst] at this
      have hv := hin.view
      rw [hnil, Schema.replay_nil] at hv
      exact Or.inr (hv ▸ (List.mem_filter.1 hm).1)
  · cases hr

theorem Inv.call {w : D.World} {i : ℕ} {req : Request D.ext} {l : Loc} {c : Call}
    {r : Except Exc (Ret c)} {s : State}
    {k : Except Exc (Ret c) → Prog Call Ret Exc Response} (hI : Inv D w)
    (h : Knows D w i req l) (hc : Can D req l.saw l.stage c)
    (hi : w.procs i = some ⟨req, .call c k⟩)
    (ha : Answer D.ext D.dialect Call.mayFail i w.shared c r s) :
    Inv D (w.reply i c r s ⟨req, k r⟩) := by
  refine ⟨hI.state.answer h.holds h.clock hc ha, fun j hj => ?_, ?_⟩
  · by_cases hij : j = i
    · subst hij
      rw [World.reply_self] at hj
      cases hj
    · rw [World.reply_ne _ _ _ _ _ _ _ hij] at hj
      obtain ⟨h₁, h₂⟩ := hI.idle j hj
      exact ⟨(ha.frame.scopes j hij).trans h₁, fun u hu => h₂ u ((ha.frame.sessions j u hij).1 hu)⟩
  · intro j row hrow
    have hold : ∃ r ∈ w.shared.db.committed.refreshSessions, row.Continues r := by
      rcases h.sawRow hc ha hrow with hrow | hrow
      · exact hI.rows j row hrow
      · exact ⟨row, hrow, .refl row⟩
    obtain ⟨r₁, hr₁, hc₁⟩ := hold
    obtain ⟨r₂, hr₂, hc₂⟩ := Answer.continues ha hr₁
    exact ⟨r₂, hr₂, hc₁.trans hc₂⟩

/-! ## Administration -/

theorem Administers.fits {s s' : State} (h : Administers s s') {w : Write}
    (hw : w.Fits s.db.committed) : w.Fits s'.db.committed := by
  obtain ⟨f, hf, rfl⟩ := h
  cases w with
  | insertUser row =>
    intro u hu
    obtain ⟨v, hv, rfl⟩ := List.mem_map.1 hu
    obtain ⟨h₁, h₂, h₃⟩ := hf v
    rw [h₁, h₂, h₃]
    exact hw v hv
  | _ => exact hw

theorem Administers.frame {s s' : State} (h : Administers s s') (i : ℕ) : Frame i none s s' := by
  obtain ⟨f, -, rfl⟩ := h
  exact { Frame.refl i none s with }

theorem Administers.inv {s s' : State} (h : Administers s s') (hI : StateInv D s) :
    StateInv D s' := by
  obtain ⟨f, hf, rfl⟩ := h
  have key : ∀ {β : Type} (g : UserModel → β), (∀ u, g (f u) = g u) →
      (s.db.committed.users.map g).Nodup → ((s.db.committed.users.map f).map g).Nodup := by
    intro β g hg h
    rwa [List.map_map, show g ∘ f = g from funext hg]
  exact {
    twoPhase := ⟨hI.twoPhase.exclusive, hI.twoPhase.covered⟩
    valid := ⟨key _ (fun u => (hf u).1) hI.valid.userIds,
      key _ (fun u => (hf u).2.1) hI.valid.usernames, key _ (fun u => (hf u).2.2) hI.valid.emails,
      hI.valid.sessionIds, hI.valid.tokenHashes⟩
    owner := hI.owner
    stranger := hI.stranger
    log := hI.log
    created := hI.created }

/-! ## Soundness -/

/-- **The protocol of the application is sound** for a store that satisfies the constraints. -/
theorem sound (hD : D.store.Valid) : D.protocol.Sound D.system (Inv D) where
  init s hs := by
    obtain rfl := hs
    refine ⟨⟨.idle, hD, nofun, fun _ _ => ⟨rfl, rfl, nofun⟩, List.nodup_nil, ?_⟩,
      fun _ _ => ⟨rfl, nofun⟩, ?_⟩
    · exact fun r hr hnew => absurd (List.mem_map_of_mem hr) hnew
    · rintro i row ⟨_, _, _, hs, -⟩
      cases hs
  conforms req _ := execute_conforms req rfl
  spawn w i req hI hi _ := by
    refine ⟨⟨hI.state, fun j hj => ?_, hI.rows⟩, nofun, nofun, nofun, ?_⟩
    · by_cases hij : j = i
      · subst hij
        rw [World.setProc_self] at hj
        cases hj
      · rw [World.setProc_ne _ _ _ _ hij] at hj
        exact hI.idle j hj
    · obtain ⟨h₁, h₂⟩ := hI.idle i hi
      refine ⟨h₁, h₂, ?_⟩
      rintro row ⟨_, _, _, hs, -⟩
      cases hs
  spawn_other w i p j req l _ _ _ h := ⟨h.seen, h.failed, h.clock, h.holds⟩
  own w i req l c k r s hI h hc hi ha :=
    ⟨hI.call h hc hi ha, l.after c r, h.holds.next rfl hI.state (fun row hrow => hI.rows i row (by
      obtain ⟨sid, hash, rows, hs, hm⟩ := hrow
      exact ⟨sid, hash, rows, h.seen _ _ hs, hm⟩)) hc ha, h.own hI hc ha⟩
  other w i req l c k r s hI h hc _ ha j req' l' hj h' := h.other hI hc ha hj h'
  environment w s hI ha := by
    refine ⟨⟨Administers.inv ha hI.state, ?_, ?_⟩, fun j req l h => ⟨h.seen, h.failed, ?_, ?_⟩⟩
    · obtain ⟨f, -, rfl⟩ := ha
      exact hI.idle
    · obtain ⟨f, -, rfl⟩ := ha
      exact hI.rows
    · obtain ⟨f, -, rfl⟩ := ha
      exact h.clock
    · refine h.holds.frame (Administers.frame ha (j + 1)) (by omega) nofun
        (fun u w _ _ hw => Administers.fits ha hw) fun u row _ _ _ hm => ?_
      obtain ⟨f, -, rfl⟩ := ha
      exact hm

end FastapiTemplate
