/-
  What the log of commits says about executions, and the other way round: an
  execution is on the log iff it returns (`logged`, `delivered`), with the one
  write its result stands for; an execution that raises is not (`raised`).
-/
import FastapiTemplate.Proof.Application

namespace FastapiTemplate

open Effects Locking Locking.Db

/-- The rest of a program only ends its unit of work and returns `resp`. -/
inductive Delivers (resp : Response) : App Response → Prop
  | ret : Delivers resp (.ret resp)
  | close {sid k} : Delivers resp (k (.ok ())) → Delivers resp (.call (.close sid) k)
  | leave {k} : Delivers resp (k (.ok ())) → Delivers resp (.call (.scopeSet none) k)

variable {D : Deployment} {req : Request D.ext} {l : Loc} {sid : SessionId} {work : Work}

theorem saw_closing {c : Call} {r : Except Exc (Ret c)} (hc : c.closing = true) :
    ∀ c' a, c'.closing = false → (l.after c r).saw c' a → l.saw c' a := by
  intro c' a hc' h
  cases r with
  | error => exact h
  | ok b =>
    rcases List.mem_cons.1 h with h | h
    · cases h
      rw [hc] at hc'
      cases hc'
    · exact h

/-- After the commit an execution can only return. -/
theorem wp_committed {p : App Response} (h : wp (protocolSpec D req) p (Ends D req) l)
    (hl : l.stage = .committed sid work) :
    ∃ resp v, Delivers resp p ∧ work = .wrote v ∧ Outcome D l.saw v resp := by
  induction p generalizing l with
  | ret resp =>
    obtain ⟨sid', v, hst, -, ho⟩ := h
    rw [hl] at hst
    cases hst
    exact ⟨resp, v, .ret, rfl, ho⟩
  | raise e => exact absurd hl (h.1 sid work)
  | call c k ih =>
    obtain ⟨hc, hk⟩ := h
    have hc : Can D req l.saw l.stage c := hc
    rw [hl] at hc
    cases hc with
    | scopeGet hlooks => exact hlooks.elim
    | closeCommitted =>
      obtain ⟨resp, v, hd, hw, ho⟩ := ih (.ok ()) (hk _ _ ⟨rfl, trivial⟩) (by
        rw [Loc.stage_after, hl]; rfl)
      exact ⟨resp, v, .close hd, hw, ho.mono (saw_closing rfl)⟩
    | leaveCommitted =>
      obtain ⟨resp, v, hd, hw, ho⟩ := ih (.ok ()) (hk _ _ ⟨rfl, trivial⟩) (by
        rw [Loc.stage_after, hl]; rfl)
      exact ⟨resp, v, .leave hd, hw, ho.mono (saw_closing rfl)⟩

/-- Only after the commit can an execution be about to return. -/
theorem Delivers.committed {p : App Response} {resp : Response} (hd : Delivers resp p)
    (h : wp (protocolSpec D req) p (Ends D req) l) :
    ∃ sid v, l.stage = .committed sid (.wrote v) ∧ Outcome D l.saw v resp := by
  induction hd generalizing l with
  | ret =>
    obtain ⟨sid, v, hst, -, ho⟩ := h
    exact ⟨sid, v, hst, ho⟩
  | @close sid' k _ ih =>
    obtain ⟨sid, v, hst, ho⟩ := ih (h.2 (.ok ()) _ ⟨rfl, trivial⟩)
    have hc : Can D req l.saw l.stage (.close sid') := h.1
    rw [Loc.stage_after] at hst
    revert hst hc
    cases hls : l.stage with
    | committed => exact fun hst hc => ⟨sid, v, hst, ho.mono (saw_closing rfl)⟩
    | broken => exact fun hst hc => by cases hst
    | aborted => exact fun hst hc => by cases hst
    | _ => exact fun _ hc => by cases hc
  | @leave k _ ih =>
    obtain ⟨sid, v, hst, ho⟩ := ih (h.2 (.ok ()) _ ⟨rfl, trivial⟩)
    have hc : Can D req l.saw l.stage (.scopeSet none) := h.1
    rw [Loc.stage_after] at hst
    revert hst hc
    cases hls : l.stage with
    | committed => exact fun hst hc => ⟨sid, v, hst, ho.mono (saw_closing rfl)⟩
    | aborted => exact fun hst hc => by cases hst
    | _ => exact fun _ hc => by cases hc

variable {w w' : D.World} {i : ℕ} {p : Proc (Request D.ext) Call Ret Exc Response}

/-- An execution owns one session, and that session is on the log iff the execution's stage says
    so. -/
theorem Knows.logged (h : Knows D w i req l) {u : SessionId} (hu : (i, u) ∈ w.shared.sessions)
    (hlog : w.shared.Logged u) :
    ∃ work, l.stage = .committed u work ∧ (u, work.writes) ∈ w.shared.db.log ∧
      ∀ v ∈ work.writes, Basis D l.saw req v := by
  have hh := h.holds
  revert hh
  cases hst : l.stage with
  | outside => exact fun hh => absurd hu (hh.2.1 u)
  | opened sid => exact fun hh => absurd hlog (hh.2.1.only u hu ▸ hh.2.2.1)
  | inside sid work => exact fun hh => absurd hlog (hh.owns.only u hu ▸ hh.unlogged)
  | broken sid => exact fun hh => absurd hlog (hh.2.1.only u hu ▸ hh.2.2)
  | aborted sid => exact fun hh => absurd hlog (hh.1.only u hu ▸ hh.2)
  | committed sid work =>
    rintro ⟨ho, hm, hb⟩
    obtain rfl := ho.only u hu
    exact ⟨work, rfl, hm, hb⟩

section
variable (hD : D.store.Valid) (hw : D.system.Reachable w)
include hD hw

theorem inv : Inv D w := ((sound hD).annotated hw).1

theorem annotated (hp : w.procs i = some p) : ∃ l, D.protocol.At w i p l :=
  ((sound hD).annotated hw).2 i p hp

/-- **Who is on the log**: an execution that returns, with the one write of its result. -/
theorem logged {ws : List Write} (h : (sid, ws) ∈ w.shared.db.log) :
    ∃ i p resp v, (i, sid) ∈ w.shared.sessions ∧ w.procs i = some p ∧ Delivers resp p.prog ∧
      ws = [v] ∧ Basis D (w.Saw i) p.request v ∧ Outcome D (w.Saw i) v resp := by
  have hI := inv hD hw
  have hown : ∃ i, (i, sid) ∈ w.shared.sessions := by
    by_contra hno
    exact (hI.state.stranger sid (not_exists.1 hno)).2.2 ⟨ws, h⟩
  obtain ⟨i, hi⟩ := hown
  cases hp : w.procs i with
  | none => exact absurd hi ((hI.idle i hp).2 sid)
  | some p =>
    obtain ⟨l, hwp, hk⟩ := annotated hD hw hp
    obtain ⟨work, hst, hlog, hb⟩ := Knows.logged hk hi ⟨ws, h⟩
    obtain ⟨resp, v, hd, rfl, ho⟩ := wp_committed hwp hst
    have hws : ws = [v] := by
      have := List.inj_on_of_nodup_map hI.state.log h hlog rfl
      exact (Prod.mk.inj this).2
    exact ⟨i, p, resp, v, hi, hp, hd, hws, (hb v (List.mem_singleton_self v)).mono hk.seen,
      ho.mono fun c a _ => hk.seen c a⟩

/-- **Who returns is on the log.** -/
theorem delivered (hp : w.procs i = some p) {resp : Response} (hd : Delivers resp p.prog) :
    ∃ sid v, (i, sid) ∈ w.shared.sessions ∧ (sid, [v]) ∈ w.shared.db.log ∧
      Basis D (w.Saw i) p.request v ∧ Outcome D (w.Saw i) v resp := by
  obtain ⟨l, hwp, hk⟩ := annotated hD hw hp
  obtain ⟨sid, v, hst, ho⟩ := hd.committed hwp
  have hh : l.stage.Holds D p.request l.saw w.shared i := Knows.holds hk
  rw [hst] at hh
  exact ⟨sid, v, hh.1.mem, hh.2.1, (hh.2.2 v (List.mem_singleton_self v)).mono hk.seen,
    ho.mono fun c a _ => hk.seen c a⟩

/-- **Who raises is not**, and either a call failed for outside reasons or the error is one the
    workflow raises itself. -/
theorem raised {e : Exc} (hp : w.procs i = some ⟨req, .raise e⟩) :
    (∀ u, (i, u) ∈ w.shared.sessions → ¬w.shared.Logged u) ∧
      ((∃ c e, ⟨i, c, .error e⟩ ∈ w.trace ∧ e.isExternal = true) ∨ Anticipated D req e) := by
  obtain ⟨l, hwp, hk⟩ := annotated hD hw hp
  obtain ⟨hun, hf⟩ := hwp
  refine ⟨fun u hu hlog => ?_, hf.imp_left (Knows.failed hk)⟩
  obtain ⟨work, hst, -⟩ := Knows.logged hk hu hlog
  exact hun u work hst

end

/-! ## Commits -/

/-- A step in which execution `i` commits `ws`. -/
structure Commits (D : Deployment) (w w' : D.World) (i : ℕ) (sid : SessionId) (ws : List Write) :
    Prop where
  proc : ∃ p, w.procs i = some p ∧ ∀ v ∈ ws, Basis D (w.Saw i) p.request v
  owned : (i, sid) ∈ w.shared.sessions
  unlogged : ¬w.shared.Logged sid
  short : ws = [] ∨ ∃ v, ws = [v]
  fits : ∀ v ∈ ws, v.Fits w.shared.db.committed
  writes : w.shared.db.writes sid = ws
  committed : w'.shared.db.committed = D.dialect.schema.replay w.shared.db.committed ws
  log : w'.shared.db.log = w.shared.db.log ++ [(sid, ws)]

theorem Work.short (work : Work) : work.writes = [] ∨ ∃ v, work.writes = [v] := by
  cases work with
  | wrote v => exact Or.inr ⟨v, rfl⟩
  | _ => exact Or.inl rfl

/-- **What a step does to the committed store**: nothing, a commit, or administration. -/
theorem store_step (hD : D.store.Valid) (hw : D.system.Reachable w)
    {lab : Label (Request D.ext) Call} (hs : D.system.Step w lab w') :
    (w'.shared.db.committed = w.shared.db.committed ∧ w'.shared.db.log = w.shared.db.log) ∨
    (∃ i sid ws, lab = .call i (.commit sid) ∧ Commits D w w' i sid ws) ∨
    (lab = .environment ∧ Administers w.shared w'.shared) := by
  cases hs with
  | spawn => exact Or.inl ⟨rfl, rfl⟩
  | environment he => exact Or.inr (Or.inr ⟨rfl, he⟩)
  | @call i req c k r s hi ha =>
    have ha : Answer D.ext D.dialect Call.mayFail i w.shared c r s := ha
    rcases ha.committed with h | ⟨sid, rfl, -, rfl⟩
    · exact Or.inl h
    · obtain ⟨l, hwp, hk⟩ := annotated hD hw hi
      have hc : Can D req l.saw l.stage (.commit sid) := hwp.1
      have hh : l.stage.Holds D req l.saw w.shared i := Knows.holds hk
      revert hc hh
      generalize l.stage = st
      intro hc hh
      cases hc with
      | @commit _ work _ =>
        have hin : Inside D req l.saw w.shared i sid work := hh
        exact Or.inr (Or.inl ⟨i, sid, work.writes, rfl, {
          proc := ⟨_, hi, fun v hv => (hin.basis v hv).mono hk.seen⟩
          owned := hin.owns.mem
          unlogged := hin.unlogged
          short := work.short
          fits := hin.fits
          writes := hin.writes
          committed := hin.view
          log := by
            rw [← hin.writes]
            rfl }⟩)

/-! ## What only grows -/

/-- The execution `i` serves the request. -/
def Requests (w : D.World) (i : ℕ) (req : Request D.ext) : Prop :=
  ∃ p, w.procs i = some p ∧ p.request = req

/-- The execution `i` committed the write. -/
def Committed (w : D.World) (i : ℕ) (v : Write) : Prop :=
  ∃ sid, (i, sid) ∈ w.shared.sessions ∧ (sid, [v]) ∈ w.shared.db.log

/-- The execution `i` hands `resp` to its caller. -/
def Hands (w : D.World) (i : ℕ) (resp : Response) : Prop :=
  ∃ p, w.procs i = some p ∧ Delivers resp p.prog

/-- What steps only add to. -/
structure Grows (w w' : D.World) : Prop where
  sessions : ∀ e ∈ w.shared.sessions, e ∈ w'.shared.sessions
  log : ∀ e ∈ w.shared.db.log, e ∈ w'.shared.db.log
  saw : ∀ i c a, w.Saw i c a → w'.Saw i c a
  minted : ∀ t ∈ w.shared.minted, t ∈ w'.shared.minted
  requests : ∀ i req, Requests w i req → Requests w' i req

theorem Answer.minted {ext : Externals} {d : Dialect} {f : Call → Bool} {s s' : State} {c : Call}
    {r : Except Exc (Ret c)} (h : Answer ext d f i s c r s') : s'.minted = s.minted ∨
      ∃ t, t ∉ s.minted ∧ s'.minted = t :: s.minted := by
  have key : ∀ {r}, Responded ext d i s c r s' → s'.minted = s.minted ∨
      ∃ t, t ∉ s.minted ∧ s'.minted = t :: s.minted := by
    intro r h
    cases h with
    | tokenUrlsafe ht => exact Or.inr ⟨_, ht, rfl⟩
    | _ => exact Or.inl rfl
  rcases h.inv with h | ⟨code, -, -, rfl | ⟨-, r', h⟩⟩
  · exact key h
  · cases c <;> exact Or.inl rfl
  · exact key h

theorem grows_step {lab : Label (Request D.ext) Call} (hs : D.system.Step w lab w') :
    Grows w w' := by
  have hreq : ∀ i req, Requests w i req → Requests w' i req := by
    rintro i req ⟨p, hp, rfl⟩
    obtain ⟨p', hp', hr⟩ := hs.request hp
    exact ⟨p', hp', hr⟩
  cases hs with
  | spawn => exact ⟨fun _ h => h, fun _ h => h, fun _ _ _ h => h, fun _ h => h, hreq⟩
  | environment he =>
    obtain ⟨f, -, rfl⟩ := he
    exact ⟨fun _ h => h, fun _ h => h, fun _ _ _ h => h, fun _ h => h, hreq⟩
  | @call i req c k r s hi ha =>
    have ha : Answer D.ext D.dialect Call.mayFail i w.shared c r s := ha
    refine ⟨fun e he => ?_, fun e he => ?_, fun j c a h => List.mem_cons_of_mem _ h,
      fun t ht => ?_, hreq⟩
    · rcases ha.sessions with hse | ⟨sid, -, hse⟩ <;> rw [World.reply_shared, hse]
      · exact he
      · exact List.mem_cons_of_mem _ he
    · rcases ha.committed with ⟨-, hlog⟩ | ⟨sid, rfl, -, rfl⟩
      · rw [World.reply_shared, hlog]
        exact he
      · exact List.mem_append_left _ he
    · rcases ha.minted with hm | ⟨t', -, hm⟩ <;> rw [World.reply_shared, hm]
      · exact ht
      · exact List.mem_cons_of_mem _ ht

theorem Committed.grows {v : Write} (h : Committed w i v) (hg : Grows w w') : Committed w' i v :=
  h.imp fun _ h => ⟨hg.sessions _ h.1, hg.log _ h.2⟩

section
variable (hD : D.store.Valid) (hw : D.system.Reachable w)
include hD hw

/-- The execution that committed a write knows what it is based on, and returns for it. -/
theorem Committed.execution {v : Write} (h : Committed w i v) :
    ∃ p resp, w.procs i = some p ∧ Delivers resp p.prog ∧ Basis D (w.Saw i) p.request v ∧
      Outcome D (w.Saw i) v resp := by
  obtain ⟨sid, hi, hlog⟩ := h
  obtain ⟨j, p, resp, v', hj, hp, hd, hv, hb, ho⟩ := logged hD hw hlog
  obtain rfl : v = v' := List.singleton_inj.1 hv
  obtain rfl := (inv hD hw).state.owner i j sid hi hj
  exact ⟨p, resp, hp, hd, hb, ho⟩

/-- An execution commits one write. -/
theorem Committed.unique {v v' : Write} (h : Committed w i v) (h' : Committed w i v') :
    v = v' := by
  obtain ⟨p, resp, hp, hd, -⟩ := h.execution hD hw
  obtain ⟨l, hwp, hk⟩ := annotated hD hw hp
  obtain ⟨sid, hi, hlog⟩ := h
  obtain ⟨sid', hi', hlog'⟩ := h'
  obtain ⟨work, hst, -⟩ := Knows.logged hk hi ⟨_, hlog⟩
  obtain ⟨work', hst', -⟩ := Knows.logged hk hi' ⟨_, hlog'⟩
  rw [hst] at hst'
  cases hst'
  have := List.inj_on_of_nodup_map (inv hD hw).state.log hlog hlog' rfl
  exact List.singleton_inj.1 (Prod.mk.inj this).2

/-- The rows looked up in a step were committed before it. -/
theorem sawRow_step {lab : Label (Request D.ext) Call} (hs : D.system.Step w lab w') {j : ℕ}
    {row : RefreshSessionModel} (hrow : SawRow (w'.Saw j) row) :
    SawRow (w.Saw j) row ∨ row ∈ w.shared.db.committed.refreshSessions := by
  cases hs with
  | spawn | environment => exact Or.inl hrow
  | @call i req c k r s hi ha =>
    obtain ⟨l, hwp, hk⟩ := annotated hD hw hi
    exact Knows.sawRow hk hwp.1 ha hrow

end

/-! ## Commits and rows over a run -/

/-- An execution has one session, so it commits once. -/
theorem Commits.fresh {ws : List Write} (h : Commits D w w' i sid ws) (hD : D.store.Valid)
    (hw : D.system.Reachable w) {v : Write} : ¬Committed w i v := by
  rintro ⟨sid', hi, hlog⟩
  obtain ⟨p, hp, -⟩ := h.proc
  obtain ⟨l, hwp, hk⟩ := annotated hD hw hp
  obtain ⟨work, hst, -⟩ := Knows.logged hk hi ⟨_, hlog⟩
  have hh : l.stage.Holds D p.request l.saw w.shared i := Knows.holds hk
  rw [hst] at hh
  obtain rfl := hh.1.only _ h.owned
  exact h.unlogged ⟨_, hlog⟩

section
variable {lab : Label (Request D.ext) Call} (hD : D.store.Valid) (hw : D.system.Reachable w)
  (hs : D.system.Step w lab w') {j : ℕ}
include hD hw hs

/-- What a step adds to what executions committed is on the log for the first time. -/
theorem Committed.new {v : Write} (h : Committed w' j v) : Committed w j v ∨
    ∃ sid, (j, sid) ∈ w'.shared.sessions ∧ (sid, [v]) ∈ w'.shared.db.log ∧
      (sid, [v]) ∉ w.shared.db.log := by
  obtain ⟨sid, hj, hlog⟩ := h
  by_cases hold : (sid, [v]) ∈ w.shared.db.log
  · obtain ⟨k, p, resp, v', hk, -⟩ := logged hD hw hold
    obtain rfl := (inv hD (hw.step hs trivial)).state.owner j k sid hj
      ((grows_step hs).sessions _ hk)
    exact Or.inl ⟨sid, hk, hold⟩
  · exact Or.inr ⟨sid, hj, hlog, hold⟩

/-- What a commit adds. -/
theorem Commits.committed_iff {sid : SessionId} {v : Write} (h : Commits D w w' i sid [v])
    {u : Write} : Committed w' j u ↔ Committed w j u ∨ j = i ∧ u = v := by
  have hg := grows_step hs
  constructor
  · intro hc
    rcases Committed.new hD hw hs hc with hc | ⟨sid', hj, hlog, hnew⟩
    · exact Or.inl hc
    · rw [h.log, List.mem_append, List.mem_singleton] at hlog
      cases hlog.resolve_left hnew
      exact Or.inr ⟨(inv hD (hw.step hs trivial)).state.owner j i _ hj
        (hg.sessions _ h.owned), rfl⟩
  · rintro (hc | ⟨rfl, rfl⟩)
    · exact hc.grows hg
    · exact ⟨sid, hg.sessions _ h.owned, by rw [h.log]; exact List.mem_append_right _ (by simp)⟩

/-- What an execution committed, it had committed before the step, or it commits it now. -/
theorem Committed.step {v : Write} (h : Committed w' j v) :
    Committed w j v ∨ ∃ sid, Commits D w w' j sid [v] := by
  rcases Committed.new hD hw hs h with h | ⟨sid, hj, hlog, hnew⟩
  · exact Or.inl h
  rcases store_step hD hw hs with ⟨-, hsame⟩ | ⟨i, sid', ws, -, hc⟩ | ⟨-, f, -, hadm⟩
  · exact absurd (hsame ▸ hlog) hnew
  · rw [hc.log, List.mem_append, List.mem_singleton] at hlog
    cases hlog.resolve_left hnew
    obtain rfl := (inv hD (hw.step hs trivial)).state.owner j i sid hj
      ((grows_step hs).sessions _ hc.owned)
    exact Or.inr ⟨sid, hc⟩
  · rw [hadm] at hlog
    exact absurd hlog hnew

/-- Every committed row has a later version after a step. -/
theorem continues_step {r : RefreshSessionModel}
    (hr : r ∈ w.shared.db.committed.refreshSessions) :
    ∃ r' ∈ w'.shared.db.committed.refreshSessions, r.Continues r' := by
  rcases store_step hD hw hs with ⟨hcom, -⟩ | ⟨i, sid, ws, -, hc⟩ | ⟨-, f, -, hadm⟩
  · exact ⟨r, hcom ▸ hr, .refl r⟩
  · rw [hc.committed]
    exact replay_continues D.dialect ws _ hr
  · rw [hadm]
    exact ⟨r, hr, .refl r⟩

end

/-- **An inserted session stays**, in later versions. -/
theorem inserted_continues (hD : D.store.Valid) (hw : D.system.Reachable w) :
    ∀ i row, Committed w i (.insertRefreshSession row) →
      ∃ r ∈ w.shared.db.committed.refreshSessions, row.Continues r := by
  refine System.ReachableIf.induct (I := fun w : D.World => ∀ i row,
    Committed w i (.insertRefreshSession row) →
      ∃ r ∈ w.shared.db.committed.refreshSessions, row.Continues r) ?_ ?_ hw
  · rintro s rfl i row ⟨sid, -, hlog⟩
    cases hlog
  · intro w lab w' hw hs _ ih i row hc
    rcases Committed.step hD hw hs hc with hc | ⟨sid, hk⟩
    · obtain ⟨r, hr, hcont⟩ := ih i row hc
      obtain ⟨r', hr', hcont'⟩ := continues_step hD hw hs hr
      exact ⟨r', hr', hcont.trans hcont'⟩
    · rw [hk.committed]
      exact ⟨row, List.mem_append_right _ (List.mem_singleton_self row), .refl row⟩

/-- A process that a schedule starts keeps its request. -/
theorem schedule_requests {i : ℕ} {req : Request D.ext}
    {actions : List (Action (Request D.ext) Choice)}
    (h : D.schedule (.spawn i req :: actions) = some w) : Requests w i req := by
  have answers : ∀ i s c ch r s', perform D.ext D.dialect Call.mayFail i s c ch = some (r, s') →
      D.system.answer i s c r s' := fun _ _ _ ch _ _ h => ⟨ch, h⟩
  have key : ∀ {v : D.World}, Requests v i req →
      D.system.schedule (perform D.ext D.dialect Call.mayFail) v actions = some w →
      Requests w i req := by
    clear h
    induction actions with
    | nil =>
      intro v hv h
      cases h
      exact hv
    | cons a actions ih =>
      intro v hv h
      obtain ⟨u, hu, h⟩ := Option.bind_eq_some_iff.1 h
      obtain ⟨l, hs, -⟩ := System.act_step (fun _ => trivial) answers hu
      exact ih ((grows_step hs).requests i req hv) h
  rw [Deployment.schedule, System.schedule, List.foldlM_cons] at h
  exact key ⟨_, World.setProc_self .., rfl⟩ h

/-! ## A sample installation -/

namespace Sample

def tokenA : String := "kA3sX9vQ2mLr7TzWb1NcY5dEu8HgJfPoI4qRtV6xZyM"
def tokenB : String := "Zq8_Fh2kUu0xPpLrT5yNw7Ej3Gs1AvBdCmIoKlQ9RtY"
def password : String := "correct horse battery staple"
def salt : String := "MIIRqgvgQbgj220jfp0MPA"
def passwordHash : String :=
  "$argon2id$v=19$m=65536,t=3,p=4$MIIRqgvgQbgj220jfp0MPA$YfwJSVjtjSU0zzV/P3S9nnQ/USre2wvJMjfCIjrTQbg"

def digestA : String := "2292b46df67e4a57ba8f5daf057c88635e98baadc8ca319fb138e582f1a9c7b5"
def digestB : String := "8d7aa542efd79e5b11bd7393c85a3c78976f3205a8e4b8fb46288c13e06396c7"

/-- The digests of the sample tokens; the prefix keeps the function injective elsewhere. -/
def sha256hex (t : String) : String :=
  if t = tokenA then digestA else if t = tokenB then digestB else "sha256:" ++ t

/-- Compatibility decomposition of the two characters the samples use. -/
def decompose (c : Char) : List Char :=
  if c = Char.ofNat 0xA8 then [' ', Char.ofNat 0x308]
  else if c = Char.ofNat 0xFDFA then
    [0x635, 0x644, 0x649, 0x20, 0x627, 0x644, 0x644, 0x647, 0x20, 0x639, 0x644, 0x64A, 0x647, 0x20,
      0x648, 0x633, 0x644, 0x645].map Char.ofNat
  else [c]

def externals : Externals where
  sha256hex := sha256hex
  nfkc s := String.ofList (s.toList.flatMap decompose)
  casefold := Text.lower
  isnumeric s := s ≠ "" ∧ s.toList.all Char.isDigit
  emailStr s := if s.toList.contains '@' then some s else none
  hashPassword salt password :=
    if salt = Sample.salt ∧ password = Sample.password then passwordHash
    else "$argon2id$" ++ salt ++ "$" ++ password
  verifyPassword password hash :=
    .ok (decide (hash = passwordHash ∧ password = Sample.password) ||
      ("$" ++ password).toList.isSuffixOf hash.toList)

/-- One account, and no session. -/
def deployment (d : Dialect) : Deployment where
  ext := externals
  dialect := d
  settings := ⟨{}, { secretKey := "secret" }, {}⟩
  store := ⟨[⟨1, "alice", "alice@example.com", "Alice", "Doe", passwordHash, true, false, false⟩],
    []⟩
  clock := 0

theorem valid (d : Dialect) : (deployment d).store.Valid := by
  constructor <;> simp [deployment]

theorem decompose_decompose (c : Char) : ∀ d ∈ decompose c, decompose d = [d] := by
  unfold decompose
  split
  · simp only [List.forall_mem_cons]
    decide
  · split
    · simp only [List.map_cons, List.map_nil, List.forall_mem_cons]
      decide
    · rename_i h₁ h₂
      simp [h₁, h₂]

theorem sha256hex_injective : Function.Injective sha256hex := by
  have hcases : ∀ t, (t = tokenA ∧ sha256hex t = digestA) ∨ (t = tokenB ∧ sha256hex t = digestB) ∨
      sha256hex t = "sha256:" ++ t := by
    intro t
    unfold sha256hex
    split
    · exact Or.inl ⟨‹_›, rfl⟩
    · split
      · exact Or.inr (Or.inl ⟨‹_›, rfl⟩)
      · exact Or.inr (Or.inr rfl)
  have hne : ∀ t, digestA ≠ "sha256:" ++ t ∧ digestB ≠ "sha256:" ++ t := by
    refine fun t => ⟨fun h => ?_, fun h => ?_⟩ <;> have := congrArg String.toList h <;>
      simp [digestA, digestB] at this
  have hAB : digestA ≠ digestB := by decide
  intro s t h
  rcases hcases s with ⟨rfl, hs⟩ | ⟨rfl, hs⟩ | hs <;>
    rcases hcases t with ⟨rfl, ht⟩ | ⟨rfl, ht⟩ | ht <;> have h := hs.symm.trans (h.trans ht)
  · rfl
  · exact absurd h hAB
  · exact absurd h (hne t).1
  · exact absurd h.symm hAB
  · rfl
  · exact absurd h (hne t).2
  · exact absurd h.symm (hne s).1
  · exact absurd h.symm (hne s).2
  · exact (String.append_right_inj _).1 h

/-- Process `i` serves the request until it has made `n` calls. -/
def serve {ext : Externals} (i : ℕ) (req : Request ext) (n : ℕ) (ch : Choice) :
    List (Action (Request ext) Choice) :=
  .spawn i req :: List.replicate n (.answer i ch)

/-- Alice logs in. -/
def login (d : Dialect) : List (Action (Request (deployment d).ext) Choice) :=
  serve 0 (.issueToken ⟨" alice ", password⟩ ⟨"agent", some "192.0.2.1"⟩) 18
    { session := 0, token := tokenA, uuid := 7, encoded := "header.payload.signature" }

/-- And rotates her token. -/
def rotate (d : Dialect) : List (Action (Request (deployment d).ext) Choice) :=
  serve 1 (.refreshToken ⟨tokenA⟩) 21
    { session := 1, token := tokenB, now := 60000000, encoded := "header.payload.signature" }

end Sample

end FastapiTemplate
