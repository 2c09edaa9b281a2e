/-
  The unit of work keeps its promises: a task leaks neither a session nor a
  scope as long as sessions begin and close (`unit_of_work_releases`), and tasks
  that share an instance do not notice each other (`tasks_isolated`).
-/
import FastapiTemplate.Proof.Blocks

namespace FastapiTemplate

open Effects

variable {w w' : UnitOfWorkClients} {i : ℕ}
  {m : Moment UnitOfWorkMethod Call Ret Exc UnitOfWorkResult}

/-- The outcome of a method that does not fail, for a task whose block has the session `b`. -/
def UnitOfWorkMethod.outcome (b : Option SessionId) :
    UnitOfWorkMethod → Except Exc UnitOfWorkResult
  | aenter =>
    match b with
    | none => .ok .entered
    | some _ => .error NESTED_UOW_ERROR
  | userRepository =>
    match b with
    | none => .error INACTIVE_UOW_ERROR
    | some sid => .ok (.userRepository ⟨sid⟩)
  | refreshSessionRepository =>
    match b with
    | none => .error INACTIVE_UOW_ERROR
    | some sid => .ok (.refreshSessionRepository ⟨sid⟩)
  | aexit _ =>
    match b with
    | none => .error INACTIVE_UOW_ERROR
    | some _ => .ok .exited

/-- A phase after a failure. -/
def Phase.failed : Phase → Bool
  | abandoned _ | unflushed _ | unclosed _ => true
  | finished _ failed | closed _ failed | left _ failed => failed
  | _ => false

/-- A method that does not fail has the outcome that the block of its task determines. -/
theorem Tidy.outcome (hw : Tidy w) {op : UnitOfWorkMethod} {out : Except Exc UnitOfWorkResult}
    (hout : Concludes op out (phaseOf i w.history)) (hφ : (phaseOf i w.history).failed = false) :
    out = op.outcome (block i w.history) := by
  have hfits := hw.fits i
  generalize phaseOf i w.history = φ at hout hfits hφ
  cases hout with
  | inactive hop =>
    have hb : block i w.history = none := hfits
    rw [hb]
    cases op with
    | aenter => exact absurd rfl hop
    | _ => rfl
  | entered =>
    rw [hfits.1]
    rfl
  | nested | userRepository | refreshSessionRepository | exited =>
    rw [show block i w.history = _ from hfits]
    rfl
  | failed | abandoned | unclosed => cases hφ

/-! ## One task, whatever fails -/

/-- Nothing of task `root` leaks. -/
structure Releases (root : ℕ) (w : UnitOfWorkClients) : Prop where
  once : ∀ sid, closes sid w.history ≤ 1
  closed : w.tasks root = .idle → ∀ sid, Made root sid w.history →
    closes sid w.history = if block root w.history = some sid then 0 else 1
  left : ∀ exc out h, w.history = .finish root (.aexit exc) out :: h →
    block root w.history = none ∧ w.shared.scopes root = none
  next : ∀ op out h₁ exc out' h₂,
    w.history = .finish root op out :: (h₁ ++ .finish root (.aexit exc) out' :: h₂) →
    (∀ op' out'', .finish root op' out'' ∉ h₁) → out = op.outcome none

section
variable {ext : Externals} {d : Dialect} {root : ℕ} {S : Store} {clock : Instant}

/-- Without a block, every method has the outcome it has outside any scope. -/
theorem Tidy.outcome_none (hw : Tidy w) {op : UnitOfWorkMethod} {out : Except Exc UnitOfWorkResult}
    (hout : Concludes op out (phaseOf i w.history)) (hb : block i w.history = none) :
    out = op.outcome none := by
  rw [← hb]
  refine hw.outcome hout ?_
  have hfits := hw.fits i
  rw [hb] at hfits
  generalize phaseOf i w.history = φ at hout hfits
  cases hout with
  | abandoned | unclosed => exact hfits.elim
  | failed => cases hfits
  | _ => rfl

/-- The block of a task changes only when a method of the task is finished. -/
theorem block_append {h₁ h₂ : Moments} (h : ∀ op out, .finish i op out ∉ h₁) :
    block i (h₁ ++ h₂) = block i h₂ := by
  induction h₁ with
  | nil => rfl
  | cons m h₁ ih =>
    have hih := ih fun op out hm => h op out (List.mem_cons_of_mem _ hm)
    rw [List.cons_append]
    by_cases hm : Moment.By i m
    · cases m with
      | start | call | stop => exact hih
      | finish j op out =>
        obtain rfl : j = i := hm
        exact absurd (List.mem_cons_self ..) (h op out)
      | fork => exact hm.elim
    · rw [block_other hm, hih]

/-- **The unit of work releases what it takes**: every session is closed once, and after a block its
    task has no scope, as long as beginning a transaction and closing a session do not fail. -/
theorem unit_of_work_releases
    (hw : (unitOfWork ext d Call.awaited).ReachableIf (fun w m => Moment.By root m ∧ Orderly w m)
      root (State.idle S clock) w) : Releases root w := by
  have hf : ∀ c, Call.awaited c = true → c.awaited = true := fun _ h => h
  have htidy := tidy hf (hw.imp fun _ _ _ _ _ h => h.2)
  constructor
  · intro sid
    by_cases hmade : ∃ i, Made i sid w.history
    · obtain ⟨i, hi⟩ := hmade
      rw [htidy.closed i sid hi]
      split <;> omega
    · rw [(htidy.unmade sid fun i hi => hmade ⟨i, hi⟩).1]
      omega
  · intro hidle sid hsid
    have hφ := (wellScoped hf hw).1.idle root (by rw [hidle]; exact nofun)
    rw [htidy.closed root sid hsid, hφ]
    rfl
  · intro exc out h hh
    have hb : block root w.history = none := by
      rw [hh]
      exact if_pos rfl
    refine ⟨hb, ?_⟩
    rw [htidy.scope root, hb, hh, phaseOf_finish]
    rfl
  · intro op out h₁ exc out' h₂ hh hno
    obtain ⟨v, v', hv, hs, -, hhist⟩ := hw.at_moment (hh.trans (List.nil_append _).symm)
    cases proper hf hv hs with
    | finish hout =>
      refine (tidy hf (hv.imp fun _ _ _ _ _ h => h.2)).outcome_none hout ?_
      rw [hhist, block_append hno]
      exact if_pos rfl

end

namespace Sample

/-- A step of the task, in which neither beginning a transaction nor closing a session fails. -/
def begins (i : ℕ) (m : Moment UnitOfWorkMethod Call Ret Exc UnitOfWorkResult) : Bool :=
  decide (Moment.By i m) && match m with
    | .call _ (.begin _) (.error _) | .call _ (.close _) (.error _) => false
    | _ => true

theorem begins_orderly {v : UnitOfWorkClients} (h : begins i m = true) :
    Moment.By i m ∧ Orderly v m := by
  obtain ⟨hm, h⟩ := Bool.and_eq_true_iff.1 h
  refine ⟨of_decide_eq_true hm, ?_⟩
  cases m with
  | fork => exact absurd (of_decide_eq_true hm) Moment.not_by_fork
  | call j c r =>
    rintro sid e (rfl | rfl) rfl <;> cases h
  | _ => trivial

/-- A block whose commit fails, and another one. -/
def commitFails : List (Command UnitOfWorkMethod Choice) :=
  runs 0 .aenter 4 {} ++
    [.start 0 (.aexit none), .answer 0 {}, .answer 0 {}, .answer 0 { failure := some (.before 0) },
      .answer 0 {}, .answer 0 {}, .finish 0] ++
    runs 0 .aenter 4 { session := 1 }

/-- The database cannot be reached, so that no transaction begins. -/
def beginFails : List (Command UnitOfWorkMethod Choice) :=
  [.start 0 .aenter, .answer 0 {}, .answer 0 {}, .answer 0 { failure := some (.before 0) },
    .finish 0]

/-- Task `0` is in no method. -/
def rests (w : UnitOfWorkClients) : Bool :=
  match w.tasks 0 with
  | .idle => true
  | _ => false

theorem rests_spec {w : UnitOfWorkClients} (h : rests w = true) : w.tasks 0 = .idle := by
  unfold rests at h
  split at h
  · assumption
  · cases h

end Sample

theorem unit_of_work_releases_commitFails : ∃ w,
    Sample.share Call.awaited (fun _ m => Sample.begins 0 m) Sample.commitFails = some w ∧
      closes 0 w.history = 1 ∧ block 0 w.history = some 1 ∧ Releases 0 w := by
  have hrun : (Sample.share Call.awaited (fun _ m => Sample.begins 0 m) Sample.commitFails).any
      (fun w => closes 0 w.history = 1 && block 0 w.history = some 1) = true := by decide
  obtain ⟨w, hw, hrun⟩ := (Option.any_eq_true _ _).1 hrun
  obtain ⟨hcloses, hblock⟩ := Bool.and_eq_true_iff.1 hrun
  exact ⟨w, hw, of_decide_eq_true hcloses, of_decide_eq_true hblock,
    unit_of_work_releases (Sample.share_reachableIf (fun _ _ h => Sample.begins_orderly h) hw)⟩

/-- The session of an `__aenter__` that fails to begin a transaction is never closed. -/
theorem session_leaks : ¬∀ (ext : Externals) (d : Dialect) (root : ℕ) (S : Store) (clock : Instant)
    (w : UnitOfWorkClients), (unitOfWork ext d Call.awaited).ReachableIf
      (fun _ m => Moment.By root m) root (State.idle S clock) w → Releases root w := by
  intro h
  have hrun : (Sample.share Call.awaited (fun _ m => decide (Moment.By 0 m)) Sample.beginFails).any
      (fun w => Sample.rests w && madeBy 0 w.history = some 0 && closes 0 w.history = 0 &&
        block 0 w.history = none) = true := by decide +kernel
  obtain ⟨w, hw, hrun⟩ := (Option.any_eq_true _ _).1 hrun
  obtain ⟨hrun, hblock⟩ := Bool.and_eq_true_iff.1 hrun
  obtain ⟨hrun, hcloses⟩ := Bool.and_eq_true_iff.1 hrun
  obtain ⟨hrests, hmade⟩ := Bool.and_eq_true_iff.1 hrun
  have hreleases := h _ _ _ _ _ w (Sample.share_reachableIf (fun _ _ h => of_decide_eq_true h) hw)
  have hclosed :=
    hreleases.closed (Sample.rests_spec hrests) 0 (Made.of_madeBy (of_decide_eq_true hmade))
  rw [of_decide_eq_true hcloses, of_decide_eq_true hblock] at hclosed
  cases hclosed

/-! ## Many tasks, and no failures -/

/-- Tasks are started outside any scope. -/
def StartsOutside (w : UnitOfWorkClients) :
    Moment UnitOfWorkMethod Call Ret Exc UnitOfWorkResult → Prop
  | .fork i _ => w.shared.scopes i = none
  | _ => True

/-- What task `i` sees of the state `s` of the shared instance, in the state `p` of a private
    one. -/
structure Private (i : ℕ) (s p : State) : Prop where
  scope : p.scopes i = s.scopes i
  sessions : ∀ e ∈ p.sessions, e ∈ s.sessions
  pending : p.pending = fun _ => []

section
variable {ext : Externals} {d : Dialect} {root : ℕ} {S : Store} {clock : Instant}
  {s s' p : State} {op : UnitOfWorkMethod} {φ : Phase} {c : Call} {r : Except Exc (Ret c)}

theorem State.flush_nil {sid : SessionId} (h : s.pending sid = []) : s.flush d sid = some (.ok (),
    { s with db := s.db.write sid [] [], pending := Function.update s.pending sid [] }) := by
  simp [State.flush, h, pendingWrites]

theorem update_nil {pending : SessionId → List (UUID × Instant)} {sid : SessionId}
    (h : pending = fun _ => []) : Function.update pending sid [] = fun _ => [] := by
  subst h
  exact Function.update_eq_self sid _

theorem respond_of_answer (ha : Answer ext d (fun _ => false) i s c r s') :
    ∃ ch, respond ext d i s c ch = some (r, s') := by
  obtain ⟨ch, h⟩ := ha
  refine ⟨ch, ?_⟩
  unfold perform at h
  split at h
  · exact h
  · cases h
  · simp at h

theorem answer_of_respond (ch : Choice) (h : respond ext d i s c ch = some (r, s')) :
    Answer ext d (fun _ => false) i s c r s' :=
  ⟨{ ch with failure := none }, h⟩

/-- Calls that do not fail are answered, and leave nothing pending. -/
theorem Makes.answered (hc : Makes op φ c) (hs : s.pending = fun _ => [])
    (ha : Answer ext d (fun _ => false) i s c r s') :
    (∃ a, r = .ok a) ∧ s'.pending = fun _ => [] := by
  obtain ⟨ch, h⟩ := respond_of_answer ha
  cases hc with
  | scopeGet | enter | leave | begin =>
    cases h
    exact ⟨⟨_, rfl⟩, hs⟩
  | sessionFactory =>
    simp only [respond] at h
    split at h <;> cases h
    exact ⟨⟨_, rfl⟩, hs⟩
  | @flush sid =>
    rw [respond, State.flush_nil (by rw [hs])] at h
    cases h
    exact ⟨⟨_, rfl⟩, update_nil hs⟩
  | commit | rollback | closeUnflushed | close =>
    cases h
    exact ⟨⟨_, rfl⟩, update_nil hs⟩

/-- Calls are answered the same by a private instance. -/
theorem Makes.alone (hc : Makes op φ c) (hs : s.pending = fun _ => []) (hp : Private i s p)
    (ha : Answer ext d (fun _ => false) i s c r s') :
    ∃ p', Answer ext d (fun _ => false) i p c r p' ∧ Private i s' p' := by
  obtain ⟨ch, h⟩ := respond_of_answer ha
  cases hc with
  | scopeGet =>
    cases h
    exact ⟨p, answer_of_respond ch (by rw [← hp.scope]; rfl), hp⟩
  | begin =>
    cases h
    exact ⟨p, answer_of_respond ch rfl, hp⟩
  | enter | leave =>
    cases h
    exact ⟨_, answer_of_respond ch rfl, by simp, hp.sessions, hp.pending⟩
  | sessionFactory =>
    simp only [respond] at h
    split at h <;> cases h
    rename_i hfresh
    refine ⟨_, answer_of_respond ch (if_pos fun e he => hfresh e (hp.sessions e he)), hp.scope,
      fun e he => ?_, hp.pending⟩
    rcases List.mem_cons.1 he with rfl | he
    · exact List.mem_cons_self ..
    · exact List.mem_cons_of_mem _ (hp.sessions e he)
  | @flush sid =>
    rw [respond, State.flush_nil (by rw [hs])] at h
    cases h
    exact ⟨_, answer_of_respond ch (State.flush_nil (by rw [hp.pending])), hp.scope, hp.sessions,
      update_nil hp.pending⟩
  | commit | rollback | closeUnflushed | close =>
    cases h
    exact ⟨_, answer_of_respond ch rfl, hp.scope, hp.sessions, update_nil hp.pending⟩

/-- What another task does is not seen. -/
theorem Acts.unseen {j : ℕ} (ha : Acts j s s' c r) (hj : j ≠ i) (hp : Private i s p) :
    Private i s' p := by
  cases ha with
  | scopeGet _ hscopes hsessions | awaited _ hscopes hsessions =>
    exact ⟨hscopes ▸ hp.scope, hsessions ▸ hp.sessions, hp.pending⟩
  | sessionFactory _ hscopes hsessions =>
    refine ⟨hscopes ▸ hp.scope, fun e he => ?_, hp.pending⟩
    rw [hsessions]
    exact List.mem_cons_of_mem _ (hp.sessions e he)
  | scopeSet hscopes hsessions =>
    refine ⟨?_, hsessions ▸ hp.sessions, hp.pending⟩
    rw [hscopes, Function.update_of_ne hj.symm]
    exact hp.scope

theorem Makes.unfailed (hc : Makes op φ c) (hφ : φ.failed = false) (a : Ret c) :
    (φ.after c (.ok a)).failed = false := by
  cases hc with
  | scopeGet =>
    cases a <;> rfl
  | flush | commit | rollback | begin | enter | sessionFactory => rfl
  | closeUnflushed => cases hφ
  | close | leave => exact hφ

end

/-- Nothing has failed, and nothing is pending. -/
structure Smooth (w : UnitOfWorkClients) : Prop where
  pending : w.shared.pending = fun _ => []
  unfailed : ∀ i, (phaseOf i w.history).failed = false

section
variable {ext : Externals} {d : Dialect} {root : ℕ} {S : Store} {clock : Instant}

theorem never_faulty : ∀ c : Call, (fun _ : Call => false) c = true → c.awaited = true :=
  fun _ h => by cases h

/-- The steps of a run without faults: answers are no exceptions, and nothing fails. -/
theorem smooth
    {P : UnitOfWorkClients → Moment UnitOfWorkMethod Call Ret Exc UnitOfWorkResult → Prop}
    (hw : (unitOfWork ext d fun _ => false).ReachableIf P root (State.idle S clock) w) :
    Smooth w := by
  induction hw with
  | start => exact ⟨rfl, fun _ => rfl⟩
  | @step v m v' hv hs hP ih =>
    cases hs with
    | @start i op _ =>
      refine ⟨ih.pending, fun j => ?_⟩
      by_cases hj : i = j
      · subst hj
        rw [Clients.after_history, phaseOf_start]
        rfl
      · rw [Clients.after_history, phaseOf_other (by simpa using hj)]
        exact ih.unfailed j
    | @call i op c k r s hi ha =>
      have hc := makes never_faulty hv hi
      obtain ⟨⟨a, rfl⟩, hpending⟩ := hc.answered ih.pending ha
      refine ⟨hpending, fun j => ?_⟩
      by_cases hj : i = j
      · subst hj
        rw [Clients.after_history, phaseOf_call]
        exact hc.unfailed (ih.unfailed i) a
      · rw [Clients.after_history, phaseOf_other (by simpa using hj)]
        exact ih.unfailed j
    | @finish i op out _ =>
      refine ⟨ih.pending, fun j => ?_⟩
      by_cases hj : i = j
      · subst hj
        rw [Clients.after_history, phaseOf_finish]
        rfl
      · rw [Clients.after_history, phaseOf_other (by simpa using hj)]
        exact ih.unfailed j
    | fork | stop => exact ⟨ih.pending, ih.unfailed⟩

/-- A run without failures in which tasks are started outside any scope is orderly. -/
theorem orderly
    (hw : (unitOfWork ext d fun _ => false).ReachableIf StartsOutside root (State.idle S clock) w) :
    (unitOfWork ext d fun _ => false).ReachableIf Orderly root (State.idle S clock) w := by
  refine hw.imp fun v m v' hv hs hm => ?_
  cases hs with
  | call hi ha =>
    obtain ⟨⟨a, rfl⟩, -⟩ := (makes never_faulty hv hi).answered (smooth hv).pending ha
    exact fun _ _ _ h => by cases h
  | fork => exact hm
  | _ => trivial

/-- **A task does what it would do alone**, on an instance of its own. -/
theorem alone
    (hw : (unitOfWork ext d fun _ => false).ReachableIf StartsOutside root (State.idle S clock) w)
    (hi : w.tasks i ≠ .absent) :
    ∃ v, (unitOfWork ext d fun _ => false).Solo i (State.idle S clock) v ∧ v.tasks i = w.tasks i ∧
      v.history = w.history.filter fun m => Moment.By i m := by
  have hroot : root = i → Private i (State.idle S clock) (State.idle S clock) :=
    fun _ => ⟨rfl, fun _ h => h, rfl⟩
  have hprojects := Object.projects hroot ?_ ?_ ?_ ?_ hw
  · obtain ⟨v, hv, -, ht, hh⟩ := hprojects.2 hi
    exact ⟨v, hv, ht, hh⟩
  · intro v op c k p r s' hv hp hpriv ha
    exact (makes never_faulty hv hp).alone (smooth hv).pending hpriv ha
  · intro v j op c k p r s' hv hj hp hpriv ha
    exact ((makes never_faulty hv hp).acts never_faulty ha).unseen hj hpriv
  · intro s p j k hk hpriv
    exact ⟨hpriv.scope.trans (Function.update_of_ne hk.symm _ _).symm, hpriv.sessions,
      hpriv.pending⟩
  · intro v j hv _ hP
    have hscopes : (v.shared.copyContext j i).scopes i = v.shared.scopes j :=
      Function.update_self ..
    exact ⟨(hscopes.trans hP).symm, nofun, rfl⟩

end

/-- What tasks that share an instance can rely on. -/
structure Isolated (ext : Externals) (d : Dialect) (S : Store) (clock : Instant)
    (w : UnitOfWorkClients) : Prop where
  alone : ∀ i, w.tasks i ≠ .absent → ∃ v,
    (unitOfWork ext d fun _ => false).Solo i (State.idle S clock) v ∧ v.tasks i = w.tasks i ∧
      v.history = w.history.filter fun m => Moment.By i m
  /-- so repositories are bound to the session of the block, and a nested `__aenter__` raises -/
  outcomes : ∀ h₁ i op out h₂, w.history = h₁ ++ .finish i op out :: h₂ →
    out = op.outcome (block i h₂)
  own : ∀ i sid, block i w.history = some sid →
    Made i sid w.history ∧ ∀ j, Made j sid w.history → j = i
  ended : ∀ h₁ i exc out h₂ sid, w.history = h₁ ++ .finish i (.aexit exc) out :: h₂ →
    block i h₂ = some sid → endings sid w.history = [Ending.of exc]
  unended : ∀ i sid, w.tasks i = .idle → block i w.history = some sid → endings sid w.history = []
  scopes : ∀ i, w.tasks i = .idle → w.shared.scopes i = (block i w.history).map Scope.of
  others : ∀ m w', (unitOfWork ext d fun _ => false).Step w m w' → ∀ j, ¬Moment.By j m →
    w.tasks j ≠ .absent → w'.shared.scopes j = w.shared.scopes j
  nested : ∀ i p sid m w', w.tasks i = .busy .aenter p → block i w.history = some sid →
    (unitOfWork ext d fun _ => false).Step w m w' → w'.shared.scopes i = w.shared.scopes i

section
variable {ext : Externals} {d : Dialect} {root : ℕ} {S : Store} {clock : Instant}

/-- A step changes the scope of its own task only. -/
theorem Proper.scopes_ne (hs : Proper w m w') {j : ℕ} (hj : ¬Moment.By j m)
    (htask : w.tasks j ≠ .absent) : w'.shared.scopes j = w.shared.scopes j := by
  cases hs with
  | start | finish | stop => rfl
  | call _ _ ha =>
    rw [Clients.after_shared]
    cases ha with
    | scopeGet _ h | sessionFactory _ h | awaited _ h => rw [h]
    | scopeSet h => rw [h, Function.update_of_ne fun h => hj h.symm]
  | fork _ _ hnew => exact Function.update_of_ne (fun h => htask (by rw [h, hnew])) _ _

/-- **Tasks that share a unit of work are isolated**: each has its own blocks, sessions and
    transactions, however their steps interleave, if they are started outside any scope and nothing
    fails. -/
theorem tasks_isolated
    (hw : (unitOfWork ext d fun _ => false).ReachableIf StartsOutside root (State.idle S clock) w) :
    Isolated ext d S clock w := by
  have htidy := tidy never_faulty (orderly hw)
  have hidle : ∀ i, w.tasks i = .idle → phaseOf i w.history = .idle := fun i hi =>
    (wellScoped never_faulty hw).1.idle i (by rw [hi]; exact nofun)
  constructor
  · exact fun i hi => FastapiTemplate.alone hw hi
  · intro h₁ i op out h₂ hh
    obtain ⟨v, v', hv, hs, -, rfl⟩ := hw.at_moment hh
    cases proper never_faulty hv hs with
    | finish hout =>
      exact (tidy never_faulty (orderly hv)).outcome hout ((smooth hv).unfailed i)
  · intro i sid hb
    have hmade := Made.of_block hb
    exact ⟨hmade, fun j hj => htidy.owner j i sid hj hmade⟩
  · intro h₁ i exc out h₂ sid hh hb
    obtain ⟨v, v', hv, hs, -, rfl⟩ := hw.at_moment hh
    have hv' := tidy never_faulty (orderly hv)
    have hunfailed := (smooth hv).unfailed i
    have hfits := hv'.fits i
    -- the block is ended in the phase `left`
    have hleft : phaseOf i v.history = .left sid false := by
      cases proper never_faulty hv hs with
      | finish hout =>
        generalize phaseOf i v.history = φ at hout hunfailed hfits
        cases hout with
        | inactive => exact absurd (hb.symm.trans hfits) nofun
        | exited => rw [Option.some.inj (hb.symm.trans hfits)]
        | failed | unclosed => cases hunfailed
    have hmade := Made.of_block hb
    have hcloses : closes sid v.history = 1 := by
      rw [hv'.closed i sid hmade, hleft]
      exact if_neg nofun
    have hendings : endings sid v.history = [Ending.of exc] := by
      cases hs with
      | finish ht => exact hv'.ended i exc _ sid ht (by rw [hleft]; exact ⟨rfl, rfl⟩)
    have hsplit : w.history = (h₁ ++ [.finish i (.aexit exc) out]) ++ v.history := by
      rw [hh, List.append_assoc, List.singleton_append]
    rw [← hendings]
    exact (settled never_faulty (orderly hw) hsplit (by omega)).2
  · intro i sid hi hb
    refine htidy.untouched i sid ?_ ?_ <;> rw [hidle i hi]
    · exact hb
    · rfl
  · intro i hi
    rw [htidy.scope i, hidle i hi]
    rfl
  · intro m w' hs j hj htask
    exact (proper never_faulty hw hs).scopes_ne hj htask
  · intro i p sid m w' hi hb hs
    have hproper := proper never_faulty hw hs
    by_cases hm : Moment.By i m
    · have hfits := htidy.fits i
      cases hproper with
      | start | finish | stop => rfl
      | fork => exact hm.elim
      | call ht hc ha =>
        obtain rfl := Moment.by_call.1 hm
        rw [hi] at ht
        cases ht
        rw [Clients.after_shared]
        cases ha with
        | scopeGet _ h | sessionFactory _ h | awaited _ h => rw [h]
        | scopeSet =>
          generalize phaseOf _ w.history = φ at hc hfits
          cases hc
          exact absurd (hb.symm.trans hfits.1) nofun
    · exact hproper.scopes_ne hm (by rw [hi]; exact nofun)

end

namespace Sample

/-- Two tasks enter, step by step in turn; one asks for a repository while the other tries to enter
    again; then one block ends with an exception, and the other without. -/
def interleaved : List (Command UnitOfWorkMethod Choice) :=
  [.fork 0 1, .start 0 .aenter, .answer 0 {}, .start 1 .aenter, .answer 1 {}, .answer 0 {},
    .answer 1 { session := 1 }, .answer 0 {}, .answer 1 {}, .answer 1 {}, .finish 1, .answer 0 {},
    .finish 0, .start 0 .aenter, .start 1 .userRepository, .answer 1 {}, .answer 0 {}, .finish 0,
    .finish 1, .start 1 (.aexit (some (.external 0))), .start 0 (.aexit none), .answer 0 {},
    .answer 1 {}, .answer 0 {}, .answer 1 {}, .answer 0 {}, .answer 1 {}, .answer 0 {},
    .answer 1 {},
    .finish 1, .answer 0 {}, .finish 0]

/-- Nobody is started inside a scope. -/
def startsOutside (w : UnitOfWorkClients)
    (m : Moment UnitOfWorkMethod Call Ret Exc UnitOfWorkResult) : Bool :=
  match m with
  | .fork i _ => w.shared.scopes i = none
  | _ => true

theorem startsOutside_spec (h : startsOutside w m = true) : StartsOutside w m := by
  cases m with
  | fork i j =>
    show w.shared.scopes i = none
    exact of_decide_eq_true h
  | _ => trivial

end Sample

theorem tasks_isolated_interleaved : ∃ w,
    Sample.share (fun _ => false) Sample.startsOutside Sample.interleaved = some w ∧
      endings 0 w.history = [.commit] ∧ endings 1 w.history = [.rollback] ∧
      Isolated Sample.externals .sqlite ⟨[], []⟩ 0 w := by
  have hrun : (Sample.share (fun _ => false) Sample.startsOutside Sample.interleaved).any
      (fun w => endings 0 w.history = [.commit] && endings 1 w.history = [.rollback]) = true := by
    decide
  obtain ⟨w, hw, hrun⟩ := (Option.any_eq_true _ _).1 hrun
  obtain ⟨hcommit, hrollback⟩ := Bool.and_eq_true_iff.1 hrun
  exact ⟨w, hw, of_decide_eq_true hcommit, of_decide_eq_true hrollback,
    tasks_isolated (Sample.share_reachableIf (fun _ _ h => Sample.startsOutside_spec h) hw)⟩

end FastapiTemplate
