/-
  The blocks of tasks that share a unit of work, one session each: what a
  history says about sessions (`block`, `closes`, `endings`), and how that
  agrees with contexts and phases in every orderly run (`tidy`).

  What was ended once is not ended again (`settled`).
-/
import FastapiTemplate.Proof.Sharing

namespace FastapiTemplate

open Effects

/-! ## What a history says -/

/-- Task `i` made the session. -/
def Made (i : ℕ) (sid : SessionId) (h : Moments) : Prop := .call i .sessionFactory (.ok sid) ∈ h

/-- The session that task `i` made last. -/
def madeBy (i : ℕ) : Moments → Option SessionId
  | [] => none
  | m :: h =>
    match m with
    | .call j .sessionFactory (.ok sid) => if j = i then some sid else madeBy i h
    | _ => madeBy i h

/-- The session of the latest `__aenter__` of task `i` that is not finished by an `__aexit__`. -/
def block (i : ℕ) : Moments → Option SessionId
  | [] => none
  | m :: h =>
    match m with
    | .finish j .aenter (.ok _) => if j = i then madeBy i h else block i h
    | .finish j (.aexit _) _ => if j = i then none else block i h
    | _ => block i h

/-- How often `close()` was called on the session. -/
def closes (sid : SessionId) : Moments → ℕ
  | [] => 0
  | .call _ (.close s) _ :: h => if s = sid then closes sid h + 1 else closes sid h
  | _ :: h => closes sid h

inductive Ending where
  | commit
  | rollback
  deriving DecidableEq

/-- How a block ends its transaction. -/
def Ending.of : Option Exc → Ending
  | none => commit
  | some _ => rollback

/-- How the transaction of the session was ended, latest first. -/
def endings (sid : SessionId) : Moments → List Ending
  | [] => []
  | .call _ (.commit s) _ :: h => if s = sid then .commit :: endings sid h else endings sid h
  | .call _ (.rollback s) _ :: h => if s = sid then .rollback :: endings sid h else endings sid h
  | _ :: h => endings sid h

section
variable {i j : ℕ} {sid : SessionId} {h : Moments}

theorem madeBy_other {m : Moment UnitOfWorkMethod Call Ret Exc UnitOfWorkResult}
    (hm : ¬Moment.By i m) : madeBy i (m :: h) = madeBy i h := by
  conv_lhs => unfold madeBy
  split
  · exact if_neg hm
  · rfl

theorem block_other {m : Moment UnitOfWorkMethod Call Ret Exc UnitOfWorkResult}
    (hm : ¬Moment.By i m) : block i (m :: h) = block i h := by
  conv_lhs => unfold block
  split
  · exact if_neg hm
  · exact if_neg hm
  · rfl

theorem Made.of_madeBy (hm : madeBy i h = some sid) : Made i sid h := by
  induction h with
  | nil => cases hm
  | cons m h ih =>
    unfold madeBy at hm
    split at hm
    · split at hm
      · subst_vars
        cases hm
        exact List.mem_cons_self ..
      · exact List.mem_cons_of_mem _ (ih hm)
    · exact List.mem_cons_of_mem _ (ih hm)

theorem Made.of_block (hb : block i h = some sid) : Made i sid h := by
  induction h with
  | nil => cases hb
  | cons m h ih =>
    refine List.mem_cons_of_mem _ ?_
    unfold block at hb
    split at hb
    · split at hb
      · exact Made.of_madeBy hb
      · exact ih hb
    · split at hb
      · cases hb
      · exact ih hb
    · exact ih hb

end

/-! ## Orderly runs -/

/-- The steps of a run in which tasks are started outside any scope, and in which beginning a
    transaction and closing a session do not fail. -/
def Orderly (w : UnitOfWorkClients) :
    Moment UnitOfWorkMethod Call Ret Exc UnitOfWorkResult → Prop
  | .fork i _ => w.shared.scopes i = none
  | .call _ c r => ∀ sid e, c = .begin sid ∨ c = .close sid → r ≠ .error e
  | _ => True

namespace Phase

/-- The session that is not closed yet, for a task whose block has the session `b`. -/
def «open» (b : Option SessionId) : Phase → Option SessionId
  | created sid | begun sid | entered sid => some sid
  | closed _ _ | left _ _ => none
  | _ => b

/-- The session in the task's context. -/
def scope (b : Option SessionId) : Phase → Option SessionId
  | entered sid => some sid
  | left _ _ => none
  | _ => b

/-- What a phase says about the task's block `b` and the session `m` it made last. -/
def Fits (b m : Option SessionId) : Phase → Prop
  | idle | called => True
  | vacant => b = none
  | created sid | begun sid | entered sid => b = none ∧ m = some sid
  | found sid | flushed sid | unflushed sid | finished sid _ | closed sid _ | left sid _ =>
    b = some sid
  | abandoned _ | unclosed _ => False

/-- The transaction of the session was ended, and that did not fail. -/
def Done (sid : SessionId) : Phase → Prop
  | finished s failed | closed s failed | left s failed => s = sid ∧ failed = false
  | _ => False

theorem Fits.made_of_open {φ : Phase} {i : ℕ} {sid : SessionId} {h : Moments}
    (hf : φ.Fits (block i h) (madeBy i h)) (ho : φ.open (block i h) = some sid) : Made i sid h := by
  cases φ with
  | created | begun | entered =>
    cases ho
    exact Made.of_madeBy hf.2
  | closed | left => cases ho
  | _ => exact Made.of_block ho

theorem Fits.made_of_done {φ : Phase} {i : ℕ} {sid : SessionId} {h : Moments}
    (hf : φ.Fits (block i h) (madeBy i h)) (hd : φ.Done sid) : Made i sid h := by
  cases φ with
  | finished | closed | left =>
    obtain ⟨rfl, -⟩ := hd
    exact Made.of_block hf
  | _ => cases hd

end Phase

/-- Contexts, phases and the history agree, and sessions are closed and ended once. -/
structure Tidy (w : UnitOfWorkClients) : Prop where
  scope : ∀ i, w.shared.scopes i =
    ((phaseOf i w.history).scope (block i w.history)).map Scope.of
  fits : ∀ i, (phaseOf i w.history).Fits (block i w.history) (madeBy i w.history)
  closed : ∀ i sid, Made i sid w.history → closes sid w.history =
    if (phaseOf i w.history).open (block i w.history) = some sid then 0 else 1
  unmade : ∀ sid, (∀ i, ¬Made i sid w.history) →
    closes sid w.history = 0 ∧ endings sid w.history = []
  sessions : ∀ i sid, Made i sid w.history → (i, sid) ∈ w.shared.sessions
  owner : ∀ i j sid, Made i sid w.history → Made j sid w.history → i = j
  untouched : ∀ i sid, (phaseOf i w.history).open (block i w.history) = some sid →
    (phaseOf i w.history).ending = none → endings sid w.history = []
  ended : ∀ i exc p sid, w.tasks i = .busy (.aexit exc) p → (phaseOf i w.history).Done sid →
    endings sid w.history = [Ending.of exc]
  absent : ∀ i, w.tasks i = .absent → block i w.history = none

variable {w w' : UnitOfWorkClients} {i : ℕ}
  {m : Moment UnitOfWorkMethod Call Ret Exc UnitOfWorkResult}

/-- What is known of task `i` after a step of it. -/
structure TidyAfter (w w' : UnitOfWorkClients) (i : ℕ) : Prop where
  scope : w'.shared.scopes i = ((phaseOf i w'.history).scope (block i w'.history)).map Scope.of
  fits : (phaseOf i w'.history).Fits (block i w'.history) (madeBy i w'.history)
  closed : ∀ sid, Made i sid w'.history → closes sid w'.history =
    if (phaseOf i w'.history).open (block i w'.history) = some sid then 0 else 1
  sessions : ∀ sid, Made i sid w'.history → (i, sid) ∈ w'.shared.sessions
  owner : ∀ j sid, Made i sid w'.history → Made j sid w.history → j = i
  untouched : ∀ sid, (phaseOf i w'.history).open (block i w'.history) = some sid →
    (phaseOf i w'.history).ending = none → endings sid w'.history = []
  ended : ∀ exc p sid, w'.tasks i = .busy (.aexit exc) p → (phaseOf i w'.history).Done sid →
    endings sid w'.history = [Ending.of exc]
  absent : w'.tasks i = .absent → block i w'.history = none

/-- A step keeps the run tidy if it does so for the task that makes it, and touches only sessions
    of that task. -/
theorem Tidy.after (hw : Tidy w) (hi : TidyAfter w w' i)
    (hphase : ∀ j, j ≠ i → phaseOf j w'.history = phaseOf j w.history)
    (hblock : ∀ j, j ≠ i → block j w'.history = block j w.history)
    (hmadeBy : ∀ j, j ≠ i → madeBy j w'.history = madeBy j w.history)
    (htasks : ∀ j, j ≠ i → w'.tasks j = w.tasks j)
    (hscopes : ∀ j, j ≠ i → w'.shared.scopes j = w.shared.scopes j)
    (hsessions : w.shared.sessions ⊆ w'.shared.sessions)
    (hmade : ∀ j, j ≠ i → ∀ sid, Made j sid w'.history → Made j sid w.history)
    (hgrow : ∀ j sid, Made j sid w.history → Made j sid w'.history)
    (hframe : ∀ sid, ¬Made i sid w.history →
      closes sid w'.history = closes sid w.history ∧ endings sid w'.history =
      endings sid w.history) : Tidy w' where
  scope j := by
    by_cases hj : j = i
    · subst hj
      exact hi.scope
    · rw [hscopes j hj, hphase j hj, hblock j hj]
      exact hw.scope j
  fits j := by
    by_cases hj : j = i
    · subst hj
      exact hi.fits
    · rw [hphase j hj, hblock j hj, hmadeBy j hj]
      exact hw.fits j
  closed j sid hm := by
    by_cases hj : j = i
    · subst hj
      exact hi.closed sid hm
    · have hm := hmade j hj sid hm
      rw [(hframe sid fun h => hj (hw.owner j i sid hm h)).1, hphase j hj, hblock j hj]
      exact hw.closed j sid hm
  unmade sid hm := by
    have hm : ∀ j, ¬Made j sid w.history := fun j h => hm j (hgrow j sid h)
    rw [(hframe sid (hm i)).1, (hframe sid (hm i)).2]
    exact hw.unmade sid hm
  sessions j sid hm := by
    by_cases hj : j = i
    · subst hj
      exact hi.sessions sid hm
    · exact hsessions (hw.sessions j sid (hmade j hj sid hm))
  owner j k sid hj hk := by
    by_cases hji : j = i
    · by_cases hki : k = i
      · rw [hji, hki]
      · rw [hji] at hj ⊢
        exact (hi.owner k sid hj (hmade k hki sid hk)).symm
    · by_cases hki : k = i
      · rw [hki] at hk ⊢
        exact hi.owner j sid hk (hmade j hji sid hj)
      · exact hw.owner j k sid (hmade j hji sid hj) (hmade k hki sid hk)
  untouched j sid hj he := by
    by_cases hji : j = i
    · subst hji
      exact hi.untouched sid hj he
    · rw [hphase j hji, hblock j hji] at hj
      rw [hphase j hji] at he
      rw [(hframe sid fun h => hji (hw.owner j i sid ((hw.fits j).made_of_open hj) h)).2]
      exact hw.untouched j sid hj he
  ended j exc p sid hp hd := by
    by_cases hji : j = i
    · subst hji
      exact hi.ended exc p sid hp hd
    · rw [htasks j hji] at hp
      rw [hphase j hji] at hd
      rw [(hframe sid fun h => hji (hw.owner j i sid ((hw.fits j).made_of_done hd) h)).2]
      exact hw.ended j exc p sid hp hd
  absent j hj := by
    by_cases hji : j = i
    · subst hji
      exact hi.absent hj
    · rw [htasks j hji] at hj
      rw [hblock j hji]
      exact hw.absent j hj

/-- A step of task `i` that makes no session and changes nothing of the other tasks. -/
theorem Tidy.move (hw : Tidy w)
    (hphase : ∀ j, j ≠ i → phaseOf j w'.history = phaseOf j w.history)
    (hblock : ∀ j, j ≠ i → block j w'.history = block j w.history)
    (hmadeBy : ∀ j, j ≠ i → madeBy j w'.history = madeBy j w.history)
    (htasks : ∀ j, j ≠ i → w'.tasks j = w.tasks j)
    (hscopes : ∀ j, j ≠ i → w'.shared.scopes j = w.shared.scopes j)
    (hsessions : w'.shared.sessions = w.shared.sessions)
    (hmade : ∀ j sid, Made j sid w'.history ↔ Made j sid w.history)
    (hscope : w'.shared.scopes i =
      ((phaseOf i w'.history).scope (block i w'.history)).map Scope.of)
    (hfits : (phaseOf i w'.history).Fits (block i w'.history) (madeBy i w'.history))
    (hframe : ∀ sid, (phaseOf i w.history).open (block i w.history) ≠ some sid →
      closes sid w'.history = closes sid w.history ∧ endings sid w'.history = endings sid w.history)
    (hcloses : ∀ sid, (phaseOf i w.history).open (block i w.history) = some sid →
      closes sid w'.history =
        if (phaseOf i w'.history).open (block i w'.history) = some sid then 0 else 1)
    (hopen : ∀ sid, (phaseOf i w'.history).open (block i w'.history) = some sid →
      (phaseOf i w.history).open (block i w.history) = some sid)
    (huntouched : ∀ sid, (phaseOf i w'.history).open (block i w'.history) = some sid →
      (phaseOf i w'.history).ending = none → endings sid w'.history = [])
    (hended : ∀ exc p sid, w'.tasks i = .busy (.aexit exc) p → (phaseOf i w'.history).Done sid →
      endings sid w'.history = [Ending.of exc])
    (habsent : w'.tasks i = .absent → block i w'.history = none) : Tidy w' := by
  have hnotOpen : ∀ sid, ¬Made i sid w.history →
      (phaseOf i w.history).open (block i w.history) ≠ some sid :=
    fun sid hm ho => hm ((hw.fits i).made_of_open ho)
  refine hw.after ⟨hscope, hfits, fun sid hm => ?_, fun sid hm => ?_, fun j sid hm hj => ?_,
    huntouched, hended, habsent⟩
    hphase hblock hmadeBy htasks hscopes (by rw [hsessions]; exact List.Subset.refl _)
    (fun j _ sid => (hmade j sid).1) (fun j sid => (hmade j sid).2) fun sid hm =>
    hframe sid (hnotOpen sid hm)
  · rw [hmade] at hm
    by_cases ho : (phaseOf i w.history).open (block i w.history) = some sid
    · exact hcloses sid ho
    · rw [(hframe sid ho).1, hw.closed i sid hm, if_neg ho, if_neg fun h => ho (hopen sid h)]
  · rw [hsessions]
    exact hw.sessions i sid ((hmade i sid).1 hm)
  · exact hw.owner j i sid hj ((hmade i sid).1 hm)

section
variable {h : Moments} {j : ℕ} {sid u : SessionId} {c : Call} {r : Except Exc (Ret c)}

@[simp] theorem block_call : block j (.call i c r :: h) = block j h := rfl

@[simp] theorem block_start {op : UnitOfWorkMethod} : block j (.start i op :: h) = block j h := rfl

@[simp] theorem block_fork {k : ℕ} : block j (.fork i k :: h) = block j h := rfl

theorem madeBy_call (hc : c ≠ .sessionFactory) : madeBy j (.call i c r :: h) = madeBy j h := by
  cases c <;> first | rfl | exact absurd rfl hc

theorem made_cons (hm : ∀ i sid, m ≠ .call i .sessionFactory (.ok sid)) :
    Made j sid (m :: h) ↔ Made j sid h :=
  List.mem_cons.trans (or_iff_right fun h => hm j sid h.symm)

theorem made_call (hc : c ≠ .sessionFactory) : Made j sid (.call i c r :: h) ↔ Made j sid h := by
  refine made_cons fun k u h => hc ?_
  cases h
  rfl

@[simp] theorem closes_close {r : Except Exc Unit} : closes sid (.call i (.close u) r :: h) =
    if u = sid then closes sid h + 1 else closes sid h := rfl

theorem closes_call (hc : ∀ u, c ≠ .close u) : closes sid (.call i c r :: h) = closes sid h := by
  cases c <;> first | rfl | exact absurd rfl (hc _)

theorem endings_call (hc : ∀ u, c ≠ .commit u ∧ c ≠ .rollback u) :
    endings sid (.call i c r :: h) = endings sid h := by
  cases c <;> first | rfl | exact absurd rfl (hc _).1 | exact absurd rfl (hc _).2

end

/-- `session_factory()` makes a session of its own for the task. -/
theorem Tidy.create (hw : Tidy w) {s : State}
    {t : Task UnitOfWorkMethod Call Ret Exc UnitOfWorkResult}
    {sid : SessionId} (hφ : phaseOf i w.history = .vacant)
    (hfresh : ∀ e ∈ w.shared.sessions, e.2 ≠ sid) (hscopes : s.scopes = w.shared.scopes)
    (hsessions : s.sessions = (i, sid) :: w.shared.sessions) :
    Tidy (w.after s i t (.call i .sessionFactory (.ok sid))) := by
  set w' := w.after s i t (.call i .sessionFactory (.ok sid))
  have hself : phaseOf i w'.history = .created sid := by
    change phaseOf i (.call i .sessionFactory (.ok sid) :: w.history) = _
    rw [phaseOf_call, hφ]
    rfl
  have hblock : block i w'.history = none := by
    have hfits := hw.fits i
    rw [hφ] at hfits
    exact hfits
  have hmade : ∀ j u, Made j u w'.history ↔ (j = i ∧ u = sid) ∨ Made j u w.history := by
    intro j u
    refine List.mem_cons.trans (or_congr_left ⟨fun h => ?_, fun h => ?_⟩)
    · cases h
      exact ⟨rfl, rfl⟩
    · rw [h.1, h.2]
  -- the new session is made by nobody else
  have hnew : ∀ j u, Made j u w.history → u ≠ sid := fun j u h => hfresh _ (hw.sessions j u h)
  have hunmade : closes sid w.history = 0 ∧ endings sid w.history = [] :=
    hw.unmade sid fun j hj => hnew j sid hj rfl
  have hmem : ∀ e, e ∈ w'.shared.sessions ↔ e = (i, sid) ∨ e ∈ w.shared.sessions := by
    intro e
    change e ∈ s.sessions ↔ _
    rw [hsessions, List.mem_cons]
  refine hw.after ⟨?_, ?_, fun u hm => ?_, fun u hm => ?_, fun j u hm hj => ?_, fun u ho he => ?_,
    fun exc p u hp hd => ?_,
    fun _ => hblock⟩ (fun j hj => phaseOf_other (by simpa using Ne.symm hj) _) (fun _ _ => rfl)
    (fun j hj => madeBy_other (by simpa using Ne.symm hj))
      (fun j hj => Clients.after_ne _ _ _ _ _ _ hj)
    (fun j _ => congrFun hscopes j) (fun e he => (hmem e).2 (.inr he)) (fun j hj u hm => ?_)
    (fun j u hm => (hmade j u).2 (.inr hm)) fun u _ => ⟨rfl, rfl⟩
  · have hscope := hw.scope i
    rw [hφ] at hscope
    rw [hself]
    exact (congrFun hscopes i).trans hscope
  · rw [hself]
    exact ⟨hblock, if_pos rfl⟩
  · rw [hself]
    rcases (hmade i u).1 hm with ⟨-, rfl⟩ | hold
    · exact hunmade.1.trans (if_pos rfl).symm
    · have hne : sid ≠ u := Ne.symm (hnew i u hold)
      have hnone : block i w.history = none := hblock
      change closes u w.history = _
      rw [hw.closed i u hold, hφ, hnone]
      simp [Phase.open, hne]
  · rcases (hmade i u).1 hm with ⟨-, rfl⟩ | hold
    · exact (hmem _).2 (.inl rfl)
    · exact (hmem _).2 (.inr (hw.sessions i u hold))
  · rcases (hmade i u).1 hm with ⟨-, rfl⟩ | hold
    · exact absurd rfl (hnew j _ hj)
    · exact hw.owner j i u hj hold
  · rw [hself] at ho
    cases ho
    exact hunmade.2
  · rw [hself] at hd
    cases hd
  · exact ((hmade j u).1 hm).resolve_left fun h => hj h.1

section
variable {op : UnitOfWorkMethod} {c : Call} {r : Except Exc (Ret c)} {s : State}
  {prog : App UnitOfWorkResult} {φ φ' : Phase} {b : Option SessionId}
  (hφ : phaseOf i w.history = φ) (hφ' : φ.after c r = φ') (hb : block i w.history = b)
  (hc : c ≠ .sessionFactory)
  (hscopes : ∀ j, j ≠ i → s.scopes j = w.shared.scopes j)
  (hsessions : s.sessions = w.shared.sessions)
  (hscope : s.scopes i = (φ'.scope b).map Scope.of) (hfits : φ'.Fits b (madeBy i w.history))
include hφ hφ' hb hc hscopes hsessions hscope hfits

/-- A call of task `i`: what is left to show about the sessions. -/
theorem Tidy.called (hw : Tidy w)
    (hframe : ∀ sid, φ.open b ≠ some sid → closes sid (.call i c r :: w.history) =
      closes sid w.history ∧ endings sid (.call i c r :: w.history) = endings sid w.history)
    (hcloses : ∀ sid, φ.open b = some sid → closes sid (.call i c r :: w.history) =
      if φ'.open b = some sid then 0 else 1)
    (hopen : ∀ sid, φ'.open b = some sid → φ.open b = some sid)
    (huntouched : ∀ sid, φ'.open b = some sid → φ'.ending = none →
      endings sid (.call i c r :: w.history) = [])
    (hended : ∀ exc sid, op = .aexit exc → φ'.Done sid →
      endings sid (.call i c r :: w.history) = [Ending.of exc]) :
    Tidy (w.after s i (.busy op prog) (.call i c r)) := by
  have hself : phaseOf i (.call i c r :: w.history) = φ' := by rw [phaseOf_call, hφ, hφ']
  have hmadeBy : ∀ j, madeBy j (.call i c r :: w.history) = madeBy j w.history :=
    fun j => madeBy_call hc
  refine hw.move (fun j hj => phaseOf_other (by simpa using Ne.symm hj) _) (fun _ _ => rfl)
    (fun j _ => hmadeBy j) (fun j hj => Clients.after_ne _ _ _ _ _ _ hj) hscopes hsessions
    (fun j sid => made_call hc) ?_ ?_ ?_ ?_ ?_ ?_ ?_ ?_
  · rw [Clients.after_history, block_call, hself, hb]
    exact hscope
  · rw [Clients.after_history, block_call, hself, hb, hmadeBy]
    exact hfits
  · rw [hφ, hb]
    exact hframe
  · rw [Clients.after_history, block_call, hself, hφ, hb]
    exact hcloses
  · rw [Clients.after_history, block_call, hself, hφ, hb]
    exact hopen
  · rw [Clients.after_history, block_call, hself, hb]
    exact huntouched
  · rw [Clients.after_history, hself, Clients.after_self]
    intro exc p sid hp hd
    cases hp
    exact hended exc sid rfl hd
  · rw [Clients.after_self]
    exact fun h => by cases h

/-- A call that neither ends a transaction nor closes a session. -/
theorem Tidy.quiet (hw : Tidy w) (hclose : ∀ sid, c ≠ .close sid)
    (hend : ∀ sid, c ≠ .commit sid ∧ c ≠ .rollback sid) (hopen : φ'.open b = φ.open b)
    (hending : ∀ sid, φ'.open b = some sid → φ.ending = none)
    (hdone : ∀ exc sid, op = .aexit exc → φ'.Done sid → endings sid w.history = [Ending.of exc]) :
    Tidy (w.after s i (.busy op prog) (.call i c r)) := by
  refine hw.called hφ hφ' hb hc hscopes hsessions hscope hfits
    (fun sid _ => ⟨closes_call hclose, endings_call hend⟩) (fun sid ho => ?_) (fun sid ho => ?_)
    (fun sid ho _ => ?_) (fun exc sid hop hd => ?_)
  · have ho' : (phaseOf i w.history).open (block i w.history) = some sid := by rw [hφ, hb, ho]
    rw [closes_call hclose, hw.closed i sid ((hw.fits i).made_of_open ho'), if_pos ho', hopen,
      if_pos ho]
  · rw [← hopen]
    exact ho
  · rw [endings_call hend]
    refine hw.untouched i sid ?_ ?_
    · rw [hφ, hb, ← hopen]
      exact ho
    · rw [hφ]
      exact hending sid ho
  · rw [endings_call hend]
    exact hdone exc sid hop hd

/-- A call that ends the transaction of the session. -/
theorem Tidy.ending (hw : Tidy w) {sid : SessionId} {exc : Option Exc} {failed : Bool}
    (hends : ∀ u, endings u (.call i c r :: w.history) =
      if sid = u then Ending.of exc :: endings u w.history else endings u w.history)
    (hclose : ∀ sid, c ≠ .close sid) (hop : op = .aexit exc) (hbsid : b = some sid)
    (hopen : φ.open b = b) (hending : φ.ending = none) (hfinished : φ' = .finished sid failed) :
    Tidy (w.after s i (.busy op prog) (.call i c r)) := by
  subst hfinished hop
  have ho : (phaseOf i w.history).open (block i w.history) = some sid := by
    rw [hφ, hb, hopen, hbsid]
  have huntouched := hw.untouched i sid ho (by rw [hφ, hending])
  refine hw.called hφ hφ' hb hc hscopes hsessions hscope hfits (fun u hu => ?_) (fun u hu => ?_)
    (fun u hu => hopen.trans hu) nofun fun exc' u hexc hd => ?_
  · refine ⟨closes_call hclose, (hends u).trans (if_neg fun h => hu ?_)⟩
    rw [hopen, hbsid, h]
  · have hu' : (phaseOf i w.history).open (block i w.history) = some u := by rw [hφ, hb, hu]
    rw [closes_call hclose, hw.closed i u ((hw.fits i).made_of_open hu'), if_pos hu', ← hu, hopen]
    exact (if_pos rfl).symm
  · cases hexc
    rw [hends, if_pos hd.1, ← hd.1, huntouched]

/-- `close()`, at the end of a block. -/
theorem Tidy.closing (hw : Tidy w) {sid : SessionId} {failed : Bool}
    (hcloses : ∀ u, closes u (.call i c r :: w.history) =
      if sid = u then closes u w.history + 1 else closes u w.history)
    (hend : ∀ sid, c ≠ .commit sid ∧ c ≠ .rollback sid) (hbsid : b = some sid)
    (hopen : φ.open b = b) (hclosed : φ' = .closed sid failed)
    (hdone : ∀ exc, op = .aexit exc → failed = false → endings sid w.history = [Ending.of exc]) :
    Tidy (w.after s i (.busy op prog) (.call i c r)) := by
  subst hclosed
  refine hw.called hφ hφ' hb hc hscopes hsessions hscope hfits (fun u hu => ?_) (fun u hu => ?_)
    nofun nofun fun exc u hexc hd => ?_
  · refine ⟨(hcloses u).trans (if_neg fun h => hu ?_), endings_call hend⟩
    rw [hopen, hbsid, h]
  · have hu' : (phaseOf i w.history).open (block i w.history) = some u := by rw [hφ, hb, hu]
    have hsu : sid = u := by
      rw [hopen, hbsid] at hu
      exact Option.some.inj hu
    rw [hcloses, if_pos hsu, hw.closed i u ((hw.fits i).made_of_open hu'), if_pos hu']
    exact (if_neg nofun).symm
  · rw [endings_call hend, ← hd.1]
    exact hdone exc hexc hd.2

end

/-- A call keeps the run tidy. -/
theorem Tidy.call (hw : Tidy w) {op : UnitOfWorkMethod} {c : Call} {r : Except Exc (Ret c)}
    {s : State} {prog prog' : App UnitOfWorkResult}
    (ht : w.tasks i = .busy op prog)
    (hc : Makes op (phaseOf i w.history) c)
    (ha : Acts i w.shared s c r) (hP : Orderly w (.call i c r)) :
    Tidy (w.after s i (.busy op prog') (.call i c r)) := by
  have hscope := hw.scope i
  have hfits := hw.fits i
  generalize hφ : phaseOf i w.history = φ at hc hscope hfits
  cases hc with
  | scopeGet =>
    cases ha with
    | awaited h => cases h
    | @scopeGet scope hi hscopes hsessions =>
      have hb : w.shared.scopes i = (block i w.history).map Scope.of := hscope
      cases hbl : block i w.history with
      | none =>
        rw [hbl, hi] at hb
        subst hb
        exact hw.quiet hφ rfl hbl nofun (fun j _ => by rw [hscopes]) hsessions
          (by rw [hscopes, hi]; rfl) rfl nofun (fun _ => ⟨nofun, nofun⟩) rfl (fun _ h => by cases h)
          fun _ _ _ hd => False.elim hd
      | some sid =>
        rw [hbl, hi] at hb
        subst hb
        exact hw.quiet hφ rfl hbl nofun (fun j _ => by rw [hscopes]) hsessions
          (by rw [hscopes, hi]; rfl) rfl nofun (fun _ => ⟨nofun, nofun⟩) rfl (fun _ _ => rfl)
          fun _ _ _ hd => False.elim hd
  | sessionFactory =>
    cases ha with
    | awaited h => cases h
    | sessionFactory hfresh hscopes hsessions =>
      exact hw.create hφ hfresh hscopes hsessions
  | @begin sid =>
    cases r with
    | error e => exact absurd rfl (hP sid e (Or.inl rfl))
    | ok =>
      cases ha with
      | awaited _ hscopes hsessions =>
        exact hw.quiet hφ rfl rfl nofun (fun j _ => by rw [hscopes]) hsessions
          (by rw [hscopes]; exact hscope) hfits nofun (fun _ => ⟨nofun, nofun⟩) rfl (fun _ _ => rfl)
          fun _ _ _ hd => False.elim hd
  | @enter sid =>
    cases ha with
    | awaited h => cases h
    | scopeSet hscopes hsessions =>
      exact hw.quiet hφ rfl rfl nofun (fun j hj => by rw [hscopes, Function.update_of_ne hj])
        hsessions (by rw [hscopes, Function.update_self]; rfl) hfits
          nofun (fun _ => ⟨nofun, nofun⟩) rfl
        (fun _ _ => rfl)
          fun _ _ _ hd => False.elim hd
  | @flush sid =>
    cases ha with
    | awaited _ hscopes hsessions =>
      cases r <;>
        exact hw.quiet hφ rfl rfl nofun (fun j _ => by rw [hscopes]) hsessions
          (by rw [hscopes]; exact hscope) hfits nofun (fun _ => ⟨nofun, nofun⟩) rfl (fun _ _ => rfl)
          fun _ _ _ hd => False.elim hd
  | @leave sid failed exc =>
    cases ha with
    | awaited h => cases h
    | scopeSet hscopes hsessions =>
      refine hw.quiet hφ rfl rfl nofun (fun j hj => by rw [hscopes, Function.update_of_ne hj])
        hsessions (by rw [hscopes, Function.update_self]; rfl) hfits nofun (fun _ => ⟨nofun, nofun⟩)
          rfl (fun _ h => by cases h)
        fun exc' u hop hd => ?_
      cases hop
      exact hw.ended i exc _ u ht (by rw [hφ]; exact hd)
  | @commit sid =>
    have hb : block i w.history = some sid := hfits
    cases ha with
    | awaited _ hscopes hsessions =>
      cases r <;>
        exact hw.ending hφ rfl rfl nofun (fun j _ => by rw [hscopes]) hsessions
          (by rw [hscopes]; exact hscope) hfits (fun _ => rfl) nofun rfl hb rfl rfl rfl
  | @rollback sid e =>
    have hb : block i w.history = some sid := hfits
    cases ha with
    | awaited _ hscopes hsessions =>
      cases r <;>
        exact hw.ending hφ rfl rfl nofun (fun j _ => by rw [hscopes]) hsessions
          (by rw [hscopes]; exact hscope) hfits (fun _ => rfl) nofun rfl hb rfl rfl rfl
  | @closeUnflushed sid exc =>
    have hb : block i w.history = some sid := hfits
    cases r with
    | error e => exact absurd rfl (hP sid e (Or.inr rfl))
    | ok =>
      cases ha with
      | awaited _ hscopes hsessions =>
        exact hw.closing hφ rfl rfl nofun (fun j _ => by rw [hscopes]) hsessions
          (by rw [hscopes]; exact hscope) hfits (fun _ => rfl) (fun _ => ⟨nofun, nofun⟩) hb rfl rfl
          nofun
  | @close sid failed exc =>
    have hb : block i w.history = some sid := hfits
    cases r with
    | error e => exact absurd rfl (hP sid e (Or.inr rfl))
    | ok =>
      cases ha with
      | awaited _ hscopes hsessions =>
        refine hw.closing hφ rfl rfl nofun (fun j _ => by rw [hscopes]) hsessions
          (by rw [hscopes]; exact hscope) hfits (fun _ => rfl) (fun _ => ⟨nofun, nofun⟩) hb rfl rfl
          fun exc' hexc hfailed => ?_
        cases hexc
        exact hw.ended i exc _ sid ht (by rw [hφ]; exact ⟨rfl, hfailed⟩)

/-- A step that is no call: the task goes on with its block `b`. -/
theorem Tidy.turn (hw : Tidy w) {s : State}
    {t : Task UnitOfWorkMethod Call Ret Exc UnitOfWorkResult}
    {b : Option SessionId} (hm : ∀ i c r, m ≠ .call i c r)
    (hphase : ∀ j, j ≠ i → phaseOf j (m :: w.history) = phaseOf j w.history)
    (hblock : ∀ j, j ≠ i → block j (m :: w.history) = block j w.history)
    (hscopes : ∀ j, j ≠ i → s.scopes j = w.shared.scopes j)
      (hsessions : s.sessions = w.shared.sessions)
    (hscope : s.scopes i = b.map Scope.of)
    (hself : phaseOf i (m :: w.history) = .idle ∨ phaseOf i (m :: w.history) = .called)
    (hb : block i (m :: w.history) = b)
    (hopen : (phaseOf i w.history).open (block i w.history) = b)
    (hending : ∀ sid, b = some sid → (phaseOf i w.history).ending = none) (ht : t ≠ .absent) :
    Tidy (w.after s i t m) := by
  have hquiet : ∀ j sid, madeBy j (m :: w.history) = madeBy j w.history ∧
      (Made j sid (m :: w.history) ↔ Made j sid w.history) ∧
      closes sid (m :: w.history) = closes sid w.history ∧
      endings sid (m :: w.history) = endings sid w.history := by
    intro j sid
    refine ⟨?_, made_cons fun i sid => hm i _ _, ?_, ?_⟩ <;>
      cases m <;> first | rfl | exact absurd rfl (hm _ _ _)
  have hopen' : (phaseOf i (m :: w.history)).open b = b := by
    rcases hself with h | h <;> rw [h] <;> rfl
  refine hw.move hphase hblock (fun j _ => (hquiet j 0).1)
    (fun j hj => Clients.after_ne _ _ _ _ _ _ hj)
    hscopes hsessions (fun j sid => (hquiet j sid).2.1) ?_ ?_ (fun sid _ => (hquiet 0 sid).2.2)
    (fun sid ho => ?_) (fun sid ho => ?_) (fun sid ho _ => ?_) (fun exc p sid _ hd => ?_)
    (fun h => ?_)
  · rw [Clients.after_shared, Clients.after_history, hb, hscope]
    rcases hself with h | h <;> rw [h] <;> rfl
  · rw [Clients.after_history]
    rcases hself with h | h <;> rw [h] <;> trivial
  · rw [Clients.after_history, (hquiet 0 sid).2.2.1, hw.closed i sid ((hw.fits i).made_of_open ho),
      if_pos ho, hb, hopen', if_pos (hopen.symm.trans ho)]
  · rw [Clients.after_history, hb, hopen'] at ho
    exact hopen.trans ho
  · rw [Clients.after_history, hb, hopen'] at ho
    rw [Clients.after_history, (hquiet 0 sid).2.2.2]
    exact hw.untouched i sid (hopen.trans ho) (hending sid ho)
  · rw [Clients.after_history] at hd
    rcases hself with h | h <;> rw [h] at hd <;> cases hd
  · rw [Clients.after_self] at h
    exact absurd h ht

/-- **A step keeps an orderly run tidy.** -/
theorem Tidy.step (hw : Tidy w) (hs : Proper w m w') (hP : Orderly w m) : Tidy w' := by
  cases hs with
  | @start i op hi =>
    have hscope := hw.scope i
    rw [hi] at hscope
    exact hw.turn (fun _ _ _ h => by cases h)
      (fun j hj => phaseOf_other (by simpa using Ne.symm hj) _) (fun _ _ => rfl)
      (fun _ _ => rfl) rfl hscope (Or.inr (phaseOf_start op)) rfl (by rw [hi]; rfl)
      (fun _ _ => by rw [hi]; rfl) nofun
  | call ht hc ha _ => exact hw.call ht hc ha hP
  | @finish i op out he =>
    have hscope := hw.scope i
    have hfits := hw.fits i
    have hturn : ∀ b, w.shared.scopes i = b.map Scope.of →
        block i (.finish i op out :: w.history) = b →
        (phaseOf i w.history).open (block i w.history) = b →
        (∀ sid, b = some sid → (phaseOf i w.history).ending = none) →
        Tidy (w.after w.shared i .idle (.finish i op out)) := fun b h₁ h₂ h₃ h₄ =>
      hw.turn (fun _ _ _ h => by cases h) (fun j hj => phaseOf_other (by simpa using Ne.symm hj) _)
        (fun j hj => block_other (by simpa using Ne.symm hj)) (fun _ _ => rfl) rfl h₁
        (Or.inl (phaseOf_finish op out)) h₂ h₃ h₄ nofun
    generalize hφ : phaseOf i w.history = φ at he hscope hfits hturn
    cases he with
    | inactive hop =>
      have hb : block i w.history = none := hfits
      refine hturn none (by rw [hscope, hb]; rfl) ?_ hb nofun
      cases op with
      | aenter => exact absurd rfl hop
      | aexit => exact if_pos rfl
      | _ => exact hb
    | nested | userRepository | refreshSessionRepository =>
      exact hturn _ hscope rfl rfl fun _ _ => rfl
    | @entered sid => exact hturn (some sid) hscope ((if_pos rfl).trans hfits.2) rfl fun _ _ => rfl
    | exited | failed => exact hturn none hscope (if_pos rfl) rfl nofun
    | abandoned | unclosed => exact hfits.elim
  | @fork i j hj hi hnew =>
    have hb : block j w.history = none := hw.absent j hnew
    refine hw.turn (fun _ _ _ h => by cases h) (fun _ _ => rfl) (fun _ _ => rfl)
      (fun k hk => Function.update_of_ne hk _ _) rfl ?_ (Or.inl hj) hb
        (by rw [hj, hb]; rfl) nofun nofun
    exact (Function.update_self ..).trans hP
  | @stop i hi =>
    have hscope := hw.scope i
    rw [hi] at hscope
    exact hw.turn (fun _ _ _ h => by cases h) (fun _ _ => rfl) (fun _ _ => rfl) (fun _ _ => rfl) rfl
      hscope (Or.inl hi) rfl (by rw [hi]; rfl) (fun _ _ => by rw [hi]; rfl) nofun

/-- A task ends only the session of its block. -/
theorem Makes.open {op : UnitOfWorkMethod} {φ : Phase} {c : Call} {b m : Option SessionId}
    {sid : SessionId} (hc : Makes op φ c) (hends : c.EndsSession sid) (hfits : φ.Fits b m) :
    φ.open b = some sid := by
  cases hc with
  | commit | rollback | closeUnflushed | close =>
    obtain rfl : _ = sid := hends
    exact hfits
  | _ => exact hends.elim

theorem quiet_call {h : Moments} {c : Call} {r : Except Exc (Ret c)} {sid : SessionId}
    (hc : ¬c.EndsSession sid) : closes sid (.call i c r :: h) = closes sid h ∧
      endings sid (.call i c r :: h) = endings sid h := by
  cases c with
  | commit => exact ⟨rfl, if_neg hc⟩
  | rollback => exact ⟨rfl, if_neg hc⟩
  | close => exact ⟨if_neg hc, rfl⟩
  | _ => exact ⟨rfl, rfl⟩

/-- What is closed stays closed, and its transaction ended as it was. -/
theorem Tidy.settled (hw : Tidy w) (hs : Proper w m w') {sid : SessionId}
    (hsid : closes sid w.history ≠ 0) : closes sid w'.history = closes sid w.history ∧
      endings sid w'.history = endings sid w.history := by
  cases hs with
  | start | finish | fork | stop => exact ⟨rfl, rfl⟩
  | call _ hc =>
    refine quiet_call fun hends => hsid ?_
    have ho := hc.open hends (hw.fits _)
    rw [hw.closed _ sid ((hw.fits _).made_of_open ho), if_pos ho]

section
variable {ext : Externals} {d : Dialect} {faulty : Call → Bool}
  (hf : ∀ c, faulty c = true → c.awaited = true) {root : ℕ} {S : Store} {clock : Instant}
include hf

/-- **Orderly runs are tidy.** -/
theorem tidy (hw : (unitOfWork ext d faulty).ReachableIf Orderly root (State.idle S clock) w) :
    Tidy w := by
  induction hw with
  | start =>
    have hnot : ∀ i sid, ¬Made i sid [] := fun _ _ h => by cases h
    exact ⟨fun _ => rfl, fun _ => trivial, fun i sid h => absurd h (hnot i sid),
      fun _ _ => ⟨rfl, rfl⟩,
      fun i sid h => absurd h (hnot i sid), fun i _ sid h => absurd h (hnot i sid), nofun,
      fun _ _ _ _ _ hd => False.elim hd, fun _ _ => rfl⟩
  | step hw hs hP ih => exact ih.step (proper hf hw hs) hP

/-- **Sessions are closed, and their transactions ended, once and for all.** -/
theorem settled (hw : (unitOfWork ext d faulty).ReachableIf Orderly root (State.idle S clock) w)
    {h₁ h₂ : Moments} {sid : SessionId} (hh : w.history = h₁ ++ h₂) (hsid : closes sid h₂ ≠ 0) :
    closes sid w.history = closes sid h₂ ∧ endings sid w.history = endings sid h₂ := by
  induction hw generalizing h₁ with
  | start =>
    obtain ⟨-, rfl⟩ := List.append_eq_nil_iff.1 hh.symm
    exact absurd rfl hsid
  | @step v m v' hv hs hP ih =>
    cases h₁ with
    | nil =>
      rw [hh]
      exact ⟨rfl, rfl⟩
    | cons m' h₁ =>
      rw [hs.history] at hh
      obtain ⟨hcloses, hendings⟩ := ih (List.cons.inj hh).2
      obtain ⟨h₃, h₄⟩ := (tidy hf hv).settled (proper hf hv hs) (hcloses ▸ hsid)
      exact ⟨h₃.trans hcloses, h₄.trans hendings⟩

end

end FastapiTemplate
