/-
  A pool of workers that execute programs (`Prog`).

  The entries wait in a queue; the programs of at most `n` of them are executed
  at a time, and their calls are answered one by one in any order.  What an
  entry ends with is a run of its own program (`Sound.finished`), no run of the
  pool goes on forever (`wellFounded_step`) or gets stuck (`exists_step`), what
  the programs keep to on their own they keep to in the pool (`Keeps`), and
  where the answers depend on the calls alone, every run ends with the same
  outcomes (`Sound.finished_eval`).
-/
import FastapiTemplate.Lib.Program
import Mathlib.Data.Multiset.AddSub
import Mathlib.Logic.Hydra

namespace Effects

variable {ι C : Type} {R : C → Type} {ε α β : Type}

/-! ## Programs -/

/-- Answers that depend on the call alone. -/
abbrev Answers (C : Type) (R : C → Type) (ε : Type) := (c : C) → Except ε (R c)

/-- How the program ends with these answers. -/
def Prog.eval (web : Answers C R ε) : Prog C R ε α → Except ε α
  | .ret a => .ok a
  | .raise e => .error e
  | .call c k => (k (web c)).eval web

/-- A program that is not at its end has a call. -/
theorem Prog.cases_end (p : Prog C R ε α) : (∃ out, p = Prog.ofExcept out) ∨ ∃ c k, p =
    .call c k := by
  cases p with
  | ret a => exact Or.inl ⟨.ok a, rfl⟩
  | raise e => exact Or.inl ⟨.error e, rfl⟩
  | call c k => exact Or.inr ⟨c, k, rfl⟩

/-- A program after one answer. -/
def Prog.After (p q : Prog C R ε α) : Prop := ∃ c k r, q = .call c k ∧ p = k r

theorem Prog.wellFounded_after : WellFounded (Prog.After (C := C) (R := R) (ε := ε) (α := α)) := by
  refine ⟨fun q => ?_⟩
  induction q with
  | ret | raise =>
    refine ⟨_, ?_⟩
    rintro _ ⟨c, k, r, h, -⟩
    cases h
  | call c k ih =>
    refine ⟨_, ?_⟩
    rintro _ ⟨c, k, r, h, rfl⟩
    cases h
    exact ih r

/-! ## Pools -/

/-- The entries that wait, those at work with what is left of their programs, and those that are
    finished, newest first. -/
structure Pool (ι C : Type) (R : C → Type) (ε α : Type) where
  queue : List ι
  working : List (ι × Prog C R ε α)
  finished : List (ι × Except ε α)

namespace Pool

/-- Before any worker started. -/
def submit (entries : List ι) : Pool ι C R ε α := ⟨entries, [], []⟩

/-- Nothing is left to be done. -/
def Done (pool : Pool ι C R ε α) : Prop := pool.queue = [] ∧ pool.working = []

section
variable (n : ℕ) (task : ι → Prog C R ε α) (answer : (c : C) → Except ε (R c) → Prop)

/-- A worker takes the next entry, a call is answered, or a program ends. -/
inductive Step : Pool ι C R ε α → Pool ι C R ε α → Prop
  | take {i queue working finished} : working.length < n →
      Step ⟨i :: queue, working, finished⟩ ⟨queue, (i, task i) :: working, finished⟩
  | call {queue before i c k r after finished} : answer c r →
      Step ⟨queue, before ++ (i, .call c k) :: after, finished⟩
        ⟨queue, before ++ (i, k r) :: after, finished⟩
  | finish {queue before i out after finished} :
      Step ⟨queue, before ++ (i, Prog.ofExcept out) :: after, finished⟩
        ⟨queue, before ++ after, (i, out) :: finished⟩

/-- The pools of all runs. -/
abbrev Reachable (entries : List ι) : Pool ι C R ε α → Prop :=
  Relation.ReflTransGen (Step n task answer) (submit entries)

/-- Answers for runs: nothing is remembered. -/
def next (_ : Unit) (c : C) (r : Except ε (R c)) (_ : Unit) : Prop := answer c r

/-- What holds of the pools of all runs. -/
structure Sound (entries : List ι) (pool : Pool ι C R ε α) : Prop where
  length_le : pool.working.length ≤ n
  entries : (pool.queue + pool.working.map Prod.fst + pool.finished.map Prod.fst : Multiset ι) =
    entries
  /-- However a program that is at work ends, its entry may end. -/
  working : ∀ e ∈ pool.working, ∀ out, Runs (next answer) e.2 () out () →
    Runs (next answer) (task e.1) () out ()
  finished : ∀ e ∈ pool.finished, Runs (next answer) (task e.1) () e.2 ()

end

section
variable {n : ℕ} {task : ι → Prog C R ε α} {answer : (c : C) → Except ε (R c) → Prop}
    {entries : List ι}
  {pool pool' : Pool ι C R ε α}

theorem runs_ofExcept {out : Except ε α} : Runs (next answer) (Prog.ofExcept out) () out () := by
  cases out with
  | ok => exact .ret
  | error => exact .raise

theorem Sound.submit : Sound n task answer entries (submit entries) where
  length_le := Nat.zero_le n
  entries := by simp [Pool.submit]
  working _ he := by cases he
  finished _ he := by cases he

/-- **One step of the pool.** -/
theorem Sound.next (h : Sound n task answer entries pool) (hs : Step n task answer pool pool') :
    Sound n task answer entries pool' := by
  obtain ⟨hlength, hentries, hworking, hfinished⟩ := h
  cases hs with
  | @take i queue working finished hlt =>
    refine ⟨hlt, ?_, ?_, hfinished⟩
    · rw [← hentries]
      simp [← Multiset.cons_coe]
    · rintro e he
      rcases List.mem_cons.1 he with rfl | he
      · exact fun out hr => hr
      · exact hworking e he
  | @call queue before i c k r after finished ha =>
    refine ⟨by simpa using hlength, by simpa using hentries, ?_, hfinished⟩
    rintro e he out hr
    rcases List.mem_append.1 he with he | he
    · exact hworking e (List.mem_append_left _ he) out hr
    · rcases List.mem_cons.1 he with rfl | he
      · exact hworking (i, .call c k) (List.mem_append_right _ List.mem_cons_self) out (.call ha hr)
      · exact hworking e (List.mem_append_right _ (List.mem_cons_of_mem _ he)) out hr
  | @finish queue before i out after finished =>
    have hmem : (i, Prog.ofExcept out) ∈ before ++ (i, Prog.ofExcept out) :: after :=
      List.mem_append_right _ List.mem_cons_self
    refine ⟨?_, ?_, ?_, ?_⟩
    · have hle : before.length + (after.length + 1) ≤ n := by simpa using hlength
      simpa using Nat.le_of_succ_le hle
    · rw [← hentries]
      simp [← Multiset.cons_coe, ← Multiset.coe_add]
    · rintro e he out hr
      refine hworking e ?_ out hr
      rcases List.mem_append.1 he with he | he
      · exact List.mem_append_left _ he
      · exact List.mem_append_right _ (List.mem_cons_of_mem _ he)
    · rintro e he
      rcases List.mem_cons.1 he with rfl | he
      · exact hworking _ hmem out runs_ofExcept
      · exact hfinished e he

/-- **Every run of the pool.** -/
theorem Sound.of_reachable (h : Reachable n task answer entries pool) :
    Sound n task answer entries pool := by
  induction h with
  | refl => exact .submit
  | tail _ hs ih => exact ih.next hs

/-- **No deadlock**: where every call is answered, a pool with a worker goes on until it is done. -/
theorem exists_step (hn : 0 < n) (ha : ∀ c, ∃ r, answer c r) (h : ¬pool.Done) :
    ∃ pool', Step n task answer pool pool' := by
  obtain ⟨queue, working, finished⟩ := pool
  cases working with
  | nil =>
    cases queue with
    | nil => exact absurd ⟨rfl, rfl⟩ h
    | cons i queue => exact ⟨_, .take hn⟩
  | cons e working =>
    obtain ⟨i, p⟩ := e
    rcases Prog.cases_end p with ⟨out, rfl⟩ | ⟨c, k, rfl⟩
    · exact ⟨_, @Step.finish _ _ _ _ _ n task answer queue [] i out working finished⟩
    · obtain ⟨r, hr⟩ := ha c
      exact ⟨_, @Step.call _ _ _ _ _ n task answer queue [] i c k r working finished hr⟩

/-- What is left of the pool. -/
def rest (pool : Pool ι C R ε α) : ℕ × Multiset (Prog C R ε α) :=
  (pool.queue.length, (pool.working.map Prod.snd : List (Prog C R ε α)))

theorem Step.rest (h : Step n task answer pool pool') :
    Prod.Lex (· < ·) (Relation.CutExpand Prog.After) pool'.rest pool.rest := by
  cases h with
  | take => exact .left _ _ (Nat.lt_succ_self _)
  | @call queue before i c k r after finished =>
    refine .right _ ⟨{k r}, .call c k, ?_, ?_⟩
    · intro p hp
      exact ⟨c, k, r, rfl, Multiset.mem_singleton.1 hp⟩
    · simp only [List.map_append, List.map_cons, ← Multiset.coe_add, ← Multiset.cons_coe,
        ← Multiset.singleton_add]
      ac_rfl
  | @finish queue before i out after finished =>
    refine .right _ ⟨0, Prog.ofExcept out, fun _ hp => absurd hp (Multiset.notMem_zero _), ?_⟩
    simp only [List.map_append, List.map_cons, ← Multiset.coe_add, ← Multiset.cons_coe,
      ← Multiset.singleton_add]
    rw [add_zero]
    ac_rfl

/-- **Termination**: no run of the pool goes on forever. -/
theorem wellFounded_step : WellFounded fun pool' pool => Step n task answer pool pool' :=
  Subrelation.wf (fun h => h.rest)
    (InvImage.wf Pool.rest (WellFounded.prod_lex Nat.lt_wfRel.wf Prog.wellFounded_after.cutExpand))

/-- Every run of the pool can be completed. -/
theorem exists_done (hn : 0 < n) (ha : ∀ c, ∃ r, answer c r) (pool : Pool ι C R ε α) :
    ∃ pool', Relation.ReflTransGen (Step n task answer) pool pool' ∧ pool'.Done := by
  induction pool using (@wellFounded_step _ _ _ _ _ n task answer).induction with
  | _ pool ih =>
    by_cases hd : pool.Done
    · exact ⟨pool, .refl, hd⟩
    · obtain ⟨pool', hs⟩ := @exists_step _ _ _ _ _ n task answer _ hn ha hd
      obtain ⟨pool'', hsteps, hd⟩ := ih pool' hs
      exact ⟨pool'', .head hs hsteps, hd⟩

end

/-! ## Specifications -/

section
variable {n : ℕ} {task : ι → Prog C R ε α} {answer : (c : C) → Except ε (R c) → Prop}
    {entries : List ι}
  {pool pool' : Pool ι C R ε α} {σ : Type} {S : ι → Spec C R ε σ} {Q : ι → Except ε α → σ → Prop}
    {s₀ : σ}

/-- Every entry keeps to a specification of its own: what is left of its program does, and its
    outcome is one of the postcondition. -/
structure Keeps (task : ι → Prog C R ε α) (S : ι → Spec C R ε σ) (Q : ι → Except ε α → σ → Prop)
    (s₀ : σ)
    (pool : Pool ι C R ε α) : Prop where
  queue : ∀ i ∈ pool.queue, wp (S i) (task i) (Q i) s₀
  working : ∀ e ∈ pool.working, ∃ s, wp (S e.1) e.2 (Q e.1) s
  finished : ∀ e ∈ pool.finished, ∃ s, Q e.1 e.2 s

theorem Keeps.next (hanswer : ∀ i s c r, answer c r → ∃ s', (S i).next s c r s')
    (h : Keeps task S Q s₀ pool)
    (hs : Step n task answer pool pool') : Keeps task S Q s₀ pool' := by
  obtain ⟨hqueue, hworking, hfinished⟩ := h
  cases hs with
  | @take i queue working finished =>
    obtain ⟨hi, hqueue⟩ := List.forall_mem_cons.1 hqueue
    exact ⟨hqueue, List.forall_mem_cons.2 ⟨⟨s₀, hi⟩, hworking⟩, hfinished⟩
  | @call queue before i c k r after finished ha =>
    obtain ⟨hbefore, hmiddle⟩ := List.forall_mem_append.1 hworking
    obtain ⟨⟨s, -, hk⟩, hafter⟩ := List.forall_mem_cons.1 hmiddle
    obtain ⟨s', hs'⟩ := hanswer i s c r ha
    exact ⟨hqueue,
      List.forall_mem_append.2 ⟨hbefore, List.forall_mem_cons.2 ⟨⟨s', hk r s' hs'⟩, hafter⟩⟩,
      hfinished⟩
  | @finish queue before i out after finished =>
    obtain ⟨hbefore, hmiddle⟩ := List.forall_mem_append.1 hworking
    obtain ⟨⟨s, hs⟩, hafter⟩ := List.forall_mem_cons.1 hmiddle
    exact ⟨hqueue, List.forall_mem_append.2 ⟨hbefore, hafter⟩,
      List.forall_mem_cons.2 ⟨⟨s, wp_ofExcept.1 hs⟩, hfinished⟩⟩

/-- **Every run of the pool** keeps to what its entries keep to. -/
theorem Keeps.of_reachable (hanswer : ∀ i s c r, answer c r → ∃ s', (S i).next s c r s')
    (htask : ∀ i ∈ entries, wp (S i) (task i) (Q i) s₀) (h : Reachable n task answer entries pool) :
    Keeps task S Q s₀ pool := by
  induction h with
  | refl => exact ⟨htask, fun _ he => absurd he List.not_mem_nil,
    fun _ he => absurd he List.not_mem_nil⟩
  | tail _ hs ih => exact ih.next hanswer hs

/-- A call that a worker is about to make is permitted. -/
theorem Keeps.can {i : ι} {c : C} {k : Except ε (R c) → Prog C R ε α} (h : Keeps task S Q s₀ pool)
    (hmem : (i, .call c k) ∈ pool.working) : ∃ s, (S i).can s c := by
  obtain ⟨s, hcan, -⟩ := h.working _ hmem
  exact ⟨s, hcan⟩

end

/-! ## Outcomes -/

section
variable {n : ℕ} {task : ι → Prog C R ε α} {entries : List ι} {pool : Pool ι C R ε α}
    {web : Answers C R ε}

/-- The answers of a function. -/
def answers (web : Answers C R ε) (c : C) (r : Except ε (R c)) : Prop := r = web c

theorem runs_answers_iff {p : Prog C R ε α} {out : Except ε α} :
    Runs (next (answers web)) p () out () ↔ out = p.eval web := by
  induction p with
  | ret a =>
    constructor
    · intro h
      cases h
      rfl
    · rintro rfl
      exact .ret
  | raise e =>
    constructor
    · intro h
      cases h
      rfl
    · rintro rfl
      exact .raise
  | call c k ih =>
    constructor
    · intro h
      cases h with
      | call hr hk =>
        cases hr
        exact (ih _).1 hk
    · rintro rfl
      exact .call rfl ((ih _).2 rfl)

/-- **The outcomes do not depend on the order of the steps.** -/
theorem Sound.finished_eval (h : Sound n task (answers web) entries pool) (hd : pool.Done) :
    (pool.finished : Multiset (ι × Except ε α)) = entries.map fun i => (i, (task i).eval web) := by
  have heval : ∀ e ∈ pool.finished, e = (e.1, (task e.1).eval web) := fun e he =>
    Prod.ext rfl (runs_answers_iff.1 (h.finished e he))
  have hentries := h.entries
  rw [hd.1, hd.2] at hentries
  calc (pool.finished : Multiset (ι × Except ε α))
      = (pool.finished.map fun e => (e.1, (task e.1).eval web) : List (ι × Except ε α)) := by
        rw [← List.map_congr_left heval, List.map_id']
    _ = ((pool.finished.map Prod.fst).map fun i => (i, (task i).eval web) :
      List (ι × Except ε α)) := by
        rw [List.map_map]
        rfl
    _ = (entries.map fun i => (i, (task i).eval web) : List (ι × Except ε α)) := by
        have hfst : (pool.finished.map Prod.fst : Multiset ι) = entries := by simpa using hentries
        rw [← Multiset.map_coe, hfst, Multiset.map_coe]

end

end Pool

end Effects
