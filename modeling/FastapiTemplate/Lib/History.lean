/-
  Programs by their past.

  What a program does next depends on the answers it got, so a property of its
  runs is one of the calls and answers it looks back on (`Tells`).  In a system
  this needs nothing of the other processes: what a program tells by itself is
  true of its past in every run (`System.told`).  What the past of a process says
  of the shared state is read off the moments its calls were answered at
  (`System.moment`).
-/
import FastapiTemplate.Lib.Interleave

namespace Effects

variable {σ Req C : Type} {R : C → Type} {ε Out α β : Type}

/-- Calls with their answers, newest first. -/
abbrev Past (C : Type) (R : C → Type) (ε : Type) := List (Σ c : C, Except ε (R c))

/-- Any answer may come; `A` says which calls a program may make after a past. -/
def pastSpec (A : Past C R ε → C → Prop) : Spec C R ε (Past C R ε) where
  can := A
  next h c r h' := h' = ⟨c, r⟩ :: h

/-- After the past `h`, the program makes calls that `A` permits, and returns `a` with `P a`, or it
    raises `e` with `E e`. -/
def Tells (A : Past C R ε → C → Prop) (E : ε → Past C R ε → Prop) (h : Past C R ε)
    (p : Prog C R ε α) (P : α → Past C R ε → Prop) : Prop :=
  wp (pastSpec A) p (fun r h' => h <:+ h' ∧ match r with
    | .ok a => P a h'
    | .error e => E e h') h

namespace Tells

variable {A : Past C R ε → C → Prop} {E : ε → Past C R ε → Prop} {h : Past C R ε}
  {P : α → Past C R ε → Prop} {Q : β → Past C R ε → Prop}

theorem pure {a : α} (ha : P a h) : Tells A E h (Pure.pure a) P := ⟨List.suffix_rfl, ha⟩

theorem throw {e : ε} (he : E e h) : Tells A E h (MonadExcept.throw e : Prog C R ε α) P :=
  ⟨List.suffix_rfl, he⟩

theorem ofExcept {r : Except ε α} (hok : ∀ a, r = .ok a → P a h)
    (herr : ∀ e, r = .error e → E e h) :
    Tells A E h (Prog.ofExcept r) P := by
  refine wp_ofExcept.2 ⟨List.suffix_rfl, ?_⟩
  cases r with
  | ok a => exact hok a rfl
  | error e => exact herr e rfl

theorem perform {c : C} {P : R c → Past C R ε → Prop} (hc : A h c)
    (hok : ∀ a, P a (⟨c, .ok a⟩ :: h)) (herr : ∀ e, E e (⟨c, .error e⟩ :: h)) :
    Tells A E h (Prog.perform c) P := by
  refine wp_perform.2 ⟨hc, ?_⟩
  rintro r _ rfl
  cases r with
  | ok a => exact ⟨List.suffix_cons _ _, hok a⟩
  | error e => exact ⟨List.suffix_cons _ _, herr e⟩

theorem mono {p : Prog C R ε α} {P' : α → Past C R ε → Prop} {F : ε → Past C R ε → Prop}
    (hp : Tells A E h p P) (hP : ∀ a h', h <:+ h' → P a h' → P' a h')
    (hE : ∀ e h', h <:+ h' → E e h' → F e h') : Tells A F h p P' :=
  wp_mono (fun r h' hr => match r with
    | .ok a => ⟨hr.1, hP a h' hr.1 hr.2⟩
    | .error e => ⟨hr.1, hE e h' hr.1 hr.2⟩) hp

theorem bind {p : Prog C R ε α} {f : α → Prog C R ε β} (hp : Tells A E h p P)
    (hf : ∀ a h', h <:+ h' → P a h' → Tells A E h' (f a) Q) : Tells A E h (p >>= f) Q := by
  refine wp_seq hp (fun a h' hr => ?_) fun e h' hr => hr
  exact wp_mono (fun _ _ hq => ⟨hr.1.trans hq.1, hq.2⟩) (hf a h' hr.1 hr.2)

theorem handle {p : Prog C R ε α} {handler : ε → Prog C R ε α} {F : ε → Past C R ε → Prop}
    (hp : Tells A F h p P) (hh : ∀ e h', h <:+ h' → F e h' → Tells A E h' (handler e) P) :
    Tells A E h (p.handle handler) P := by
  refine wp_handle.2 (wp_mono (fun r h' hr => ?_) hp)
  cases r with
  | ok a => exact hr
  | error e => exact wp_mono (fun _ _ hq => ⟨hr.1.trans hq.1, hq.2⟩) (hh e h' hr.1 hr.2)

/-- `try: a = p except e: …` with both continuations. -/
theorem attempt {p : Prog C R ε α} {f : Except ε α → Prog C R ε β} {F : ε → Past C R ε → Prop}
    (hp : Tells A F h p P) (hok : ∀ a h', h <:+ h' → P a h' → Tells A E h' (f (.ok a)) Q)
    (herr : ∀ e h', h <:+ h' → F e h' → Tells A E h' (f (.error e)) Q) :
    Tells A E h (p.attempt >>= f) Q := by
  refine wp_bind.2 (wp_attempt.2 (wp_mono (fun r h' hr => ?_) hp))
  cases r with
  | ok a => exact wp_mono (fun _ _ hq => ⟨hr.1.trans hq.1, hq.2⟩) (hok a h' hr.1 hr.2)
  | error e => exact wp_mono (fun _ _ hq => ⟨hr.1.trans hq.1, hq.2⟩) (herr e h' hr.1 hr.2)

end Tells

/-! ## The past of a process -/

namespace World

/-- What process `i` called and was answered. -/
def past (w : World σ Req C R ε Out) (i : ℕ) : Past C R ε :=
  w.trace.filterMap fun e => if e.pid = i then some ⟨e.call, e.answer⟩ else none

variable {w : World σ Req C R ε Out} {i j : ℕ} {c : C} {r : Except ε (R c)} {s : σ}
  {p : Proc Req C R ε Out}

theorem mem_past : ⟨c, r⟩ ∈ w.past i ↔ ⟨i, c, r⟩ ∈ w.trace := by
  simp only [past, List.mem_filterMap]
  constructor
  · rintro ⟨⟨j, c', r'⟩, he, h⟩
    split at h
    · rename_i hij
      cases h
      subst hij
      exact he
    · cases h
  · exact fun he => ⟨_, he, if_pos rfl⟩

@[simp] theorem past_reply_self : (w.reply i c r s p).past i = ⟨c, r⟩ :: w.past i := by
  simp [past]

theorem past_reply_ne (h : j ≠ i) : (w.reply i c r s p).past j = w.past j := by
  simp [past, Ne.symm h]

@[simp] theorem past_setProc : (w.setProc i p).past j = w.past j := rfl

theorem past_eq_nil (h : ∀ e ∈ w.trace, w.procs e.pid ≠ none) (hi : w.procs i = none) :
    w.past i = [] := by
  refine List.filterMap_eq_nil_iff.2 fun e he => if_neg ?_
  rintro rfl
  exact h e he hi

end World

namespace Protocol
variable {Loc : Type} {P : Protocol σ Req C R ε Out Loc} {S : System σ Req C R ε Out}

/-- Local states with a relation to the past of their process, which holds at the start and after
    every call. -/
def restrict (P : Protocol σ Req C R ε Out Loc) (F : Req → Past C R ε → Loc → Prop) :
    Protocol σ Req C R ε Out Loc :=
  { P with knows := fun w i req l => P.knows w i req l ∧ F req (w.past i) l }

/-- A sound protocol stays sound. -/
theorem Sound.restrict {I : World σ Req C R ε Out → Prop} (h : P.Sound S I)
    {F : Req → Past C R ε → Loc → Prop} (start : ∀ req, F req [] P.start)
    (step : ∀ req past l c r l', F req past l → (P.spec req).can l c → (P.spec req).next l c r l' →
      F req (⟨c, r⟩ :: past) l') :
    (P.restrict F).Sound S fun w => I w ∧ ∀ e ∈ w.trace, w.procs e.pid ≠ none where
  init s hs := ⟨h.init s hs, nofun⟩
  conforms := h.conforms
  spawn w i req hI hi ha := by
    obtain ⟨hI', hk⟩ := h.spawn w i req hI.1 hi ha
    refine ⟨⟨hI', fun e he => ?_⟩, hk, ?_⟩
    · by_cases hij : e.pid = i
      · rw [hij, World.setProc_self]
        exact Option.some_ne_none _
      · rw [World.setProc_ne _ _ _ _ hij]
        exact hI.2 e he
    · rw [World.past_setProc, World.past_eq_nil hI.2 hi]
      exact start req
  spawn_other w i p j req l hI hi hj hk := ⟨h.spawn_other w i p j req l hI.1 hi hj hk.1, hk.2⟩
  own w i req l c k r s hI hk hc hi ha := by
    obtain ⟨hI', l', hn, hl'⟩ := h.own w i req l c k r s hI.1 hk.1 hc hi ha
    refine ⟨⟨hI', fun e he => ?_⟩, l', hn, hl', ?_⟩
    · by_cases hij : e.pid = i
      · rw [hij, World.reply_self]
        exact Option.some_ne_none _
      · rw [World.reply_ne _ _ _ _ _ _ _ hij]
        refine hI.2 e ((List.mem_cons.1 he).resolve_left ?_)
        rintro rfl
        exact hij rfl
    · rw [World.past_reply_self]
      exact step req _ l c r l' hk.2 hc hn
  other w i req l c k r s hI hk hc hi ha j req' l' hj hk' := by
    refine ⟨h.other w i req l c k r s hI.1 hk.1 hc hi ha j req' l' hj hk'.1, ?_⟩
    rw [World.past_reply_ne hj]
    exact hk'.2
  environment w s hI he := by
    obtain ⟨hI', hk⟩ := h.environment w s hI.1 he
    exact ⟨⟨hI', hI.2⟩, fun j req l hl => ⟨hk j req l hl.1, hl.2⟩⟩

end Protocol

namespace System
variable {S : System σ Req C R ε Out} {v w : World σ Req C R ε Out}

/-- What a program tells by itself, whatever it is answered, as a protocol. -/
def pastProtocol (A : Req → Past C R ε → C → Prop) (Q : Req → Except ε Out → Past C R ε → Prop) :
    Protocol σ Req C R ε Out (Past C R ε) where
  spec req := pastSpec (A req)
  start := []
  fin := Q
  knows _ _ _ _ := True

/-- **What programs tell by themselves is true of the past of every process in every run.** -/
theorem told {A : Req → Past C R ε → C → Prop} {Q : Req → Except ε Out → Past C R ε → Prop}
    (h : ∀ req, S.allowed req → wp (pastSpec (A req)) (S.execute req) (Q req) [])
    (hw : S.Reachable w) {i : ℕ} {p : Proc Req C R ε Out} (hp : w.procs i = some p) :
    wp (pastSpec (A p.request)) p.prog (Q p.request) (w.past i) := by
  have hsound : (pastProtocol A Q).Sound S fun _ => True := {
    init := fun _ _ => trivial
    conforms := h
    spawn := fun _ _ _ _ _ _ => ⟨trivial, trivial⟩
    spawn_other := fun _ _ _ _ _ _ _ _ _ _ => trivial
    own := fun _ _ _ _ _ _ _ _ _ _ _ _ _ => ⟨trivial, _, rfl, trivial⟩
    other := fun _ _ _ _ _ _ _ _ _ _ _ _ _ _ _ _ _ _ => trivial
    environment := fun _ _ _ _ => ⟨trivial, fun _ _ _ _ => trivial⟩ }
  obtain ⟨l, hwp, -, hl⟩ := ((hsound.restrict (F := fun _ => Eq) (fun _ => rfl) (by
    rintro req past l c r l' rfl - rfl
    rfl)).annotated hw).2 i p hp
  have hl : w.past i = l := hl
  rw [hl]
  exact hwp

/-! ## Moments -/

theorem Leads.trans {u : World σ Req C R ε Out} (h : S.Leads u v) (k : S.Leads v w) :
    S.Leads u w := by
  induction k with
  | refl => exact h
  | step _ hs ih => exact .step ih hs

/-- A process keeps its request over a run. -/
theorem Leads.request (h : S.Leads v w) {i : ℕ} {p : Proc Req C R ε Out}
    (hp : v.procs i = some p) : ∃ p', w.procs i = some p' ∧ p'.request = p.request := by
  induction h with
  | refl => exact ⟨p, hp, rfl⟩
  | step _ hs ih =>
    obtain ⟨p₁, hp₁, hr₁⟩ := ih
    obtain ⟨p₂, hp₂, hr₂⟩ := hs.request hp₁
    exact ⟨p₂, hp₂, hr₂.trans hr₁⟩

theorem Step.past {l : Label Req C} (h : S.Step v l w) (i : ℕ) : v.past i <:+ w.past i := by
  cases h with
  | spawn | environment => exact List.suffix_rfl
  | @call j req c k r s hj _ =>
    by_cases hij : i = j
    · subst hij
      rw [World.past_reply_self]
      exact List.suffix_cons _ _
    · have hpast := v.past_reply_ne (c := c) (r := r) (s := s) (p := ⟨req, k r⟩) hij
      exact hpast.symm ▸ List.suffix_rfl

/-- The past only grows over a run. -/
theorem Leads.past (h : S.Leads v w) (i : ℕ) : v.past i <:+ w.past i := by
  induction h with
  | refl => exact List.suffix_rfl
  | step _ hs ih => exact ih.trans (hs.past i)

/-- In the world `v` process `i` is answered `r` to its call `c`, in a run that goes on to `w`. -/
structure Moment (S : System σ Req C R ε Out) (w : World σ Req C R ε Out) (i : ℕ) (c : C)
    (r : Except ε (R c)) (v : World σ Req C R ε Out) : Prop where
  reachable : S.Reachable v
  answered : ∃ req k s, v.procs i = some ⟨req, .call c k⟩ ∧ S.answer i v.shared c r s ∧
    S.Leads (v.reply i c r s ⟨req, k r⟩) w

section
variable {i : ℕ} {c : C} {r : Except ε (R c)}

theorem Moment.leads (h : S.Moment w i c r v) : S.Leads v w := by
  obtain ⟨req, k, s, hp, ha, hl⟩ := h.answered
  exact (Leads.step .refl (.call hp ha)).trans hl

theorem Moment.step {w' : World σ Req C R ε Out} {l : Label Req C} (h : S.Moment w i c r v)
    (hs : S.Step w l w') : S.Moment w' i c r v := by
  obtain ⟨req, k, s, hp, ha, hl⟩ := h.answered
  exact ⟨h.reachable, req, k, s, hp, ha, hl.step hs⟩

/-- The process is about to make the call. -/
theorem Moment.request (h : S.Moment w i c r v) {p : Proc Req C R ε Out}
    (hp : w.procs i = some p) : ∃ k, v.procs i = some ⟨p.request, .call c k⟩ := by
  obtain ⟨req, k, s, hv, -, -⟩ := h.answered
  obtain ⟨p', hp', hr⟩ := h.leads.request hv
  rw [hp] at hp'
  cases hp'
  exact ⟨k, by rw [hr, hv]⟩

/-- **Every answer was given at a moment of the run**, when the process looked back on the older
    ones. -/
theorem moment (hw : S.Reachable w) {newer older : Past C R ε}
    (h : w.past i = newer ++ ⟨c, r⟩ :: older) : ∃ v, S.Moment w i c r v ∧ v.past i = older := by
  induction hw generalizing newer with
  | init =>
    have h : [] = newer ++ ⟨c, r⟩ :: older := h
    simp at h
  | @step w l w' hr hs _ ih =>
    have hold : ∀ {newer}, w.past i = newer ++ ⟨c, r⟩ :: older →
        ∃ v, S.Moment w' i c r v ∧ v.past i = older := fun h => by
      obtain ⟨v, hv, hp⟩ := ih h
      exact ⟨v, hv.step hs, hp⟩
    cases hs with
    | spawn | environment => exact hold h
    | @call j req c' k r' s hj ha =>
      by_cases hij : i = j
      · subst hij
        rw [World.past_reply_self] at h
        cases newer with
        | nil =>
          cases h
          exact ⟨w, ⟨hr.reachable, req, k, s, hj, ha, .refl⟩, rfl⟩
        | cons e newer => exact hold (List.cons.inj h).2
      · rw [World.past_reply_ne hij] at h
        exact hold h

theorem moment_of_mem (hw : S.Reachable w) (h : ⟨c, r⟩ ∈ w.past i) :
    ∃ v, S.Moment w i c r v := by
  obtain ⟨newer, older, h⟩ := List.append_of_mem h
  obtain ⟨v, hv, -⟩ := moment hw h
  exact ⟨v, hv⟩

end

end System

end Effects
