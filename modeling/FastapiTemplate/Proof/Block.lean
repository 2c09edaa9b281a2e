/-
  The protocol used as a program logic: `Block` is a triple for the body of an
  `async with uow` block, with one rule for each kind of call.
-/
import FastapiTemplate.Proof.Protocol

namespace FastapiTemplate

open Effects

variable {D : Deployment} {req : Request D.ext} {sid : SessionId} {l : Loc} {work : Work}
  {α β : Type}

/-! ## What was seen stays seen -/

/-- `l'` knows all that `l` knows. -/
def Loc.Le (l l' : Loc) : Prop := ∀ c a, l.saw c a → l'.saw c a

theorem Loc.Le.refl (l : Loc) : l.Le l := fun _ _ h => h

theorem Loc.Le.trans {a b c : Loc} (h : a.Le b) (k : b.Le c) : a.Le c :=
  fun _ _ hs => k _ _ (h _ _ hs)

theorem Loc.le_after (l : Loc) (c : Call) (r : Except Exc (Ret c)) : l.Le (l.after c r) :=
  fun _ _ h => Loc.saw_after h

theorem FoundActive.mono {saw saw' : History} (h : ∀ c a, saw c a → saw' c a) {token : String}
    {row : RefreshSessionModel} {now : Instant} (hf : FoundActive D saw token row now) :
    FoundActive D saw' token row now :=
  ⟨hf.1.imp fun _ => h _ _, hf.2.1, h _ _ hf.2.2.1, hf.2.2.2⟩

theorem Verified.mono {saw saw' : History} (h : ∀ c a, saw c a → saw' c a) {data : IssueTokenDTO}
    {u : UserModel} (hv : Verified D saw data u) : Verified D saw' data u :=
  ⟨hv.1.imp fun _ => h _ _, hv.2⟩

theorem Minted.mono {saw saw' : History} (h : ∀ c a, saw c a → saw' c a) {token : String}
    (hm : Minted D saw token) : Minted D saw' token := h _ _ hm

theorem Basis.mono {saw saw' : History} (h : ∀ c a, saw c a → saw' c a) {w : Write}
    (hb : Basis D saw req w) : Basis D saw' req w := by
  cases hb with
  | insertUser ha => exact .insertUser ha
  | insertRefreshSession hv hm hc => exact .insertRefreshSession (hv.mono h) (hm.mono h) (h _ _ hc)
  | setTokenHash hf hm hu hc => exact .setTokenHash (hf.mono h) (hm.mono h) (h _ _ hu) hc
  | setRevokedAt hf hu => exact .setRevokedAt (hf.mono h) hu

/-- The calls that end a unit of work; nothing an outcome needs is learnt from them. -/
def Call.closing : Call → Bool
  | .close _ | .scopeSet _ => true
  | _ => false

theorem Outcome.mono {saw saw' : History} (h : ∀ c a, c.closing = false → saw c a → saw' c a)
    {w : Write} {resp : Response} (ho : Outcome D saw w resp) : Outcome D saw' w resp := by
  cases ho with
  | insertUser => exact .insertUser
  | insertRefreshSession hm hh hs =>
    exact .insertRefreshSession (h _ _ rfl hm) hh (hs.imp fun _ => h _ _ rfl)
  | setTokenHash hm hh hr hid hs =>
    exact .setTokenHash (h _ _ rfl hm) hh (hr.imp fun _ => h _ _ rfl) hid
      (hs.imp fun _ => h _ _ rfl)
  | setRevokedAt => exact .setRevokedAt

/-! ## Rules for the body of a block -/

/-- An exception that leaves the body: the transaction is still to be ended. -/
def Raised (req : Request D.ext) (sid : SessionId) (e : Exc) (l : Loc) : Prop :=
  ((∃ work, l.stage = .inside sid work) ∨ l.stage = .broken sid) ∧
    (l.failed = true ∨ Anticipated D req e)

/-- In the block on `sid`, `p` keeps to the protocol from `l`; what it returns satisfies `P`. -/
def Block (req : Request D.ext) (sid : SessionId) (l : Loc) (p : App α) (P : α → Loc → Prop) :
    Prop :=
  wp (protocolSpec D req) p (fun r l' => match r with
    | .ok a => l.Le l' ∧ P a l'
    | .error e => Raised req sid e l') l

theorem wp_call {c : Call} {Q : Except Exc (Ret c) → Loc → Prop} :
    wp (protocolSpec D req) (call c) Q l ↔ Can D req l.saw l.stage c ∧
      (∀ a, Answered D l c a → Q (.ok a) (l.after c (.ok a))) ∧
      ∀ e, c.mayFail = true → Fails D l c e → Q (.error e) (l.after c (.error e)) := by
  rw [wp_perform]
  refine and_congr_right fun _ => ⟨fun h => ⟨fun a ha => ?_, fun e hm hf => ?_⟩, ?_⟩
  · exact h _ _ ⟨rfl, ha⟩
  · exact h _ _ ⟨rfl, hm, hf⟩
  · rintro ⟨hok, herr⟩ r l' ⟨rfl, hr⟩
    cases r with
    | ok a => exact hok a hr
    | error e => exact herr e hr.1 hr.2

namespace Block

theorem pure {a : α} {P : α → Loc → Prop} (h : P a l) : Block req sid l (Pure.pure a) P :=
  ⟨.refl l, h⟩

theorem throw {e : Exc} {P : α → Loc → Prop} (hl : l.stage = .inside sid work)
    (he : Anticipated D req e) : Block req sid l (MonadExcept.throw e : App α) P :=
  ⟨Or.inl ⟨work, hl⟩, Or.inr he⟩

theorem mono {p : App α} {P Q : α → Loc → Prop} (h : Block req sid l p P)
    (hPQ : ∀ a l', l.Le l' → P a l' → Q a l') : Block req sid l p Q :=
  wp_mono (fun r l' hr => match r with
    | .ok a => ⟨hr.1, hPQ a l' hr.1 hr.2⟩
    | .error _ => hr) h

theorem bind {p : App α} {f : α → App β} {P : α → Loc → Prop} {Q : β → Loc → Prop}
    (hp : Block req sid l p P) (hf : ∀ a l', l.Le l' → P a l' → Block req sid l' (f a) Q) :
    Block req sid l (p >>= f) Q := by
  refine wp_seq hp (fun a l' h => ?_) fun e l' h => h
  refine wp_mono (fun r l'' hr => ?_) (hf a l' h.1 h.2)
  cases r with
  | ok b => exact ⟨h.1.trans hr.1, hr.2⟩
  | error e => exact hr

theorem ofExcept {r : Except Exc α} {P : α → Loc → Prop} (hl : l.stage = .inside sid work)
    (hok : ∀ a, r = .ok a → P a l) (herr : ∀ e, r = .error e → Anticipated D req e) :
    Block req sid l (Prog.ofExcept r) P := by
  refine wp_ofExcept.2 ?_
  cases r with
  | ok a => exact ⟨.refl l, hok a rfl⟩
  | error e => exact ⟨Or.inl ⟨work, hl⟩, Or.inr (herr e rfl)⟩

/-- A call that leaves the transaction alone. -/
theorem ask {c : Call} (hl : l.stage = .inside sid work)
    (hc : Can D req l.saw (.inside sid work) c)
    (hs : ∀ r, (Stage.inside sid work).after c r = .inside sid work)
    (hf : ∀ e, Fails D l c e → e.isExternal = true) :
    Block req sid l (call c) fun a l' =>
      l'.stage = .inside sid work ∧ l'.saw c a ∧ Answered D l c a := by
  refine wp_call.2 ⟨hl ▸ hc, fun a ha => ⟨l.le_after c _, ?_, l.saw_after_ok c a, ha⟩,
    fun e _ he => ⟨Or.inl ⟨work, ?_⟩, Or.inl ?_⟩⟩
  · rw [l.stage_after, hl, hs]
  · rw [l.stage_after, hl, hs]
  · simp [Loc.after, hf e he]

/-- A statement. -/
theorem sql {q : Stmt} (hl : l.stage = .inside sid work)
    (hc : Can D req l.saw (.inside sid work) (.sql sid q))
    (hf : ∀ orig, Fails D l (.sql sid q) (.integrityError orig) →
      Anticipated D req (.integrityError orig)) :
    Block req sid l (call (.sql sid q)) fun a l' =>
      l'.stage = .inside sid (work.after q a) ∧ l'.saw (.sql sid q) a ∧
        Answered D l (.sql sid q) a := by
  refine wp_call.2 ⟨hl ▸ hc, fun a ha => ⟨l.le_after _ _, ?_, l.saw_after_ok _ a, ha⟩,
    fun e _ he => ⟨Or.inr ?_, ?_⟩⟩
  · rw [l.stage_after, hl]; rfl
  · rw [l.stage_after, hl]; rfl
  · by_cases hx : e.isExternal = true
    · exact Or.inl (by simp [Loc.after, hx])
    · have : ∃ orig, e = .integrityError orig := by
        rcases he with he | he
        · exact absurd he hx
        · cases q <;> first | exact he.2 | exact he.elim (fun h => ⟨_, h⟩) fun h => ⟨_, h⟩
      obtain ⟨orig, rfl⟩ := this
      exact Or.inr (hf orig he)

/-- A statement that only reads. -/
theorem read {q : Stmt} (hl : l.stage = .inside sid work) (hq : q.isWrite = false)
    (hw : work.changes = []) (hs : ∀ h, q = .selectSessionByHash h true → work.writes = []) :
    Block req sid l (call (.sql sid q)) fun a l' =>
      l'.stage = .inside sid work ∧ l'.saw (.sql sid q) a ∧ Answered D l (.sql sid q) a := by
  refine (sql hl (.read hq hw hs) fun orig hf => ?_).mono ?_
  · rcases hf with hf | hf
    · cases hf
    · cases q <;> first | exact absurd hq Bool.noConfusion | exact absurd hf.1 Bool.noConfusion
  · rintro a l' - ⟨hst, hsaw, ha⟩
    have hnone : q.outcome a = none := by
      rw [Option.eq_none_iff_forall_ne_some]
      exact fun w hw => by simp [Stmt.outcome_isWrite hw] at hq
    exact ⟨by simp only [hst, Work.after, hnone], hsaw, ha⟩

end Block

end FastapiTemplate
