/-
  When the file that a run writes reads as the claimed data
  (`reads_back`): each requirement is rewritten where it is first quoted, and
  that has to be an entry of one of the three lists.
-/
import FastapiTemplate.Lib.TomlMarks
import FastapiTemplate.Management.Pyproject
import FastapiTemplate.Proof.Syncing

namespace FastapiTemplate.Management

open Toml

variable {α : Type}

/-! ## Quoted strings of a text -/

/-- Whether the text has the string in quotes; `seen` is what stands between the last quote and the
    text. -/
def quotedIn (r : List Char) : Option (List Char) → List Char → Bool
  | _, [] => false
  | seen, c :: s =>
    if c = '"' then seen == some r || quotedIn r (some []) s else quotedIn r (seen.map (· ++ [c])) s

section
variable {r s t w x y new : List Char} {seen : Option (List Char)}

theorem quotedIn_quote : quotedIn r seen ('"' :: s) = (seen == some r || quotedIn r (some []) s) :=
  if_pos rfl

theorem quotedIn_append (hw : '"' ∉ w) :
    quotedIn r seen (w ++ s) = quotedIn r (seen.map (· ++ w)) s := by
  induction w generalizing seen with
  | nil => cases seen <;> simp
  | cons c w ih =>
    have hc : c ≠ '"' := fun h => hw (h ▸ List.mem_cons_self ..)
    rw [List.cons_append, quotedIn, if_neg hc, ih fun h => hw (List.mem_cons_of_mem _ h)]
    cases seen <;> simp

/-- At a quote, the text before and the text after are searched apart. -/
theorem quotedIn_split : quotedIn r seen (s ++ '"' :: t) =
    (quotedIn r seen (s ++ ['"']) || quotedIn r (some []) t) := by
  induction s generalizing seen with
  | nil =>
    rw [List.nil_append, List.nil_append, quotedIn_quote, quotedIn_quote]
    simp [quotedIn]
  | cons c s ih =>
    rw [List.cons_append, List.cons_append, quotedIn, quotedIn]
    split_ifs
    · rw [ih, Bool.or_assoc]
    · exact ih

theorem quotedIn_iff (hr : '"' ∉ r) : quotedIn r seen s = true ↔
    (∃ w v, seen = some w ∧ '"' ∉ v ∧ w ++ v = r ∧ v ++ ['"'] <+: s) ∨ quoted r <:+: s := by
  induction s generalizing seen with
  | nil => simp [quotedIn, quoted]
  | cons c s ih =>
    rw [List.infix_cons_iff, quotedIn]
    by_cases hc : c = '"'
    · subst hc
      have hfirst : quoted r <+: '"' :: s ↔ r ++ ['"'] <+: s :=
        List.cons_prefix_cons.trans (and_iff_right rfl)
      have hrest : (∃ w v, some [] = some w ∧ '"' ∉ v ∧ w ++ v = r ∧ v ++ ['"'] <+: s) ↔
          r ++ ['"'] <+: s := by
        constructor
        · rintro ⟨w, v, hw, -, hv, hstart⟩
          cases hw
          rw [← hv]
          exact hstart
        · exact fun hstart => ⟨[], r, rfl, hr, rfl, hstart⟩
      have hseen : seen = some r ↔ ∃ w v, seen = some w ∧ '"' ∉ v ∧ w ++ v = r ∧
          v ++ ['"'] <+: '"' :: s := by
        constructor
        · exact fun h => ⟨r, [], h, List.not_mem_nil, List.append_nil r, by simp⟩
        · rintro ⟨w, v, hw, hv, hwv, hstart⟩
          cases v with
          | nil => rw [hw, ← hwv, List.append_nil]
          | cons d v =>
            obtain ⟨hd, -⟩ := List.cons_prefix_cons.1 hstart
            exact absurd (hd ▸ List.mem_cons_self ..) hv
      rw [if_pos rfl, Bool.or_eq_true, beq_iff_eq, ih, hrest, hfirst, hseen]
    · have hfirst : ¬ quoted r <+: c :: s := fun h => hc (List.cons_prefix_cons.1 h).1.symm
      rw [if_neg hc, ih, or_iff_right (a := quoted r <+: c :: s) hfirst]
      refine or_congr_left ?_
      constructor
      · rintro ⟨w, v, hw, hv, hwv, hstart⟩
        obtain ⟨w₀, hw₀, rfl⟩ := Option.map_eq_some_iff.1 hw
        refine ⟨w₀, c :: v, hw₀, ?_, by rw [← hwv, List.append_assoc]; rfl, ?_⟩
        · exact fun hmem => (List.mem_cons.1 hmem).elim (fun h => hc h.symm) hv
        · exact List.cons_prefix_cons.2 ⟨rfl, hstart⟩
      · rintro ⟨w, v, rfl, hv, hwv, hstart⟩
        cases v with
        | nil => exact absurd (List.cons_prefix_cons.1 hstart).1.symm hc
        | cons d v =>
          obtain ⟨rfl, htail⟩ := List.cons_prefix_cons.1 hstart
          refine ⟨w ++ [d], v, rfl, fun h => hv (List.mem_cons_of_mem _ h), ?_, htail⟩
          rw [← hwv, List.append_assoc]
          rfl

/-- The string is in the text in quotes. -/
theorem quotedIn_none_iff (hr : '"' ∉ r) : quotedIn r none s = true ↔ quoted r <:+: s := by
  rw [quotedIn_iff hr, or_iff_right]
  rintro ⟨w, v, hw, -⟩
  cases hw

/-- What is quoted first is replaced. -/
theorem replaceFirst_quoted (hr : '"' ∉ r) (hx : quotedIn r none (x ++ ['"']) = false) :
    Text.replaceFirst (quoted r) new (x ++ quoted r ++ y) = x ++ new ++ y := by
  have hx : ¬ quoted r <:+: x ++ ['"'] :=
    fun h => by rw [(quotedIn_none_iff hr).2 h] at hx; cases hx
  induction x with
  | nil =>
    have hstart : (quoted r).isPrefixOf (quoted r ++ y) = true :=
      List.isPrefixOf_iff_prefix.2 (List.prefix_append ..)
    have hdrop : (quoted r ++ y).drop (quoted r).length = y := List.drop_left
    rw [List.nil_append, List.nil_append]
    change Text.replaceFirst (quoted r) new ('"' :: (r ++ ['"'] ++ y)) = new ++ y
    rw [Text.replaceFirst]
    exact (if_pos hstart).trans (congrArg (new ++ ·) hdrop)
  | cons c x ih =>
    have hno : ¬ (quoted r).isPrefixOf (c :: (x ++ quoted r ++ y)) = true := by
      intro h
      obtain ⟨rfl, htail⟩ := List.cons_prefix_cons.1 (List.isPrefixOf_iff_prefix.1 h)
      -- the quote that ends it is at most the one after `x`
      have hend : x ++ ['"'] <+: x ++ quoted r ++ y := by
        rw [List.append_assoc]
        exact (List.prefix_append_right_inj x).2 (by simp [quoted])
      refine hx ?_
      rcases List.prefix_or_prefix_of_prefix htail hend with hle | hle
      · exact (List.cons_prefix_cons.2 ⟨rfl, hle⟩ : quoted r <+: '"' :: (x ++ ['"'])).isInfix
      · rcases List.prefix_concat_iff.1 hle with heq | hle
        · have hsame : quoted r = '"' :: (x ++ ['"']) := congrArg ('"' :: ·) heq.symm
          rw [hsame]
          exact List.infix_rfl
        · exact absurd (hle.subset (by simp)) hr
    have hx' : ¬ quoted r <:+: x ++ ['"'] := fun h => hx (List.infix_cons h)
    rw [List.cons_append, List.cons_append, Text.replaceFirst, if_neg hno, ih ?_ hx']
    · rfl
    · exact eq_false_of_ne_true fun h => hx' ((quotedIn_none_iff hr).1 h)

end

/-- Marks with other contents than the string do not tell where it is quoted. -/
theorem quotedIn_written {r s : List Char} {triple : α → Bool} {content content' : α → List Char}
    {m : List (Sym α)}
    {seen : Option (List Char)} (hr : r ≠ [])
    (h : ∀ a, .mark a ∈ m → '"' ∉ content a ∧ content a ≠ r ∧ '"' ∉ content' a ∧ content' a ≠ r) :
    quotedIn r seen (written triple content m ++ s) =
    quotedIn r seen (written triple content' m ++ s) := by
  induction m generalizing seen with
  | nil => rfl
  | cons b m ih =>
    have ih : ∀ seen, quotedIn r seen (written triple content m ++ s) =
        quotedIn r seen (written triple content' m ++ s) :=
      fun _ => ih fun a ha => h a (List.mem_cons_of_mem _ ha)
    cases b with
    | char c =>
      rw [written, written, List.cons_append, List.cons_append, quotedIn, quotedIn, ih, ih]
    | mark a =>
      obtain ⟨hquote, hne, hquote', hne'⟩ := h a (List.mem_cons_self ..)
      have hempty : ((some [] : Option (List Char)) == some r) = false := by simpa using hr.symm
      have hfound : (some (content a) == some r) = false := by simpa using hne
      have hfound' : (some (content' a) == some r) = false := by simpa using hne'
      have hone : ∀ {w : List Char} {t : List Char}, '"' ∉ w → (some w == some r) = false →
          quotedIn r (some []) (w ++ '"' :: t) = quotedIn r (some []) t := by
        intro w t hw hn
        rw [quotedIn_append hw, quotedIn_quote, Option.map_some, List.nil_append, hn, Bool.false_or]
      rw [written, written]
      cases triple a with
      | false =>
        simp only [quotes, Bool.false_eq_true, if_false, List.append_assoc, List.cons_append,
          List.nil_append,
          quotedIn_quote, hone hquote hfound, hone hquote' hfound', ih]
      | true =>
        simp only [quotes, if_true, List.append_assoc, List.cons_append, List.nil_append,
          quotedIn_quote,
          hone hquote hfound, hone hquote' hfound', hempty, Bool.false_or, ih]

/-! ## The entries of a file -/

/-- A string of the file, before the run and after it. -/
structure Entry where
  old : Token
  new : Token
  triple : new.triple = old.triple

/-- An entry, and whether the run has rewritten it. -/
abbrev Progress := Entry × Bool

/-- What the entry is at the time. -/
def now (e : Progress) : Token := if e.2 then e.1.new else e.1.old

/-- The text with the entries as they are at the time. -/
def textNow (m : List (Sym Progress)) : List Char :=
  written (fun e => e.1.old.triple) (fun e => (now e).content) m

/-- The entry waits for the requirement to be rewritten. -/
def waitsFor (r : List Char) : Sym Progress → Bool
  | .mark (e, false) => e.old.content == r
  | _ => false

/-- The entries that are not rewritten yet. -/
def waiting : List (Sym Progress) → List Entry
  | [] => []
  | .mark (e, false) :: m => e :: waiting m
  | _ :: m => waiting m

/-- The marks without their progress. -/
def forget : Sym Progress → Sym Entry
  | .char c => .char c
  | .mark e => .mark e.1

theorem waiting_append {m m' : List (Sym Progress)} :
    waiting (m ++ m') = waiting m ++ waiting m' := by
  induction m with
  | nil => rfl
  | cons s m ih =>
    match s with
    | .char c => exact ih
    | .mark (e, true) => exact ih
    | .mark (e, false) => exact congrArg (e :: ·) ih

theorem mem_waiting {e : Entry} {m : List (Sym Progress)} : e ∈ waiting m ↔
    .mark (e, false) ∈ m := by
  induction m with
  | nil => simp [waiting]
  | cons s m ih =>
    match s with
    | .char c => simp [waiting, ih]
    | .mark (e', true) => simp [waiting, ih]
    | .mark (e', false) => simp [waiting, ih]

/-- The first entry that waits for the requirement. -/
theorem exists_first {r : List Char} {m : List (Sym Progress)}
    (h : r ∈ (waiting m).map (·.old.content)) :
    ∃ before e after, m = before ++ .mark (e, false) :: after ∧ e.old.content = r ∧
      ∀ s ∈ before, waitsFor r s = false := by
  obtain ⟨e, he, rfl⟩ := List.mem_map.1 h
  have hsome : (m.find? (waitsFor e.old.content)).isSome := by
    rw [List.find?_isSome]
    exact ⟨_, mem_waiting.1 he, by simp [waitsFor]⟩
  obtain ⟨s, hs⟩ := Option.isSome_iff_exists.1 hsome
  obtain ⟨hwaits, before, after, hm, hbefore⟩ := List.find?_eq_some_iff_append.1 hs
  match s with
  | .char c => cases hwaits
  | .mark (e', true) => cases hwaits
  | .mark (e', false) =>
    exact ⟨before, e', after, hm, beq_iff_eq.1 hwaits, fun s hs => by simpa using hbefore s hs⟩

/-- When no entry waits, all of them are what they become. -/
theorem textNow_of_done {m : List (Sym Progress)} (h : waiting m = []) :
    textNow m = written (fun e : Entry => e.new.triple) (fun e => e.new.content)
      (m.map forget) := by
  induction m with
  | nil => rfl
  | cons s m ih =>
    match s with
    | .char c => exact congrArg (c :: ·) (ih h)
    | .mark (e, false) => cases h
    | .mark (e, true) =>
      have htext : textNow (.mark (e, true) :: m) =
          quotes e.old.triple ++ e.new.content ++ quotes e.old.triple ++ textNow m := rfl
      rw [htext, ih h, List.map_cons, forget, written, e.triple]

theorem written_forget {triple : Entry → Bool} {content : Entry → List Char}
    {m : List (Sym Progress)} :
    written triple content (m.map forget) =
    written (fun e => triple e.1) (fun e => content e.1) m := by
  induction m with
  | nil => rfl
  | cons s m ih =>
    cases s with
    | char c => exact congrArg (c :: ·) ih
    | mark e => exact congrArg (_ ++ ·) ih

/-! ## One round -/

section
variable (lockedVersions latestVersionResolver : List Char → Option (List Char))

/-- The text but for the content of the marks for the requirement. -/
def others (r : List Char) (m : List (Sym Entry)) : List Char :=
  written (fun e => e.old.triple) (fun e => if e.old.content = r then [] else e.old.content) m

/-- The marks are where their requirements are looked for. -/
structure Placed (marked : List (Sym Entry)) : Prop where
  /-- The run rewrites what is marked. -/
  changed : ∀ e, .mark e ∈ marked →
  Rewrites lockedVersions latestVersionResolver ⟨e.old.content, e.new.content⟩
  /-- Before a mark, its requirement is quoted in marks only. -/
  first : ∀ before e after, marked = before ++ .mark e :: after →
    ¬ quoted e.old.content <:+: others e.old.content before ++ ['"']
  /-- And no mark there becomes its requirement. -/
  apart : ∀ before e after, marked = before ++ .mark e :: after →
    ∀ e', .mark e' ∈ before → e'.new.content ≠ e.old.content

variable {lockedVersions latestVersionResolver} {m before after : List (Sym Progress)} {e : Entry}

/-- Before the first entry that waits for the requirement, it is not quoted. -/
theorem Placed.not_quoted (h : Placed lockedVersions latestVersionResolver (m.map forget))
    (hm : m = before ++ .mark (e, false) :: after)
      (hbefore : ∀ s ∈ before, waitsFor e.old.content s = false) :
    quotedIn e.old.content none (textNow before ++ ['"']) = false := by
  have hmarked : m.map forget = before.map forget ++ .mark e :: after.map forget := by
    rw [hm, List.map_append, List.map_cons]
    rfl
  have hsame : quotedIn e.old.content none (textNow before ++ ['"']) =
      quotedIn e.old.content none (others e.old.content (before.map forget) ++ ['"']) := by
    rw [others, written_forget]
    refine quotedIn_written e.old.nonempty fun e' he' => ?_
    have hblank : '"' ∉ (if e'.1.old.content = e.old.content then [] else e'.1.old.content) ∧
        (if e'.1.old.content = e.old.content then [] else e'.1.old.content) ≠ e.old.content := by
      split_ifs with heq
      · exact ⟨List.not_mem_nil, e.old.nonempty.symm⟩
      · exact ⟨e'.1.old.quote_notMem, heq⟩
    refine ⟨(now e').quote_notMem, ?_, hblank⟩
    obtain ⟨e', done⟩ := e'
    cases done with
    | true => exact h.apart _ _ _ hmarked e' (List.mem_map.2 ⟨_, he', rfl⟩)
    | false =>
      intro heq
      have hwaits := hbefore _ he'
      rw [waitsFor, beq_eq_false_iff_ne] at hwaits
      exact hwaits heq
  rw [hsame]
  refine eq_false_of_ne_true fun hquoted => ?_
  exact h.first _ _ _ hmarked ((quotedIn_none_iff e.old.quote_notMem).1 hquoted)

/-- What is written around a string ends with the quote that the string is looked for with. -/
theorem quotes_split (triple : Bool) : ∃ q, quotes triple = q ++ ['"'] ∧ quotes triple = '"' :: q ∧
    ∀ c ∈ q, c = '"' := by
  cases triple with
  | false => exact ⟨[], rfl, rfl, nofun⟩
  | true => exact ⟨['"', '"'], rfl, rfl, by decide⟩

theorem quotedIn_quotes {r q s : List Char} (hr : r ≠ []) (hq : ∀ c ∈ q, c = '"')
    (hs : quotedIn r none (s ++ ['"']) = false) : quotedIn r none (s ++ (q ++ ['"'])) = false := by
  have hempty : ((some [] : Option (List Char)) == some r) = false := by simpa using hr.symm
  have hnone : ∀ q : List Char, (∀ c ∈ q, c = '"') → quotedIn r (some []) q = false := by
    intro q hq
    induction q with
    | nil => rfl
    | cons c q ih =>
      rw [hq c (List.mem_cons_self ..), quotedIn_quote, hempty, Bool.false_or]
      exact ih fun d hd => hq d (List.mem_cons_of_mem _ hd)
  cases q with
  | nil => exact hs
  | cons c q =>
    rw [hq c (List.mem_cons_self ..), List.cons_append, quotedIn_split, hs, Bool.false_or]
    refine hnone _ fun d hd => ?_
    rcases List.mem_append.1 hd with hd | hd
    · exact hq d (List.mem_cons_of_mem _ hd)
    · exact List.mem_singleton.1 hd

/-- **One round** rewrites the first entry that waits for its requirement. -/
theorem Placed.round (h : Placed lockedVersions latestVersionResolver (m.map forget))
    (hm : m = before ++ .mark (e, false) :: after)
      (hbefore : ∀ s ∈ before, waitsFor e.old.content s = false) :
    quoted e.old.content <:+: textNow m ∧
      Text.replaceFirst (quoted e.old.content) (quoted e.new.content) (textNow m) =
        textNow (before ++ .mark (e, true) :: after) := by
  obtain ⟨q, hend, hstart, hq⟩ := quotes_split e.old.triple
  have htext : ∀ done, textNow (before ++ .mark (e, done) :: after) =
      (textNow before ++ q) ++ quoted (now (e, done)).content ++ (q ++ textNow after) := by
    intro done
    have hcons : textNow (.mark (e, done) :: after) =
        quotes e.old.triple ++ (now (e, done)).content ++ quotes e.old.triple ++ textNow after :=
      rfl
    have happend : textNow (before ++ .mark (e, done) :: after) =
        textNow before ++ textNow (.mark (e, done) :: after) := written_append
    rw [happend, hcons]
    nth_rewrite 1 [hend]
    rw [hstart]
    simp [quoted]
  have hfirst := quotedIn_quotes e.old.nonempty hq (h.not_quoted hm hbefore)
  rw [← List.append_assoc] at hfirst
  constructor
  · rw [hm, htext]
    exact ⟨_, _, rfl⟩
  · rw [hm, htext, htext]
    exact replaceFirst_quoted e.old.quote_notMem hfirst

/-! ## The loop -/

variable (lockedVersions latestVersionResolver) in
/-- What a run replaces the requirement with. -/
def newRequirement (r : List Char) : List Char :=
  match targetDependencyVersion lockedVersions latestVersionResolver r with
  | none => r
  | some v => (withLowerBound r v).getD r

variable (lockedVersions latestVersionResolver) in
/-- The requirements that a run changes, in order. -/
def changes (requirements : List (List Char)) : List DependencyUpdate :=
  requirements.filterMap fun r =>
    if newRequirement lockedVersions latestVersionResolver r = r then none
    else some ⟨r, newRequirement lockedVersions latestVersionResolver r⟩

theorem rewrites_iff {u : DependencyUpdate} : Rewrites lockedVersions latestVersionResolver u ↔
    newRequirement lockedVersions latestVersionResolver u.oldRequirement = u.newRequirement ∧
      u.newRequirement ≠ u.oldRequirement := by
  unfold Rewrites newRequirement
  cases targetDependencyVersion lockedVersions latestVersionResolver u.oldRequirement with
  | none =>
    constructor
    · rintro ⟨v, hv, -⟩
      cases hv
    · rintro ⟨heq, hne⟩
      exact absurd heq.symm hne
  | some v =>
    constructor
    · rintro ⟨v', hv', hnew, hne⟩
      cases hv'
      exact ⟨by simp only [hnew, Option.getD_some], hne⟩
    · rintro ⟨hnew, hne⟩
      refine ⟨v, rfl, ?_, hne⟩
      cases hbound : withLowerBound u.oldRequirement v with
      | none =>
        simp only [hbound, Option.getD_none] at hnew
        exact absurd hnew.symm hne
      | some new =>
        simp only [hbound, Option.getD_some] at hnew
        rw [hnew]

/-- A round leaves the text as it is, or replaces the requirement where it is first quoted. -/
theorem syncRequirement_text {r text text' : List Char} {update : Option DependencyUpdate}
    (h : syncRequirement lockedVersions latestVersionResolver text r = .ok (text', update)) :
    (newRequirement lockedVersions latestVersionResolver r = r ∧ text' = text ∧ update = none) ∨
      (newRequirement lockedVersions latestVersionResolver r ≠ r ∧
        text' = Text.replaceFirst (quoted r)
          (quoted (newRequirement lockedVersions latestVersionResolver r)) text ∧
        update = some ⟨r, newRequirement lockedVersions latestVersionResolver r⟩) := by
  unfold newRequirement
  unfold syncRequirement at h
  cases htarget : targetDependencyVersion lockedVersions latestVersionResolver r with
  | none =>
    simp only [htarget] at h
    cases h
    exact .inl ⟨rfl, rfl, rfl⟩
  | some v =>
    simp only [htarget] at h ⊢
    cases hnew : withLowerBound r v with
    | none =>
      simp only [hnew] at h
      cases h
    | some new =>
      simp only [hnew, Option.getD_some] at h ⊢
      split_ifs at h with hsame hfound
      · cases h
        exact .inl ⟨hsame, rfl, rfl⟩
      · cases h
        exact .inr ⟨hsame, rfl, rfl⟩

/-- The reported updates are the requirements that change, in order. -/
theorem updates_eq {requirements : List (List Char)} {text text' : List Char}
    {updates : List DependencyUpdate}
    (h : syncRequirements lockedVersions latestVersionResolver text requirements =
    .ok (text', updates)) :
    updates = changes lockedVersions latestVersionResolver requirements := by
  induction requirements generalizing text updates with
  | nil =>
    cases h
    rfl
  | cons r requirements ih =>
    obtain ⟨⟨text₁, update⟩, hstep, h⟩ := except_bind_eq_ok.1 h
    obtain ⟨⟨text₂, updates'⟩, hrest, h⟩ := except_bind_eq_ok.1 h
    cases h
    rw [ih hrest, changes, changes]
    rcases syncRequirement_text hstep with ⟨hsame, -, rfl⟩ | ⟨hnew, -, rfl⟩
    · rw [List.filterMap_cons, if_pos hsame]
      rfl
    · rw [List.filterMap_cons, if_neg hnew]
      rfl

/-- **A whole run** rewrites every mark, when the marks are the requirements that change. -/
theorem Placed.run {requirements : List (List Char)} {text : List Char}
    {updates : List DependencyUpdate}
    (h : Placed lockedVersions latestVersionResolver (m.map forget))
    (hwaiting : ((waiting m).map (·.old.content)).Perm
      (requirements.filter fun r => newRequirement lockedVersions latestVersionResolver r ≠ r))
    (hrun : syncRequirements lockedVersions latestVersionResolver (textNow m) requirements =
      .ok (text, updates)) :
    text = written (fun e : Entry => e.new.triple) (fun e => e.new.content) (m.map forget) := by
  induction requirements generalizing m updates with
  | nil =>
    cases hrun
    exact textNow_of_done (List.map_eq_nil_iff.1 hwaiting.eq_nil)
  | cons r requirements ih =>
    obtain ⟨⟨text₁, update⟩, hstep, hrun⟩ := except_bind_eq_ok.1 hrun
    obtain ⟨⟨text₂, updates'⟩, hrest, hrun⟩ := except_bind_eq_ok.1 hrun
    cases hrun
    rcases syncRequirement_text hstep with ⟨hsame, rfl, -⟩ | ⟨hnew, rfl, -⟩
    · rw [List.filter_cons_of_neg (by simpa using hsame)] at hwaiting
      exact ih h hwaiting hrest
    · rw [List.filter_cons_of_pos (by simpa using hnew)] at hwaiting
      obtain ⟨before, e, after, hm, rfl, hbefore⟩ :=
        exists_first (hwaiting.symm.subset (List.mem_cons_self ..))
      have hforget : m.map forget = (before ++ .mark (e, true) :: after).map forget := by
        rw [hm, List.map_append, List.map_append]
        rfl
      have hmem : .mark e ∈ m.map forget := by
        rw [hm]
        exact List.mem_map.2
          ⟨.mark (e, false), List.mem_append_right _ (List.mem_cons_self ..), rfl⟩
      have hchanged : newRequirement lockedVersions latestVersionResolver e.old.content =
          e.new.content :=
        (rewrites_iff.1 (h.changed e hmem)).1
      rw [hchanged, (h.round hm hbefore).2] at hrest
      rw [hforget] at h ⊢
      refine ih h ?_ hrest
      rw [hm, waiting_append, List.map_append] at hwaiting
      rw [waiting_append, List.map_append]
      exact (List.perm_middle.symm.trans hwaiting).cons_inv

end

/-! ## The data of a file -/

/-- Change the first value behind each key as `g` says. -/
def changeAt (g : List Char → Option (Value α → Value α)) : Table α → Table α
  | [] => []
  | (k, v) :: t =>
    match g k with
    | some h => (k, h v) :: changeAt (fun k' => if k' = k then none else g k') t
    | none => (k, v) :: changeAt g t

def onTable (h : Table α → Table α) : Value α → Value α
  | .table t => .table (h t)
  | v => v

def onItems (h : List (Value α) → List (Value α)) : Value α → Value α
  | .array items => .array (h items)
  | v => v

/-- Change the list behind the key of a table. -/
def onList (key : List Char) (h : List (Value α) → List (Value α)) : Value α → Value α :=
  onTable (changeAt fun k => if k = key then some (onItems h) else none)

/-- Change the lists `project.dependencies`, those of `dependency-groups` and
    `build-system.requires`. -/
def revise (h : List (Value α) → List (Value α)) : Table α → Table α :=
  changeAt fun k =>
    if k = "project".toList then some (onList "dependencies".toList h)
    else if k =
      "dependency-groups".toList then some (onTable (List.map fun e => (e.1, onItems h e.2)))
    else if k = "build-system".toList then some (onList "requires".toList h)
    else none

section
variable (lockedVersions latestVersionResolver : List Char → Option (List Char))

/-- A string of one of the lists after the run. -/
def replaced : Value α → Value α
  | .string r => .string (newRequirement lockedVersions latestVersionResolver r)
  | v => v

/-- The data with the requirements of the three lists replaced, and nothing else. -/
def synced (data : Table α) : Table α :=
  revise (List.map (replaced lockedVersions latestVersionResolver)) data

/-- The written file reads as the data with the requirements replaced, and the updates are those
    that changed. -/
def ReadsBack (pyprojectText writtenText : List Char) (updates : List DependencyUpdate) : Prop :=
  ∃ data requirements, readToml pyprojectText = .ok data ∧
    directRequirements data = .ok (requirements.map .string) ∧
    readToml writtenText = .ok (synced lockedVersions latestVersionResolver data) ∧
    updates = changes lockedVersions latestVersionResolver requirements

end

section
variable {β : Type} {f : α → Token} {data : Table α} {v : Value α} {values : List (Value α)}

theorem elements_fill (h : elements v = .ok values) :
    elements (v.fill f : Value β) = .ok (fillItems f values) := by
  cases v with
  | array items =>
    cases h
    rfl
  | string s =>
    cases h
    rw [Value.fill, elements, fillItems_eq, List.map_map]
    rfl
  | table entries =>
    cases h
    rw [Value.fill, elements, fillEntries_eq, fillItems_eq, List.map_map, List.map_map]
    rfl
  | scalar s => cases h
  | mark a => cases h

theorem groupElements_fill {groups : Table α} (h : groupElements groups = .ok values) :
    groupElements (fillEntries f groups : Table β) = .ok (fillItems f values) := by
  induction groups generalizing values with
  | nil =>
    cases h
    rfl
  | cons e groups ih =>
    obtain ⟨vs, hvs, h⟩ := except_bind_eq_ok.1 h
    obtain ⟨vs', hvs', h⟩ := except_bind_eq_ok.1 h
    cases h
    rw [fillEntries, groupElements, elements_fill hvs, ih hvs', fillItems_append]
    rfl

/-- What the three lists of a file are made of. -/
structure Lists (data p groups b : Table α) (ds gs rs : List (Value α)) : Prop where
  project : data.get? "project".toList = some (.table p)
  dependencies : elements ((p.get? "dependencies".toList).getD (.array [])) = .ok ds
  dependencyGroups : (data.get? "dependency-groups".toList).getD (.table []) = .table groups
  groupRequirements : groupElements groups = .ok gs
  buildSystem : (data.get? "build-system".toList).getD (.table []) = .table b
  requires : elements ((b.get? "requires".toList).getD (.array [])) = .ok rs

theorem asDict_ok {t : Table α} : asDict v = .ok t ↔ v = .table t := by
  cases v <;> simp [asDict]

theorem item_ok {key : List Char} : item data key = .ok v ↔ data.get? key = some v := by
  unfold item
  cases data.get? key <;> simp

theorem directRequirements_ok : directRequirements data = .ok values ↔
    ∃ p groups b ds gs rs, Lists data p groups b ds gs rs ∧ values = ds ++ gs ++ rs := by
  unfold directRequirements
  constructor
  · intro h
    obtain ⟨v, hitem, h⟩ := except_bind_eq_ok.1 h
    obtain ⟨p, hproject, h⟩ := except_bind_eq_ok.1 h
    obtain ⟨ds, hdependencies, h⟩ := except_bind_eq_ok.1 h
    obtain ⟨groups, hgroups, h⟩ := except_bind_eq_ok.1 h
    obtain ⟨gs, hgroupRequirements, h⟩ := except_bind_eq_ok.1 h
    obtain ⟨b, hbuildSystem, h⟩ := except_bind_eq_ok.1 h
    obtain ⟨rs, hrequires, h⟩ := except_bind_eq_ok.1 h
    cases h
    refine ⟨p, groups, b, ds, gs, rs, ?_, rfl⟩
    refine ⟨?_, hdependencies, asDict_ok.1 hgroups, hgroupRequirements, asDict_ok.1 hbuildSystem,
      hrequires⟩
    rw [item_ok.1 hitem, asDict_ok.1 hproject]
  · rintro ⟨p, groups, b, ds, gs, rs, h, rfl⟩
    refine except_bind_eq_ok.2 ⟨_, item_ok.2 h.project, ?_⟩
    refine except_bind_eq_ok.2 ⟨p, rfl, ?_⟩
    refine except_bind_eq_ok.2 ⟨ds, h.dependencies, ?_⟩
    refine except_bind_eq_ok.2 ⟨groups, asDict_ok.2 h.dependencyGroups, ?_⟩
    refine except_bind_eq_ok.2 ⟨gs, h.groupRequirements, ?_⟩
    refine except_bind_eq_ok.2 ⟨b, asDict_ok.2 h.buildSystem, ?_⟩
    exact except_bind_eq_ok.2 ⟨rs, h.requires, rfl⟩

theorem getD_fill {t : Table α} {key : List Char} {d : Value α} {d' : Value β}
    (hd : d.fill f = d') :
    (Table.get? (fillEntries f t : Table β) key).getD d' = ((t.get? key).getD d).fill f := by
  rw [get?_fill, ← hd]
  cases t.get? key <;> rfl

/-- The entries of the file with its marks filled. -/
theorem directRequirements_fill (h : directRequirements data = .ok values) :
    directRequirements (fillEntries f data : Table β) = .ok (fillItems f values) := by
  obtain ⟨p, groups, b, ds, gs, rs, hlists, rfl⟩ := directRequirements_ok.1 h
  refine directRequirements_ok.2 ⟨fillEntries f p, fillEntries f groups, fillEntries f b,
    fillItems f ds,
    fillItems f gs, fillItems f rs, ?_, by rw [fillItems_append, fillItems_append]⟩
  have hlist : ∀ {t : Table α} {key : List Char} {vs : List (Value α)},
      elements ((t.get? key).getD (.array [])) = .ok vs →
        elements ((Table.get? (fillEntries f t : Table β) key).getD (.array [])) =
        .ok (fillItems f vs) := by
    intro t key vs hvs
    have hget : (Table.get? (fillEntries f t : Table β) key).getD (.array []) =
        ((t.get? key).getD (.array [])).fill f := getD_fill rfl
    exact (congrArg elements hget).trans (elements_fill hvs)
  have hdict : ∀ {key : List Char} {t : Table α}, (data.get? key).getD (.table []) = .table t →
      (Table.get? (fillEntries f data : Table β) key).getD (.table []) =
      .table (fillEntries f t) := by
    intro key t ht
    have hget : (Table.get? (fillEntries f data : Table β) key).getD (.table []) =
        ((data.get? key).getD (.table [])).fill f := getD_fill rfl
    exact hget.trans (congrArg (Value.fill f) ht)
  exact ⟨by rw [get?_fill, hlists.project]; rfl, hlist hlists.dependencies,
    hdict hlists.dependencyGroups,
    groupElements_fill hlists.groupRequirements, hdict hlists.buildSystem, hlist hlists.requires⟩

end

/-! ## Filling and replacing -/

/-- A value that is no mark. -/
def notMark : Value α → Bool
  | .mark _ => false
  | _ => true

section
variable {lockedVersions latestVersionResolver : List Char → Option (List Char)} {v : Value Entry}
  {values : List (Value Entry)} {t : Table Entry}

variable (lockedVersions latestVersionResolver) in
/-- The marks are strings that the run changes, and the other strings are not. -/
structure MarksChanges (values : List (Value Entry)) : Prop where
  changed : ∀ e, .mark e ∈ values →
    newRequirement lockedVersions latestVersionResolver e.old.content = e.new.content
  kept : ∀ r, .string r ∈ values → newRequirement lockedVersions latestVersionResolver r = r

theorem MarksChanges.subset {values' : List (Value Entry)}
    (h : MarksChanges lockedVersions latestVersionResolver values)
    (hsub : ∀ v ∈ values', v ∈ values) :
    MarksChanges lockedVersions latestVersionResolver values' :=
  ⟨fun e he => h.changed e (hsub _ he), fun r hr => h.kept r (hsub _ hr)⟩

/-- What has no marks is the same before and after. -/
theorem unmarked_same (hv : v.unmarked = true) : (v.fill Entry.new : Value α) = v.fill Entry.old :=
  v.unmarked_fill hv

/-- The entries of a list, rewritten. -/
theorem items_fill (h : MarksChanges lockedVersions latestVersionResolver values)
    (hrest : unmarkedItems (values.filter notMark) = true) :
    (fillItems Entry.new values : List (Value α)) =
      (fillItems Entry.old values).map (replaced lockedVersions latestVersionResolver) := by
  induction values with
  | nil => rfl
  | cons v values ih =>
    have htail := h.subset fun _ hv => List.mem_cons_of_mem v hv
    rw [fillItems, fillItems, List.map_cons]
    cases v with
    | mark e =>
      rw [ih htail hrest, Value.fill, Value.fill, replaced, h.changed e (List.mem_cons_self ..)]
    | string r =>
      rw [ih htail hrest, Value.fill, Value.fill, replaced, h.kept r (List.mem_cons_self ..)]
    | scalar s =>
      rw [ih htail hrest]
      rfl
    | array items =>
      obtain ⟨hv, hrest⟩ := Bool.and_eq_true_iff.1 hrest
      rw [ih htail hrest, unmarked_same hv]
      rfl
    | table entries =>
      obtain ⟨hv, hrest⟩ := Bool.and_eq_true_iff.1 hrest
      rw [ih htail hrest, unmarked_same hv]
      rfl

theorem onItems_fill (hv : elements v = .ok values)
    (h : MarksChanges lockedVersions latestVersionResolver values)
    (hrest : (onItems (List.filter notMark) v).unmarked = true) : (v.fill Entry.new : Value α) =
      onItems (List.map (replaced lockedVersions latestVersionResolver)) (v.fill Entry.old) := by
  cases v with
  | array items =>
    cases hv
    exact congrArg Value.array (items_fill h hrest)
  | string s => rfl
  | scalar s => rfl
  | mark e => cases hv
  | table entries => exact Value.unmarked_fill _ hrest

/-- A table is filled as it is changed at its keys, when that is so for the values behind them. -/
theorem changeAt_fill {g : List Char → Option (Value Entry → Value Entry)}
    {g' : List Char → Option (Value α → Value α)} (hkeys : ∀ k, (g k).isSome = (g' k).isSome)
    (hvalues : ∀ k h h' v, g k = some h → g' k = some h' → t.get? k = some v →
    (h v).unmarked = true →
      v.fill Entry.new = h' (v.fill Entry.old))
    (hrest : unmarkedEntries (changeAt g t) = true) :
    fillEntries Entry.new t = changeAt g' (fillEntries Entry.old t) := by
  induction t generalizing g g' with
  | nil => rfl
  | cons e t ih =>
    obtain ⟨k, v⟩ := e
    rw [fillEntries, fillEntries, changeAt]
    rw [changeAt] at hrest
    have htail : ∀ k' v', k' ≠ k → Table.get? t k' = some v' →
        Table.get? ((k, v) :: t) k' = some v' := by
      intro k' v' hk hget
      rw [Table.get?, List.lookup_cons, beq_false_of_ne hk]
      exact hget
    cases hg : g k with
    | none =>
      have hg' : g' k = none := by
        have hsome := hkeys k
        rw [hg] at hsome
        exact Option.isNone_iff_eq_none.1 (by simpa using hsome.symm)
      simp only [hg] at hrest
      simp only [hg']
      obtain ⟨hv, hrest⟩ := Bool.and_eq_true_iff.1 hrest
      rw [unmarked_same hv, ih hkeys ?_ hrest]
      intro k' h h' v' hh hh' hget
      refine hvalues k' h h' v' hh hh' (htail k' v' ?_ hget)
      rintro rfl
      rw [hg] at hh
      cases hh
    | some h =>
      obtain ⟨h', hg'⟩ := Option.isSome_iff_exists.1 ((hkeys k).symm.trans (by rw [hg]; rfl))
      simp only [hg] at hrest
      simp only [hg']
      obtain ⟨hv, hrest⟩ := Bool.and_eq_true_iff.1 hrest
      have hhead : Table.get? ((k, v) :: t) k = some v := by simp [Table.get?]
      rw [hvalues k h h' v hg hg' hhead hv, ih ?_ ?_ hrest]
      · intro k'
        split_ifs
        · rfl
        · exact hkeys k'
      · intro k' h₁ h₁' v' hh hh' hget
        split_ifs at hh hh' with hk
        exact hvalues k' h₁ h₁' v' hh hh' (htail k' v' hk hget)

theorem onList_fill {key : List Char} (hv : elements ((t.get? key).getD (.array [])) = .ok values)
    (h : MarksChanges lockedVersions latestVersionResolver values)
    (hrest : (onList key (List.filter notMark) (.table t)).unmarked = true) :
    (Value.fill Entry.new (.table t) : Value α) =
      onList key (List.map (replaced lockedVersions latestVersionResolver))
        (Value.fill Entry.old (.table t)) := by
  refine congrArg Value.table
    (changeAt_fill (fun k => ?_) (fun k g g' v hg hg' hget hunmarked => ?_) hrest)
  · split_ifs <;> rfl
  · split_ifs at hg hg' with hk
    cases hg
    cases hg'
    rw [hk] at hget
    rw [hget] at hv
    exact onItems_fill hv h hunmarked

theorem groups_fill (hv : groupElements t = .ok values)
    (h : MarksChanges lockedVersions latestVersionResolver values)
    (hrest : unmarkedEntries (t.map fun e => (e.1, onItems (List.filter notMark) e.2)) = true) :
    (fillEntries Entry.new t : Table α) = (fillEntries Entry.old t).map fun e =>
      (e.1, onItems (List.map (replaced lockedVersions latestVersionResolver)) e.2) := by
  induction t generalizing values with
  | nil => rfl
  | cons e t ih =>
    obtain ⟨vs, hvs, hv⟩ := except_bind_eq_ok.1 hv
    obtain ⟨vs', hvs', hv⟩ := except_bind_eq_ok.1 hv
    cases hv
    obtain ⟨hhead, htail⟩ := Bool.and_eq_true_iff.1 hrest
    rw [fillEntries, fillEntries, List.map_cons,
      onItems_fill hvs (h.subset fun _ hmem => List.mem_append_left _ hmem) hhead,
      ih hvs' (h.subset fun _ hmem => List.mem_append_right _ hmem) htail]

/-- With the marks filled anew, the data are those with the requirements replaced. -/
theorem synced_fill (hv : directRequirements t = .ok values)
    (h : MarksChanges lockedVersions latestVersionResolver values)
    (hrest : unmarkedEntries (revise (List.filter notMark) t) = true) :
    (fillEntries Entry.new t : Table α) =
      synced lockedVersions latestVersionResolver (fillEntries Entry.old t) := by
  obtain ⟨p, groups, b, ds, gs, rs, hlists, rfl⟩ := directRequirements_ok.1 hv
  have hds := h.subset fun _ hmem => List.mem_append_left _ (List.mem_append_left _ hmem)
  have hgs := h.subset fun _ hmem => List.mem_append_left _ (List.mem_append_right _ hmem)
  have hrs := h.subset fun _ hmem => List.mem_append_right _ hmem
  refine changeAt_fill (fun k => ?_) (fun k g g' v hg hg' hget hunmarked => ?_) hrest
  · split_ifs <;> rfl
  · split_ifs at hg hg' with hproject hgroups hbuild
    · cases hg
      cases hg'
      have hp := hlists.project
      rw [← hproject, hget] at hp
      cases hp
      exact onList_fill hlists.dependencies hds hunmarked
    · cases hg
      cases hg'
      have hp := hlists.dependencyGroups
      rw [← hgroups, hget, Option.getD_some] at hp
      subst hp
      exact congrArg Value.table (groups_fill hlists.groupRequirements hgs hunmarked)
    · cases hg
      cases hg'
      have hp := hlists.buildSystem
      rw [← hbuild, hget, Option.getD_some] at hp
      subst hp
      exact onList_fill hlists.requires hrs hunmarked

end

/-! ## The written file -/

section
variable {lockedVersions latestVersionResolver : List Char → Option (List Char)}
    {text writtenText : List Char}
  {updates : List DependencyUpdate} {marked : List (Sym Entry)} {doc : Table Entry}
    {values : List (Value Entry)}

/-- The marks of a text. -/
def marksIn : List (Sym Entry) → List Entry
  | [] => []
  | .mark e :: m => e :: marksIn m
  | .char _ :: m => marksIn m

/-- The entry that a value is marked as. -/
def mark? : Value Entry → Option Entry
  | .mark e => some e
  | _ => none

variable (lockedVersions latestVersionResolver) in
/-- The file has a reading with marks: each is an entry of one of the three lists, and where its
    requirement is looked for. -/
structure Located (text : List Char) (marked : List (Sym Entry)) (doc : Table Entry)
    (values : List (Value Entry)) :
    Prop extends Placed lockedVersions latestVersionResolver marked where
  text_eq : written (fun e => e.old.triple) (fun e => e.old.content) marked = text
  reads : loads marked = some doc
  entries : directRequirements doc = .ok values
  /-- The marks are entries of the lists. -/
  marks : (marksIn marked).Perm (values.filterMap mark?)
  /-- No mark is elsewhere. -/
  only : unmarkedEntries (revise (List.filter notMark) doc) = true
  /-- The other entries stay as they are. -/
  kept : ∀ r, .string r ∈ values → newRequirement lockedVersions latestVersionResolver r = r

theorem mem_marksIn {e : Entry} : e ∈ marksIn marked ↔ .mark e ∈ marked := by
  induction marked with
  | nil => simp [marksIn]
  | cons s m ih => cases s <;> simp [marksIn, ih]

/-- Nothing is rewritten yet. -/
def begin : Sym Entry → Sym Progress
  | .char c => .char c
  | .mark e => .mark (e, false)

theorem forget_begin : (marked.map begin).map forget = marked := by
  induction marked with
  | nil => rfl
  | cons s m ih => cases s <;> exact congrArg (_ :: ·) ih

theorem waiting_begin : waiting (marked.map begin) = marksIn marked := by
  induction marked with
  | nil => rfl
  | cons s m ih =>
    cases s with
    | char c => exact ih
    | mark e => exact congrArg (e :: ·) ih

theorem textNow_begin : textNow (marked.map begin) =
    written (fun e => e.old.triple) (fun e => e.old.content) marked := by
  induction marked with
  | nil => rfl
  | cons s m ih =>
    cases s with
    | char c => exact congrArg (c :: ·) ih
    | mark e => exact congrArg (_ ++ ·) ih

theorem syncValues_ok {values : List (Value α)} {text' : List Char}
    (h : syncValues lockedVersions latestVersionResolver text values = .ok (text', updates)) :
    ∃ requirements, values = requirements.map .string ∧
      syncRequirements lockedVersions latestVersionResolver text requirements =
      .ok (text', updates) := by
  induction values generalizing text updates with
  | nil => exact ⟨[], rfl, by cases h; rfl⟩
  | cons v values ih =>
    cases v with
    | string r =>
      obtain ⟨⟨text₁, update⟩, hstep, h⟩ := except_bind_eq_ok.1 h
      obtain ⟨⟨text₂, updates'⟩, hrest, h⟩ := except_bind_eq_ok.1 h
      cases h
      obtain ⟨requirements, rfl, hrun⟩ := ih hrest
      have hstep : syncRequirement lockedVersions latestVersionResolver text r =
          .ok (text₁, update) := by
        cases hr : syncRequirement lockedVersions latestVersionResolver text r with
        | error e => rw [hr] at hstep; cases hstep
        | ok x => rw [hr] at hstep; cases hstep; rfl
      exact ⟨r :: requirements, rfl,
        except_bind_eq_ok.2 ⟨_, hstep, except_bind_eq_ok.2 ⟨_, hrun, rfl⟩⟩⟩
    | mark a => cases h
    | scalar s => cases h
    | array items => cases h
    | table entries => cases h

/-- The requirements that change are those that are marked. -/
theorem changed_marks {requirements : List (List Char)}
    (hvalues : (fillItems Entry.old values : List (Value Empty)) = requirements.map .string)
    (h : MarksChanges lockedVersions latestVersionResolver values)
    (hne : ∀ e, .mark e ∈ values → e.new.content ≠ e.old.content) :
    (values.filterMap mark?).map (·.old.content) =
      requirements.filter fun r => newRequirement lockedVersions latestVersionResolver r ≠ r := by
  induction values generalizing requirements with
  | nil =>
    cases requirements with
    | nil => rfl
    | cons r requirements => cases hvalues
  | cons v values ih =>
    cases requirements with
    | nil => cases hvalues
    | cons r requirements =>
      rw [fillItems, List.map_cons] at hvalues
      obtain ⟨hv, hvalues⟩ := List.cons.inj hvalues
      have ih := ih hvalues (h.subset fun _ hmem => List.mem_cons_of_mem _ hmem)
        fun e he => hne e (List.mem_cons_of_mem _ he)
      cases v with
      | mark e =>
        cases hv
        have hnew := h.changed e (List.mem_cons_self ..)
        rw [List.filter_cons_of_pos (by simpa [hnew] using hne e (List.mem_cons_self ..)), ← ih]
        rfl
      | string s =>
        cases hv
        have hsame := h.kept _ (List.mem_cons_self ..)
        rw [List.filter_cons_of_neg (by simpa using hsame), ← ih]
        rfl
      | scalar s => cases hv
      | array items => cases hv
      | table entries => cases hv

/-- Without updates the text stays as it is. -/
theorem text_of_updates_nil {requirements : List (List Char)} {text' : List Char}
    (h : syncRequirements lockedVersions latestVersionResolver text requirements =
    .ok (text', [])) :
    text' = text := by
  induction requirements generalizing text text' with
  | nil =>
    cases h
    rfl
  | cons r requirements ih =>
    obtain ⟨⟨text₁, update⟩, hstep, h⟩ := except_bind_eq_ok.1 h
    obtain ⟨⟨text₂, updates'⟩, hrest, h⟩ := except_bind_eq_ok.1 h
    obtain ⟨htext, hupdates⟩ := Prod.mk.inj (Except.ok.inj h)
    obtain ⟨hnone, hnil⟩ := List.append_eq_nil_iff.1 hupdates
    rcases syncRequirement_text hstep with ⟨-, rfl, -⟩ | ⟨-, -, rfl⟩
    · rw [hnil] at hrest
      rw [← htext]
      exact ih hrest
    · cases hnone

/-- **The written file reads as the claimed data** when the requirements that change are quoted
    first where they are entries. -/
theorem reads_back (h : Located lockedVersions latestVersionResolver text marked doc values)
    (hrun : syncPyprojectDependencyVersions lockedVersions latestVersionResolver false text =
      .ok (writtenText, updates)) :
    ReadsBack lockedVersions latestVersionResolver text writtenText updates := by
  have hread : readToml text = .ok (fillEntries Entry.old doc) := by
    rw [readToml, ← h.text_eq, chars_written (f := Entry.old), loads_fill h.reads]
  have hentries : directRequirements (fillEntries Entry.old doc : Table Empty) =
      .ok (fillItems Entry.old values) :=
    directRequirements_fill h.entries
  have hmem : ∀ e, .mark e ∈ values → .mark e ∈ marked := fun e he =>
    mem_marksIn.1 (h.marks.symm.subset (List.mem_filterMap.2 ⟨_, he, rfl⟩))
  have hmarks : MarksChanges lockedVersions latestVersionResolver values :=
    ⟨fun e he => (rewrites_iff.1 (h.changed e (hmem e he))).1, h.kept⟩
  -- the run goes over the strings of the three lists
  obtain ⟨data, hdata, hrun⟩ := except_bind_eq_ok.1 hrun
  obtain ⟨vs, hvs, hrun⟩ := except_bind_eq_ok.1 hrun
  obtain ⟨⟨text', updates'⟩, hloop, hrun⟩ := except_bind_eq_ok.1 hrun
  obtain ⟨hwritten, rfl⟩ := Prod.mk.inj (Except.ok.inj hrun)
  obtain rfl := Except.ok.inj (hread.symm.trans hdata)
  obtain rfl := Except.ok.inj (hentries.symm.trans hvs)
  obtain ⟨requirements, hvalues, hloop⟩ := syncValues_ok hloop
  have htext : writtenText = text' := by
    rw [← hwritten]
    by_cases hnil : updates' = []
    · rw [hnil] at hloop
      rw [if_neg fun hne => hne.1 hnil, text_of_updates_nil hloop]
    · exact if_pos ⟨hnil, rfl⟩
  -- and rewrites the marks
  have hwaiting : ((waiting (marked.map begin)).map (·.old.content)).Perm
      (requirements.filter fun r => newRequirement lockedVersions latestVersionResolver r ≠ r) := by
    rw [waiting_begin, ← changed_marks hvalues hmarks fun e he =>
      (rewrites_iff.1 (h.changed e (hmem e he))).2]
    exact h.marks.map _
  have hplaced : Placed lockedVersions latestVersionResolver ((marked.map begin).map forget) := by
    rw [forget_begin]
    exact h.toPlaced
  have hnew : text' = written (fun e => e.new.triple) (fun e => e.new.content) marked := by
    have hrun' : syncRequirements lockedVersions latestVersionResolver
        (textNow (marked.map begin)) requirements =
        .ok (text', updates') := by
      rw [textNow_begin, h.text_eq]
      exact hloop
    have hdone := hplaced.run hwaiting hrun'
    rwa [forget_begin] at hdone
  refine ⟨_, requirements, hread, by rw [hentries, hvalues], ?_, updates_eq hloop⟩
  rw [readToml, htext, hnew, chars_written (f := Entry.new), loads_fill h.reads,
    synced_fill h.entries hmarks h.only]

/-- Where the only mark of a text stands. -/
theorem only_mark {s t : List Char} {e e' : Entry} {before after : List (Sym Entry)}
    (h : chars s ++ .mark e :: chars t = before ++ .mark e' :: after) : before = chars s ∧
    e' = e := by
  induction s generalizing before with
  | nil =>
    cases before with
    | nil =>
      cases h
      exact ⟨rfl, rfl⟩
    | cons b before =>
      have hmem : .mark e' ∈ chars t := by
        rw [(List.cons.inj h).2]
        exact List.mem_append_right _ (List.mem_cons_self ..)
      obtain ⟨c, -, hc⟩ := List.mem_map.1 hmem
      cases hc
  | cons c s ih =>
    cases before with
    | nil => cases h
    | cons b before =>
      obtain ⟨hb, h⟩ := List.cons.inj h
      obtain ⟨hbefore, he⟩ := ih h
      exact ⟨by rw [← hb, hbefore]; rfl, he⟩

namespace Sample

/-- The lock has version 2 of every package. -/
def lock : List Char → Option (List Char) := fun _ => some "2".toList

/-- The index knows no package. -/
def index : List Char → Option (List Char) := fun _ => none

def oldA : Token := ⟨false, "a>0".toList, by decide, by decide, by decide⟩
def newA : Token := ⟨false, "a>=2".toList, by decide, by decide, by decide⟩
def entryA : Entry := ⟨oldA, newA, rfl⟩

/-- `[project]` with one dependency. -/
def markedA : List (Sym Entry) :=
  chars "[project]\ndependencies=[".toList ++ .mark entryA :: chars "]\n".toList

theorem locatedA : Located lock index "[project]\ndependencies=[\"a>0\"]\n".toList markedA
    [("project".toList, .table [("dependencies".toList, .array [.mark entryA])])]
      [.mark entryA] where
  changed e he := by
    obtain rfl : e = entryA := List.mem_singleton.1 (mem_marksIn.2 he)
    exact ⟨"2".toList, by decide, by decide, by decide⟩
  first before e after h := by
    obtain ⟨rfl, rfl⟩ := only_mark h
    decide
  apart before e after h e' he' := by
    obtain ⟨rfl, -⟩ := only_mark h
    obtain ⟨c, -, hc⟩ := List.mem_map.1 he'
    cases hc
  text_eq := by decide
  reads := rfl
  entries := rfl
  marks := List.Perm.refl _
  only := by decide
  kept r hr := by
    cases List.mem_singleton.1 hr

end Sample

theorem reads_back_dependency :
    ReadsBack Sample.lock Sample.index "[project]\ndependencies=[\"a>0\"]\n".toList
    "[project]\ndependencies=[\"a>=2\"]\n".toList [⟨"a>0".toList, "a>=2".toList⟩] :=
  reads_back Sample.locatedA (by decide)

namespace Sample

/-- A file with an optional dependency, and a group of one requirement. -/
def optionalText (dependency requirement : List Char) : List Char :=
  "[project]\noptional-dependencies.t=[".toList ++ quoted dependency ++
    "]\n[dependency-groups]\nd=[".toList ++ quoted requirement ++ "]\n".toList

/-- The only requirement of a file that has one. -/
def onlyRequirement (data : Table Empty) : List Char :=
  match directRequirements data with
  | .ok [.string r] => r
  | _ => []

end Sample

/-- The optional dependency is rewritten, and the same requirement of the group is not. -/
theorem rewrites_optional :
    ¬∀ (lockedVersions latestVersionResolver : List Char → Option (List Char))
    (pyprojectText writtenText : List Char) (updates : List DependencyUpdate),
    syncPyprojectDependencyVersions lockedVersions latestVersionResolver false pyprojectText =
      .ok (writtenText, updates) →
    ReadsBack lockedVersions latestVersionResolver pyprojectText writtenText updates := by
  intro h
  obtain ⟨data, requirements, hdata, -, hwritten, -⟩ := h Sample.lock Sample.index
    (Sample.optionalText "a>0".toList "a>0".toList) (Sample.optionalText "a>=2".toList "a>0".toList)
    [⟨"a>0".toList, "a>=2".toList⟩] (by decide)
  have hold : (readToml (Sample.optionalText "a>0".toList "a>0".toList)).map
      (Sample.onlyRequirement ∘ synced Sample.lock Sample.index) = .ok "a>=2".toList := by decide
  have hnew :
      (readToml (Sample.optionalText "a>=2".toList "a>0".toList)).map Sample.onlyRequirement =
      .ok "a>0".toList := by decide
  rw [hdata] at hold
  rw [hwritten] at hnew
  have hsame : "a>=2".toList = "a>0".toList := Except.ok.inj (hold.symm.trans hnew)
  exact absurd hsame (by decide)

end

end FastapiTemplate.Management
