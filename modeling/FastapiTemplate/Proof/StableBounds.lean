/-
  Which requirements a second rewriting with the same version changes.

  * `boundedSpecifier_fixed`: a bound that was written is found again.
  * `Taken.exists_bounded`: what was written, and what stands around it.
  * `spacedExtras`: extras with white space before and after them join the name
    in the first rewriting, and lose what follows them in the second.
-/
import FastapiTemplate.Proof.Requirements

namespace FastapiTemplate.Management

open Regex Pep508 Spans

/-- A version without white space, commas, semicolons and backslashes. -/
structure PlainVersion (v : List Char) : Prop where
  ne_nil : v ≠ []
  noSpace : ∀ c ∈ v, Text.isSpace c = false
  comma : ',' ∉ v
  semicolon : ';' ∉ v
  backslash : '\\' ∉ v

/-! ## The bound that was written -/

section
variable {before v rest pre s : List Char}

theorem PlainVersion.isBoundChar (hv : PlainVersion v) : ∀ c ∈ v, isBoundChar c = true := by
  intro c hc
  have hne : c ≠ ',' ∧ c ≠ ';' ∧ c ≠ ' ' := by
    refine ⟨?_, ?_, ?_⟩
    · rintro rfl
      exact hv.comma hc
    · rintro rfl
      exact hv.semicolon hc
    · rintro rfl
      exact absurd (hv.noSpace ' ' hc) (by decide)
  simp [Management.isBoundChar, hne]

theorem first_written (hv : PlainVersion v)
    (hrest : rest.head?.all (fun c => !isBoundChar c) = true) :
    First LOWER_BOUND_RE before ('>' :: ('=' :: (v ++ rest)))
      ⟨">=".toList ++ v, rest, [("operator", ">=".toList)]⟩ := by
  obtain ⟨d, ds, rfl⟩ := List.exists_cons_of_ne_nil hv.ne_nil
  have hop : First (alt (lit ['>', '=']) (lit ['>'])) before ('>' :: ('=' :: (d :: ds ++ rest)))
      ⟨">=".toList, d :: ds ++ rest, []⟩ := First.left First.lit
  have hstop : (d :: ds ++ rest).head?.all (fun c => !Text.isSpace c) = true := by
    simp [hv.noSpace d (List.mem_cons_self ..)]
  have hspaces : ∀ b, First spaces b (d :: ds ++ rest) ⟨[], d :: ds ++ rest, []⟩ := by
    intro b
    have h : First spaces b (d :: ds ++ rest) ⟨_, _, []⟩ := First.star_char
    rwa [(stop hstop).1, (stop hstop).2] at h
  have hbound : ∀ b, First (plus (char isBoundChar)) b (d :: ds ++ rest) ⟨d :: ds, rest, []⟩ := by
    intro b
    have htake : (d :: ds ++ rest).takeWhile isBoundChar = d :: ds :=
      takeWhile_append_stop hv.isBoundChar hrest
    have h : First (plus (char isBoundChar)) b (d :: ds ++ rest) ⟨_, _, []⟩ :=
      First.plus_char (by rw [htake]; simp)
    rwa [htake, dropWhile_append_stop hv.isBoundChar hrest] at h
  have h : First LOWER_BOUND_RE before ('>' :: ('=' :: (d :: ds ++ rest))) _ :=
    hop.group.seq ((hspaces _).seq (hbound _))
  have hm : Match.append ⟨">=".toList, d :: ds ++ rest, [("operator", ">=".toList)]⟩
      (Match.append ⟨[], d :: ds ++ rest, []⟩ ⟨d :: ds, rest, []⟩) =
      ⟨">=".toList ++ d :: ds, rest, [("operator", ">=".toList)]⟩ := by
    simp [Match.append]
  exact hm ▸ h

/-- **A bound that was written is found again.** -/
theorem boundedSpecifier_fixed (hv : PlainVersion v) (hpre : '>' ∉ pre)
    (hrest : rest.head?.all (fun c => !isBoundChar c) = true) :
    boundedSpecifier (pre ++ (">=".toList ++ v) ++ rest) v = pre ++ (">=".toList ++ v) ++ rest := by
  have htext : pre ++ (">=".toList ++ v) ++ rest = pre ++ '>' :: ('=' :: (v ++ rest)) := by simp
  have hskip : ∀ c ∈ pre, ∀ b a, run LOWER_BOUND_RE b (c :: a) = [] := fun c hc _ _ =>
    run_bound fun h => hpre (h ▸ hc)
  have hfirst : First LOWER_BOUND_RE pre.reverse ('>' :: ('=' :: (v ++ rest))) _ :=
    first_written hv hrest
  have hfound : (LOWER_BOUND_RE.search (pre ++ '>' :: ('=' :: (v ++ rest)))).isSome = true := by
    rw [search_first hskip hfirst (by simp)]
    rfl
  rw [htext, boundedSpecifier, if_neg (by simp), if_pos hfound, subOne_first hskip hfirst (by simp)]
  simp

theorem last_plain (hv : PlainVersion v) {c : Char} (hc : c ∈ (s ++ v).getLast?) :
    Text.isSpace c = false := by
  rw [List.getLast?_append_of_ne_nil _ hv.ne_nil] at hc
  exact hv.noSpace c (List.mem_of_mem_getLast? hc)

end

/-! ## The text that was written -/

section
variable {μ : Type} {readMarker : List Char → Option μ} {r v p m core name e gap w₀ e₀ : List Char}
  {extras extras₀ : List (List Char)} {q : Requirement μ} {n : Match}

/-- A specifier with the bound `v` in it, and the specifier that it comes from. -/
structure Bounded (specifier v pre rest : List Char) : Prop where
  text : boundedSpecifier specifier v = pre ++ (">=".toList ++ v) ++ rest
  first : '>' ∉ pre
  stops : rest.head?.all (fun c => !isBoundChar c) = true
  head : pre = [] ∨ (pre ++ ['>']).head? = specifier.head?
  last : rest = [] ∨ rest.getLast? = specifier.getLast?
  chars : ∀ c ∈ pre ++ rest, c ∈ specifier ∨ c = ','

/-- A bound is put in front, or replaces one that stands after the extras. -/
theorem Taken.exists_bounded (h : Taken readMarker r q p m core e n gap w₀ e₀ extras₀)
    (v : List Char) :
    ∃ pre rest, Bounded (gap ++ core) v pre rest ∧
      (('>' ∉ core ∧ pre = []) ∨
      ('>' ∈ core ∧ ∃ pre₀, pre = gap ++ pre₀ ∧ (pre₀ ++ ['>']).head? = core.head?)) := by
  by_cases hsign : '>' ∈ core
  · obtain ⟨-, hspec, -⟩ := h.cases.resolve_left fun ⟨_, _, hno, _⟩ => hno hsign
    -- where the old bound stands does not depend on the new version
    obtain ⟨pre, eq, w, version, z, hrep⟩ :=
      exists_replaced (v := ['0']) hspec h.trimmed hsign (by decide)
    have hpre : '>' ∉ gap ++ pre := h.sign_notMem hrep.first
    have hspecifier : gap ++ core = (gap ++ pre) ++ '>' :: (eq ++ (w ++ (version ++ z))) := by
      rw [hrep.text, List.append_assoc]
    obtain ⟨hfound, n, hsub⟩ := replace_bound hpre hrep.sign hrep.space hrep.version
    refine ⟨gap ++ pre, z.dropWhile isBoundChar, ⟨?_, hpre, dropWhile_head, .inr ?_, ?_, ?_⟩,
      .inr ⟨hsign, pre, rfl, ?_⟩⟩
    · rw [hspecifier, boundedSpecifier, if_neg (by simp), if_pos hfound, hsub]
    · rw [hspecifier]
      cases gap ++ pre <;> rfl
    · by_cases hnil : z.dropWhile isBoundChar = []
      · exact .inl hnil
      · obtain ⟨y, hy⟩ := List.dropWhile_suffix isBoundChar (l := z)
        have hz : gap ++ core = ((gap ++ pre) ++ '>' :: (eq ++ (w ++ (version ++ y)))) ++
            z.dropWhile isBoundChar := by
          rw [hspecifier]
          conv_lhs => rw [← hy]
          simp
        rw [hz, List.getLast?_append_of_ne_nil _ hnil]
        exact .inr rfl
    · intro c hc
      rw [hspecifier]
      rcases List.mem_append.1 hc with hc | hc
      · exact .inl (List.mem_append_left _ hc)
      · have hz : c ∈ z := (List.dropWhile_suffix _).subset hc
        exact .inl (by simp [hz])
    · rw [hrep.text]
      cases pre <;> rfl
  · have hno : '>' ∉ gap ++ core := h.sign_notMem hsign
    by_cases hnil : gap ++ core = []
    · exact ⟨[], [], ⟨by rw [boundedSpecifier, if_pos hnil]; simp, by simp, rfl, .inl rfl, .inl rfl,
        fun _ hc => absurd hc List.not_mem_nil⟩, .inl ⟨hsign, rfl⟩⟩
    · refine ⟨[], ',' :: (gap ++ core), ⟨?_, by simp, rfl, .inl rfl, .inr ?_, ?_⟩,
        .inl ⟨hsign, rfl⟩⟩
      · rw [boundedSpecifier, if_neg hnil, search_bound_none hno]
        simp
      · rw [← List.singleton_append, List.getLast?_append_of_ne_nil _ hnil]
      · intro c hc
        exact (List.mem_cons.1 hc).symm

/-- Stripping leaves what was written as it is. -/
theorem strip_written {pre rest : List Char} (hv : PlainVersion v)
    (hfirst : ∀ c ∈ (pre ++ ['>']).head?, Text.isSpace c = false)
    (hlast : ∀ c ∈ rest.getLast?, Text.isSpace c = false) :
    Text.stripChars (pre ++ (">=".toList ++ v) ++ rest) = pre ++ (">=".toList ++ v) ++ rest := by
  refine Text.stripChars_eq_self (fun c hc => ?_) fun c hc => ?_
  · have hsame : (pre ++ (">=".toList ++ v) ++ rest).head? = (pre ++ ['>']).head? := by
      cases pre <;> rfl
    rw [hsame] at hc
    exact hfirst c hc
  · by_cases hnil : rest = []
    · rw [hnil, List.append_nil, ← List.append_assoc] at hc
      exact last_plain hv hc
    · rw [List.getLast?_append_of_ne_nil _ hnil] at hc
      exact hlast c hc

theorem Bounded.first_space {specifier pre rest : List Char} (h : Bounded specifier v pre rest)
    (hfirst : ∀ c ∈ specifier.head?, Text.isSpace c = false) :
    ∀ c ∈ (pre ++ ['>']).head?, Text.isSpace c = false := by
  intro c hc
  rcases h.head with rfl | hhead
  · cases hc
    rfl
  · rw [hhead] at hc
    exact hfirst c hc

theorem Bounded.last_space {specifier pre rest : List Char} (h : Bounded specifier v pre rest)
    (hlast : ∀ c ∈ specifier.getLast?, Text.isSpace c = false) : ∀ c ∈ rest.getLast?,
    Text.isSpace c = false := by
  intro c hc
  rcases h.last with rfl | hrest
  · cases hc
  · rw [hrest] at hc
    exact hlast c hc

theorem Bounded.semicolon {specifier pre rest : List Char} (h : Bounded specifier v pre rest)
    (hv : PlainVersion v)
    (hno : ';' ∉ specifier) : ';' ∉ pre ++ (">=".toList ++ v) ++ rest := by
  have hchars : ';' ∉ pre ++ rest := fun hmem => (h.chars ';' hmem).elim hno (by decide)
  simp only [List.mem_append, not_or] at hchars ⊢
  exact ⟨⟨hchars.1, by decide, hv.semicolon⟩, hchars.2⟩

/-- The extras that are matched with the name are not empty. -/
theorem Parts.matched (h : Parts p name e extras core n gap w₀ e₀ extras₀)
    (hname : isIdentifier name = true) :
    e₀ = [] ∨ ∃ inner, ']' ∉ inner ∧ inner ≠ [] ∧ e₀ = '[' :: (inner ++ [']']) := by
  have hextras := h.extrasText
  cases hextras with
  | none => exact .inl rfl
  | @brackets inner _ hinner _ =>
    refine .inr ⟨inner, hinner, ?_, rfl⟩
    rintro rfl
    have hfound := h.found
    have hmatch : NAME_RE.match? (name ++ ('[' :: ([] ++ [']']) ++ afterName p)) = some
        ⟨name, _, _⟩ :=
      match_name hname rfl (.inr ⟨_, rfl⟩)
    rw [h.rest, hmatch] at hfound
    have hbefore := h.before
    rw [← Option.some.inj hfound] at hbefore
    have hnil : name ++ [] = name ++ '[' :: ([] ++ [']']) := hbefore
    simp at hnil

/-- Extras that are set off from the name are not matched with it. -/
theorem Parts.set_off (h : Parts p name e extras core n gap w₀ e₀ extras₀)
    (he : ExtrasText e extras)
    {s : List Char} (hgap : gap = '[' :: s) :
    e₀ = [] ∧ ∃ inner, ']' ∉ inner ∧ e = '[' :: (inner ++ [']']) := by
  have hjoined := h.joined
  cases he with
  | none =>
    rw [h.noGap rfl, hgap] at hjoined
    simp at hjoined
  | @brackets inner _ hinner _ =>
    refine ⟨?_, inner, hinner, rfl⟩
    have hextras := h.extrasText
    cases hextras with
    | none => rfl
    | @brackets inner₀ _ hinner₀ _ =>
      -- nothing but white space would be left for the gap
      exfalso
      have hstop : ∀ inner : List Char, ']' ∉ inner → ∀ c ∈ inner, decide (c ≠ ']') = true :=
        fun inner h c hc =>
        decide_eq_true fun heq => h (heq ▸ hc)
      have htext : inner₀ ++ (']' :: gap) = inner ++ (']' :: w₀) := by
        simpa using hjoined
      obtain ⟨-, hrest⟩ :=
        takeWhile_unique (hstop inner₀ hinner₀) (by simp) (hstop inner hinner) (by simp) htext
      have hw₀ : gap = w₀ := List.tail_eq_of_cons_eq hrest
      have hspace := h.space '[' (by rw [← hw₀, hgap]; exact List.mem_cons_self ..)
      exact absurd hspace (by decide)

end

/-! ## A second rewriting -/

section
variable {μ : Type} {readMarker : List Char → Option μ}
    {r v p m core name e gap w₀ e₀ t : List Char}
  {extras extras₀ : List (List Char)} {q : Requirement μ} {n : Match}

/-- What a second match takes, where no extras that are not matched stand right after the name. -/
theorem match_joined (hname : isIdentifier name = true)
    (ht : t.head?.all (fun c => !identChar c) = true)
    (he₀ : (e₀ = [] ∧ (t.head? ≠ some '[' ∨ ∃ s, t = '[' :: ']' :: s)) ∨
      ∃ inner, ']' ∉ inner ∧ inner ≠ [] ∧ e₀ = '[' :: (inner ++ [']'])) :
    ∃ n', NAME_RE.match? (name ++ (e₀ ++ t)) = some n' ∧
      n'.group "name" ++ n'.group "extras" = name ++ e₀ ∧
      specifierAfter (name ++ (e₀ ++ t)) n' = Text.stripChars t := by
  rcases he₀ with ⟨rfl, hbracket⟩ | ⟨inner, hinner, hne, rfl⟩
  · have hmatch : NAME_RE.match? (name ++ ([] ++ t)) = some ⟨name, t, [("name", name)]⟩ :=
      match_name hname ht hbracket
    refine ⟨_, hmatch, rfl, ?_⟩
    have hdrop : (name ++ ([] ++ t)).drop name.length = t := List.drop_left
    rw [specifierAfter, hdrop]
  · refine ⟨_, match_name_extras hname hinner hne, rfl, ?_⟩
    have hdrop : (name ++ ('[' :: (inner ++ [']']) ++ t)).drop
        (name ++ '[' :: (inner ++ [']'])).length = t := by
      rw [← List.append_assoc]
      exact List.drop_left
    rw [specifierAfter, hdrop]

/-- A second rewriting of what was written. -/
theorem rewrite_written {pre rest : List Char} (hv : PlainVersion v)
    (hname : isIdentifier name = true)
    (hm : m = [] ∨ ∃ b, m = ';' :: b) (hno : ';' ∉ name ++ (e₀ ++ t))
    (hhead : t.head?.all (fun c => !identChar c) = true)
    (he₀ : (e₀ = [] ∧ (t.head? ≠ some '[' ∨ ∃ s, t = '[' :: ']' :: s)) ∨
      ∃ inner, ']' ∉ inner ∧ inner ≠ [] ∧ e₀ = '[' :: (inner ++ [']']))
    (hstrip : Text.stripChars t = pre ++ (">=".toList ++ v) ++ rest) (hpre : '>' ∉ pre)
    (hstops : rest.head?.all (fun c => !isBoundChar c) = true) :
    withLowerBound (name ++ (e₀ ++ t) ++ m) v = some
      (name ++ e₀ ++ (pre ++ (">=".toList ++ v) ++ rest) ++ m) := by
  obtain ⟨n', hmatch, hbefore, hspecifier⟩ := match_joined hname hhead he₀
  rw [withLowerBound_eq hno hm hmatch hv.backslash, hbefore, hspecifier, hstrip,
    boundedSpecifier_fixed hv hpre hstops]

end

/-- The extras of the requirement are set off from its name, white space stands after them, and a
    lower bound follows. -/
def spacedExtras (r : List Char) : Bool :=
  r.head?.any identChar && match specifierText r with
    | '[' :: c :: s =>
      c ≠ ']' && s.contains '>' && (((c :: s).dropWhile (· ≠ ']')).drop 1).head?.any wsp
    | _ => false

section
variable {μ : Type} {readMarker : List Char → Option μ} {r v p m core e gap w₀ e₀ : List Char}
  {extras₀ : List (List Char)} {q : Requirement μ} {n : Match}

theorem Taken.ends (h : Taken readMarker r q p m core e n gap w₀ e₀ extras₀) :
    (∀ c ∈ (gap ++ core).head?, Text.isSpace c = false) ∧ ∀ c ∈ (gap ++ core).getLast?,
    Text.isSpace c = false := by
  rw [← h.parts.specifier, specifierAfter]
  exact ⟨fun _ => Text.first_stripChars, fun _ => Text.last_stripChars⟩

theorem Taken.head (h : Taken readMarker r q p m core e n gap w₀ e₀ extras₀) :
    r.head?.any identChar = true := by
  obtain ⟨c, s, hname, hc⟩ := isIdentifier_head h.name
  rw [h.text, h.parts.rest, hname]
  exact hc

/-- Extras are spaced when they are set off, and white space follows them. -/
theorem Taken.spacedExtras_iff (h : Taken readMarker r q p m core e n gap w₀ e₀ extras₀) :
    spacedExtras r = true ↔ '>' ∈ core ∧ ∃ c s, gap = '[' :: c :: s ∧ c ≠ ']' ∧ w₀ ≠ [] := by
  rw [spacedExtras, h.head, h.specifierText, Bool.true_and]
  rcases h.parts.cases with ⟨rfl, -⟩ | ⟨s, hgap⟩
  · -- no extras are set off
    constructor
    · intro hspaced
      split at hspaced
      · rename_i heq
        rw [List.nil_append] at heq
        exact absurd (by rw [heq]; rfl) h.separated.not_bracket
      · cases hspaced
    · rintro ⟨-, c, s, hnil, -⟩
      cases hnil
  · obtain ⟨rfl, inner, hinner, rfl⟩ := h.parts.set_off h.extras hgap
    have hjoined : gap = '[' :: (inner ++ [']']) ++ w₀ := h.parts.joined
    have hsign := h.gap_chars.1
    rw [hjoined] at hsign ⊢
    cases inner with
    | nil =>
      constructor
      · intro hspaced
        simp at hspaced
      · rintro ⟨-, c, s, heq, hc, -⟩
        cases heq
        exact absurd rfl hc
    | cons c inner =>
      have hc : c ≠ ']' := fun heq => hinner (heq ▸ List.mem_cons_self ..)
      have htext : '[' :: (c :: inner ++ [']']) ++ w₀ ++ core =
          '[' :: c :: (inner ++ ']' :: (w₀ ++ core)) := by simp
      have hdrop : (c :: (inner ++ ']' :: (w₀ ++ core))).dropWhile (· ≠ ']') =
          ']' :: (w₀ ++ core) := by
        rw [← List.cons_append]
        exact dropWhile_append_stop (fun d hd => decide_eq_true fun heq => hinner (heq ▸ hd))
          (by simp)
      have hcontains : (inner ++ ']' :: (w₀ ++ core)).contains '>' = true ↔ '>' ∈ core := by
        simp only [List.mem_cons, List.mem_append, not_or] at hsign
        simp [hsign]
      have hspace : (w₀ ++ core).head?.any wsp = true ↔ w₀ ≠ [] := by
        cases w₀ with
        | nil =>
          have htrim := h.trimmed.1
          cases core with
          | nil => simp
          | cons d core => simpa using htrim
        | cons d w₀ => simpa using h.parts.space d (List.mem_cons_self ..)
      rw [htext]
      simp only [hdrop, Bool.and_eq_true, decide_eq_true_eq, List.drop_one, List.tail_cons,
        hcontains, hspace]
      constructor
      · rintro ⟨⟨-, hmem⟩, hw₀⟩
        exact ⟨hmem, c, inner ++ [']'] ++ w₀, by simp, hc, hw₀⟩
      · rintro ⟨hmem, -, -, -, -, hw₀⟩
        exact ⟨⟨hc, hmem⟩, hw₀⟩

/-- Extras that were set off are matched with the name, and white space after them goes. -/
theorem rewrite_set_off {pre₀ rest inner : List Char}
    (h : Taken readMarker r q p m core e n gap w₀ e₀ extras₀)
    (hv : PlainVersion v) (hb : Bounded (gap ++ core) v (gap ++ pre₀) rest) (hsign : '>' ∈ core)
    (hcore : (pre₀ ++ ['>']).head? = core.head?) (hinner : ']' ∉ inner) (hne : inner ≠ [])
    (he : e = '[' :: (inner ++ [']'])) (hgap : gap = e ++ w₀) :
    withLowerBound (q.name ++ boundedSpecifier (gap ++ core) v ++ m) v =
      some (q.name ++ e ++ (pre₀ ++ (">=".toList ++ v) ++ rest) ++ m) := by
  obtain ⟨-, hspec, -⟩ := h.cases.resolve_left fun ⟨_, _, hno, _⟩ => hno hsign
  have hfirst : ∀ c ∈ core.head?, wsp c = false ∧ Text.isSpace c = false := by
    intro c hc
    have hwsp : wsp c = false := by
      have htrim := h.trimmed.1
      rw [Option.mem_def.1 hc] at htrim
      simpa using htrim
    have hplain := readSpecifier_plainChar hspec c (List.mem_of_mem_head? hc)
    exact ⟨hwsp, by rw [isSpace_plain hplain, hwsp]⟩
  have hsame : (pre₀ ++ (">=".toList ++ v) ++ rest).head? = core.head? := by
    rw [← hcore]
    cases pre₀ <;> rfl
  have hstrip : Text.stripChars (w₀ ++ (pre₀ ++ (">=".toList ++ v) ++ rest)) =
      pre₀ ++ (">=".toList ++ v) ++ rest := by
    rw [Text.stripChars_append fun c hc => isSpace_of_wsp (h.parts.space c hc)]
    exact strip_written hv (fun c hc => (hfirst c (by rwa [← hcore])).2) (hb.last_space h.ends.2)
  have hsemi : ';' ∉ q.name ++ (e ++ (w₀ ++ (pre₀ ++ (">=".toList ++ v) ++ rest))) := by
    have hwritten := hb.semicolon hv h.marker_notMem
    have hname := notMem_of_forall (isIdentifier_chars h.name) (x := ';') (by decide)
    rw [hgap] at hwritten
    simp only [List.mem_append, not_or] at hwritten ⊢
    exact ⟨hname, hwritten.1.1.1.1, hwritten.1.1.1.2, ⟨hwritten.1.1.2, hwritten.1.2⟩, hwritten.2⟩
  have hhead : (w₀ ++ (pre₀ ++ (">=".toList ++ v) ++ rest)).head?.all (fun c => !identChar c) =
      true := by
    cases w₀ with
    | nil =>
      rw [List.nil_append, hsame]
      exact h.separated.not_ident
    | cons c w₀ => simp [not_identChar_of_wsp (h.parts.space c (List.mem_cons_self ..))]
  have htext : q.name ++ boundedSpecifier (gap ++ core) v ++ m =
      q.name ++ (e ++ (w₀ ++ (pre₀ ++ (">=".toList ++ v) ++ rest))) ++ m := by
    rw [hb.text, hgap]
    simp
  rw [htext]
  exact rewrite_written hv h.name h.marker hsemi hhead (.inr ⟨inner, hinner, hne, he⟩) hstrip
    (fun hmem => hb.first (List.mem_append_right _ hmem)) hb.stops

section
variable {pre rest : List Char} (ht : Taken readMarker r q p m core e n gap w₀ e₀ extras₀)
    (hv : PlainVersion v)
  (hb : Bounded (gap ++ core) v pre rest)
include ht hv hb

/-- What is read again as it was written stays as it is. -/
theorem rewrite_same (hident : (pre ++ ['>']).head?.all (fun c => !identChar c) = true)
    (hbracket : (pre ++ (">=".toList ++ v) ++ rest).head? ≠ some '[' ∨
      (∃ s, pre ++ (">=".toList ++ v) ++ rest = '[' :: ']' :: s) ∨ e₀ ≠ []) :
    withLowerBound (q.name ++ e₀ ++ boundedSpecifier (gap ++ core) v ++ m) v =
      some (q.name ++ e₀ ++ boundedSpecifier (gap ++ core) v ++ m) := by
  obtain ⟨hfirst, hlast⟩ := ht.ends
  have hstrip := strip_written hv (hb.first_space hfirst) (hb.last_space hlast)
  have hsemi : ';' ∉ q.name ++ (e₀ ++ (pre ++ (">=".toList ++ v) ++ rest)) := by
    have hname := ht.noMarker
    rw [ht.parts.rest] at hname
    simp only [List.mem_append, not_or] at hname
    rw [List.mem_append, List.mem_append, not_or, not_or]
    exact ⟨hname.1, hname.2.1, hb.semicolon hv ht.marker_notMem⟩
  have hhead : (pre ++ (">=".toList ++ v) ++ rest).head?.all (fun c => !identChar c) = true := by
    cases pre <;> exact hident
  rw [hb.text, List.append_assoc q.name]
  refine (rewrite_written hv ht.name ht.marker hsemi hhead ?_ hstrip hb.first hb.stops).trans ?_
  · rcases ht.parts.matched ht.name with rfl | he₀
    · exact .inl ⟨rfl, by simpa using hbracket⟩
    · exact .inr he₀
  · rw [List.append_assoc q.name]

/-- White space after extras that were set off goes. -/
theorem rewrite_spaced (hcase : ('>' ∉ core ∧ pre = []) ∨
      ('>' ∈ core ∧ ∃ pre₀, pre = gap ++ pre₀ ∧ (pre₀ ++ ['>']).head? = core.head?))
        (hspaced : spacedExtras r = true) :
    withLowerBound (q.name ++ e₀ ++ boundedSpecifier (gap ++ core) v ++ m) v ≠
      some (q.name ++ e₀ ++ boundedSpecifier (gap ++ core) v ++ m) := by
  obtain ⟨hsign, c, s, hgap, hc, hw₀⟩ := ht.spacedExtras_iff.1 hspaced
  obtain ⟨-, pre₀, rfl, hcore⟩ := hcase.resolve_left fun hcase => hcase.1 hsign
  obtain ⟨rfl, inner, hinner, he⟩ := ht.parts.set_off ht.extras hgap
  have hjoined : gap = e ++ w₀ := ht.parts.joined
  have hne : inner ≠ [] := by
    rintro rfl
    rw [hjoined, he] at hgap
    cases hgap
    exact hc rfl
  rw [List.append_nil, rewrite_set_off ht hv hb hsign hcore hinner hne he hjoined, hb.text, hjoined]
  intro heq
  have hlength := congrArg List.length (Option.some.inj heq)
  simp only [List.length_append] at hlength
  exact hw₀ (List.eq_nil_of_length_eq_zero (by omega))

theorem rewrite_unspaced (hcase : ('>' ∉ core ∧ pre = []) ∨
      ('>' ∈ core ∧ ∃ pre₀, pre = gap ++ pre₀ ∧ (pre₀ ++ ['>']).head? = core.head?))
        (hspaced : spacedExtras r = false) :
    withLowerBound (q.name ++ e₀ ++ boundedSpecifier (gap ++ core) v ++ m) v =
      some (q.name ++ e₀ ++ boundedSpecifier (gap ++ core) v ++ m) := by
  rcases hcase with ⟨-, rfl⟩ | ⟨hsign, pre₀, rfl, hcore⟩
  · exact rewrite_same ht hv hb rfl (.inl (by simp))
  · rcases ht.parts.cases with ⟨rfl, -⟩ | ⟨s, hgap⟩
    · have hhead : ([] ++ pre₀ ++ (">=".toList ++ v) ++ rest).head? = core.head? := by
        rw [← hcore]
        cases pre₀ <;> rfl
      refine rewrite_same ht hv hb ?_ (.inl (by rw [hhead]; exact ht.separated.not_bracket))
      rw [List.nil_append, hcore]
      exact ht.separated.not_ident
    · obtain ⟨rfl, inner, hinner, he⟩ := ht.parts.set_off ht.extras hgap
      have hjoined : gap = e ++ w₀ := ht.parts.joined
      cases inner with
      | nil =>
        refine rewrite_same ht hv hb (by rw [hgap]; rfl)
          (.inr (.inl ⟨w₀ ++ pre₀ ++ (">=".toList ++ v) ++ rest, ?_⟩))
        rw [hjoined, he]
        simp
      | cons c inner =>
        have hw₀ : w₀ = [] := by
          by_contra hne
          have hc : c ≠ ']' := fun heq => hinner (heq ▸ List.mem_cons_self ..)
          have hspaced' := ht.spacedExtras_iff.2
            ⟨hsign, c, inner ++ [']'] ++ w₀, by rw [hjoined, he]; simp, hc, hne⟩
          rw [hspaced] at hspaced'
          cases hspaced'
        rw [List.append_nil, rewrite_set_off ht hv hb hsign hcore hinner (by simp) he hjoined,
          hb.text, hjoined, hw₀]
        simp

end

/-- **A second rewriting with the same version.** It changes nothing, unless the extras are
    spaced. -/
theorem withLowerBound_twice (h : Pep508.parse readMarker r = some q) (hv : PlainVersion v) :
    ∃ s, withLowerBound r v = some s ∧ (withLowerBound s v = some s ↔ spacedExtras r = false) := by
  by_cases hspace : r.head?.any wsp = true
  · -- the requirement is left alone
    refine ⟨r, withLowerBound_space hspace, fun _ => ?_, fun _ => withLowerBound_space hspace⟩
    cases r with
    | nil => cases hspace
    | cons c r =>
      have hident : identChar c = false := not_identChar_of_wsp hspace
      simp [spacedExtras, hident]
  · obtain ⟨p, m, core, e, n, gap, w₀, e₀, extras₀, ht⟩ := exists_taken h (head_of_not_space hspace)
    obtain ⟨pre, rest, hb, hcase⟩ := ht.exists_bounded v
    refine ⟨_, ht.withLowerBound hv.backslash, fun hsame => ?_, rewrite_unspaced ht hv hb hcase⟩
    rw [← Bool.not_eq_true]
    exact fun hspaced => rewrite_spaced ht hv hb hcase hspaced hsame

/-- White space before the extras, and after them too. -/
theorem Sample.parsed_spaced :
    Pep508.parse some "uvicorn [standard]>0.30".toList =
      some ⟨"uvicorn".toList, ["standard".toList], none, [⟨.greater, "0.30".toList⟩], none⟩ ∧
    Pep508.parse some "uvicorn [standard] >0.30".toList =
      some ⟨"uvicorn".toList, ["standard".toList], none, [⟨.greater, "0.30".toList⟩], none⟩ ∧
    withLowerBound "uvicorn [standard] >0.30".toList "0.31".toList =
      some "uvicorn[standard] >=0.31".toList ∧
    withLowerBound "uvicorn[standard] >=0.31".toList "0.31".toList =
      some "uvicorn[standard]>=0.31".toList := by
  refine ⟨?_, ?_, ?_, ?_⟩ <;> decide +kernel

theorem withLowerBound_twice_bounded :
    ∃ s, withLowerBound "uvicorn [standard]>0.30".toList "0.31".toList = some s ∧
    (withLowerBound s "0.31".toList = some s ↔
    spacedExtras "uvicorn [standard]>0.30".toList = false) := by
  exact withLowerBound_twice Sample.parsed_spaced.1
    ⟨by decide, by decide, by decide, by decide, by decide⟩

/-- The white space between extras and bound goes one rewriting later than the one before the
    extras. -/
theorem second_rewriting : ¬∀ (r : List Char) (q : Requirement (List Char)) (v : List Char),
    Pep508.parse some r = some q → PlainVersion v →
      ∃ s, withLowerBound r v = some s ∧ withLowerBound s v = some s := by
  intro h
  obtain ⟨-, hparse, hfirst, hsecond⟩ := Sample.parsed_spaced
  obtain ⟨s, hs, hagain⟩ :=
    h _ _ "0.31".toList hparse ⟨by decide, by decide, by decide, by decide, by decide⟩
  rw [hfirst] at hs
  cases hs
  rw [hsecond] at hagain
  exact absurd hagain (by decide)

end

end FastapiTemplate.Management
