/-
  How the scanner of `Yaml` goes through scalars: the characters that it gives as
  they are (`reads_ordinary`), what it gives first where it does not go on with a
  scalar (`rest_head_ne`), and which texts it reads as part of a plain scalar that
  ends after them (`reads_of_rest`).
-/
import FastapiTemplate.Lib.Yaml

namespace Yaml

/-- What a text in the state `s` gives up to the end of the document. -/
abbrev Scan.rest (s : Scan) (text : List Char) : List Event := Reader.rest (r := scanner) s text

/-- The next event, if any, is no character. -/
def EndsScalar (events : List Event) : Prop := ∀ c, events.head? ≠ some (.char c)

/-- The text is read as characters, and the scanner stays as it is. -/
def Reads (s : Scan) (text : List Char) : Prop :=
  scanner.output s text = chars text ∧ scanner.state s text = s

/-- A character that means nothing else inside a scalar. -/
def isOrdinary (c : Char) : Bool :=
  !isBlank c && !isFlow c && c != '#' && c != ':' && c != '\'' && c != '"' && c != '\\'

namespace Scan

variable {s : Scan} {c y : Char} {text : List Char}

/-- Outside of a scalar, or where it is open whether one goes on. -/
def quiet (s : Scan) : Bool :=
  match s.mode with
  | .line _ | .between | .indicator _ | .plainLine _ | .singleQuote | .quoted | .comment => true
  | .plain blanks => blanks ≠ [] && blanks.all isBlank
  | .plainColon blanks => blanks.all isBlank
  | _ => false

end Scan

/-- The events begin with something else than a character, or with one that is not ordinary, after
    blanks that were kept. -/
def Opens (events : List Event) : Prop :=
  (∃ e rest, events = e :: rest ∧ e.isChar = false) ∨
    ∃ blanks c rest, events = chars (blanks ++ [c]) ++ rest ∧ (∀ b ∈ blanks, isBlank b = true) ∧
      isBlank c = false ∧ (blanks = [] → isOrdinary c = false)

theorem Opens.append {events rest : List Event} (h : Opens events) : Opens (events ++ rest) := by
  rcases h with ⟨e, tail, rfl, he⟩ | ⟨blanks, c, tail, rfl, hblanks, hc, hfirst⟩
  · exact .inl ⟨e, tail ++ rest, List.cons_append, he⟩
  · exact .inr ⟨blanks, c, tail ++ rest, List.append_assoc .., hblanks, hc, hfirst⟩

theorem opens_cons {e : Event} {rest : List Event} (he : e.isChar = false) : Opens (e :: rest) :=
  .inl ⟨e, rest, rfl, he⟩

theorem Opens.head_ne {events : List Event} {y : Char} (h : Opens events)
    (hy : isOrdinary y = true) :
    events.head? ≠ some (.char y) := by
  rcases h with ⟨e, rest, rfl, he⟩ | ⟨blanks, c, rest, rfl, hblanks, -, hfirst⟩
  · intro heq
    obtain rfl := Option.some.inj heq
    cases he
  · intro heq
    cases blanks with
    | nil =>
      have hc : c = y := by simpa [chars] using heq
      rw [← hc, hfirst rfl] at hy
      cases hy
    | cons b blanks =>
      have hb : b = y := by simpa [chars] using heq
      have hblank := hblanks b (by simp)
      rw [hb] at hblank
      simp [isOrdinary, hblank] at hy

namespace Scan
variable {s : Scan} {c y : Char} {text : List Char}

/-- The step gives nothing yet, or begins with something else than an ordinary character. -/
def StillQuiet (r : Scan × List Event) : Prop := r.2 = [] ∧ r.1.quiet = true ∨ Opens r.2

theorem begin_quiet : StillQuiet (s.begin c) := by
  unfold begin
  split_ifs <;> first | exact .inl ⟨rfl, rfl⟩ | exact .inr (opens_cons rfl)

theorem startLine_quiet {column : ℕ} : StillQuiet (s.startLine column c) := by
  unfold startLine
  split_ifs
  · exact .inl ⟨rfl, rfl⟩
  · exact begin_quiet
  · exact .inr (opens_cons rfl)

theorem marked_quiet {mark : Char} : StillQuiet (s.marked mark c) := .inr (opens_cons rfl)

theorem quotedChar_quiet : StillQuiet (s.quotedChar c) := by
  unfold quotedChar
  split_ifs
  · exact .inr (opens_cons rfl)
  · exact begin_quiet

/-- A character after blanks. -/
theorem plainChar_quiet {blanks : List Char} (hne : blanks ≠ [])
    (hblanks : ∀ b ∈ blanks, isBlank b = true) : StillQuiet (s.plainChar blanks c) := by
  have hall : blanks.all isBlank = true := List.all_eq_true.2 hblanks
  unfold plainChar
  split_ifs with hline hblank
  · exact .inl ⟨rfl, rfl⟩
  · exact .inl ⟨rfl, by simp [quiet, hall, hblank]⟩
  · exact .inl ⟨rfl, rfl⟩
  · exact .inl ⟨rfl, hall⟩
  · exact begin_quiet
  · exact .inr (.inr ⟨blanks, c, [], (List.append_nil _).symm, hblanks, by simpa using hblank,
      fun h => absurd h hne⟩)

theorem step_quiet (hs : s.quiet = true) : StillQuiet (s.step c) := by
  obtain ⟨mode, head, column, depth, floor⟩ := s
  have hspace : ∀ b ∈ [' '], isBlank b = true := by decide
  cases mode with
  | line n =>
    simp only [step]
    split_ifs
    · exact .inl ⟨rfl, rfl⟩
    · exact .inl ⟨rfl, rfl⟩
    · exact .inl ⟨rfl, rfl⟩
    · exact startLine_quiet
  | between => exact begin_quiet
  | indicator mark =>
    simp only [step]
    split_ifs
    · exact marked_quiet
    · exact .inr (opens_cons rfl)
  | plain blanks =>
    obtain ⟨hne, hblanks⟩ := Bool.and_eq_true_iff.1 hs
    exact plainChar_quiet (of_decide_eq_true hne) (List.all_eq_true.1 hblanks)
  | plainColon blanks =>
    simp only [step]
    split_ifs
    · exact marked_quiet
    · exact .inr (.inr ⟨blanks, ':', _, rfl, List.all_eq_true.1 hs, rfl, fun _ => rfl⟩)
  | plainLine n =>
    simp only [step]
    split_ifs
    · exact .inl ⟨rfl, rfl⟩
    · exact .inl ⟨rfl, rfl⟩
    · exact plainChar_quiet (by decide) hspace
    · exact startLine_quiet
  | singleQuote =>
    simp only [step]
    split_ifs with hquote
    · subst hquote
      exact .inr (.inr ⟨[], '\'', [], rfl, by decide, rfl, fun _ => rfl⟩)
    · exact quotedChar_quiet
  | quoted => exact quotedChar_quiet
  | comment =>
    simp only [step]
    split_ifs
    · exact .inl ⟨rfl, rfl⟩
    · exact .inl ⟨rfl, rfl⟩
  | _ => cases hs

theorem rest_nil : s.rest [] = (s.step '\n').2 := rfl

theorem rest_cons : s.rest (c :: text) = (s.step c).2 ++ (s.step c).1.rest text :=
  List.append_assoc ..

/-- **Outside of a scalar** nothing is given, or something that opens one. -/
theorem rest_quiet (hs : s.quiet = true) : s.rest text = [] ∨ Opens (s.rest text) := by
  induction text generalizing s with
  | nil =>
    rw [rest_nil]
    exact (step_quiet hs).imp_left fun h => h.1
  | cons c text ih =>
    rw [rest_cons]
    rcases step_quiet hs (c := c) with ⟨hnone, hquiet⟩ | hopens
    · rw [hnone]
      exact ih hquiet
    · exact .inr hopens.append

theorem StillQuiet.head_ne {r : Scan × List Event} (h : StillQuiet r) (hy : isOrdinary y = true) :
    (r.2 ++ r.1.rest text).head? ≠ some (.char y) := by
  rcases h with ⟨hnone, hquiet⟩ | hopens
  · rw [hnone, List.nil_append]
    have hcases : Scan.rest r.1 text = [] ∨ Opens (Scan.rest r.1 text) := rest_quiet hquiet
    rcases hcases with hrest | hrest
    · rw [hrest]
      exact nofun
    · exact hrest.head_ne hy
  · exact hopens.append.head_ne hy

end Scan

/-! ## The style of the scalar -/

/-- The style of the latest scalar. -/
def scalarAfter (last : Option Style) (events : List Event) : Option Style :=
  events.foldl (fun last e => match e with
    | .scalar style => some style
    | _ => last) last

theorem scalarAfter_append {last : Option Style} {a b : List Event} :
    scalarAfter last (a ++ b) = scalarAfter (scalarAfter last a) b := List.foldl_append

theorem scalarAfter_chars {last : Option Style} (text : List Char) :
    scalarAfter last (chars text) = last := by
  induction text generalizing last with
  | nil => rfl
  | cons c text ih => exact ih

/-- The style of the scalar that is being read. -/
def Mode.style : Mode → Option Style
  | plain _ | plainColon _ | plainLine _ => some .plain
  | single | singleQuote => some .single
  | double | escape => some .double
  | header | blockLine _ | blockText => some .block
  | _ => none

namespace Scan
variable {s : Scan} {c : Char} {last : Option Style} {text : List Char}

/-- The scalar that is being read is the latest one. -/
def Fits (last : Option Style) (s : Scan) : Prop :=
  ∀ style, s.mode.style = some style → last = some style

end Scan

/-! ## Plain scalars -/

theorem ends_cons {e : Event} {rest : List Event} (he : e.isChar = false) :
    EndsScalar (e :: rest) := by
  intro c hc
  obtain rfl := Option.some.inj hc
  cases he

/-- Characters after which none comes next are all the characters there are. -/
theorem chars_of_ends {a b : List Char} {events rest : List Event} (hends : EndsScalar events)
    (h : chars a ++ events = chars b ++ rest) : ∃ more, a = b ++ more ∧ rest =
    chars more ++ events := by
  induction b generalizing a with
  | nil => exact ⟨a, rfl, h.symm⟩
  | cons c b ih =>
    cases a with
    | nil => exact absurd (congrArg List.head? h) (hends c)
    | cons d a =>
      obtain ⟨hcd, htail⟩ := List.cons.inj h
      cases hcd
      obtain ⟨more, rfl, hrest⟩ := ih htail
      exact ⟨more, rfl, hrest⟩

namespace Scan
variable {s : Scan} {c : Char} {text after : List Char} {events : List Event}

/-- Outside of a scalar, and no scalar goes on. -/
def outside (s : Scan) : Bool :=
  match s.mode with
  | .line _ | .between | .indicator _ | .comment => true
  | _ => false

/-- The step gives nothing yet, or begins with something else than a character. -/
def StillOutside (r : Scan × List Event) : Prop :=
  r.2 = [] ∧ r.1.outside = true ∨ ∃ e rest, r.2 = e :: rest ∧ e.isChar = false

theorem begin_outside : StillOutside (s.begin c) := by
  unfold begin
  split_ifs <;> first | exact .inl ⟨rfl, rfl⟩ | exact .inr ⟨_, _, rfl, rfl⟩

theorem startLine_outside {column : ℕ} : StillOutside (s.startLine column c) := by
  unfold startLine
  split_ifs
  · exact .inl ⟨rfl, rfl⟩
  · exact begin_outside
  · exact .inr ⟨_, _, rfl, rfl⟩

theorem step_outside (hs : s.outside = true) : StillOutside (s.step c) := by
  obtain ⟨mode, head, column, depth, floor⟩ := s
  cases mode with
  | line n =>
    simp only [step]
    split_ifs
    · exact .inl ⟨rfl, rfl⟩
    · exact .inl ⟨rfl, rfl⟩
    · exact .inl ⟨rfl, rfl⟩
    · exact startLine_outside
  | between => exact begin_outside
  | indicator mark =>
    simp only [step]
    split_ifs <;> exact .inr ⟨_, _, rfl, rfl⟩
  | comment =>
    simp only [step]
    split_ifs <;> exact .inl ⟨rfl, rfl⟩
  | _ => cases hs

theorem StillOutside.ends {r : Scan × List Event} (h : StillOutside r)
    (hrest : r.1.outside = true → EndsScalar (r.1.rest text)) :
    EndsScalar (r.2 ++ r.1.rest text) := by
  rcases h with ⟨hnone, hout⟩ | ⟨e, rest, hgiven, he⟩
  · rw [hnone]
    exact hrest hout
  · rw [hgiven]
    exact ends_cons he

/-- Outside of a scalar no character comes next. -/
theorem rest_outside (hs : s.outside = true) : EndsScalar (s.rest text) := by
  induction text generalizing s with
  | nil =>
    rw [rest_nil]
    rcases step_outside hs (c := '\n') with ⟨hnone, -⟩ | ⟨e, rest, hgiven, he⟩
    · rw [hnone]
      exact nofun
    · rw [hgiven]
      exact ends_cons he
  | cons c text ih =>
    rw [rest_cons]
    exact (step_outside hs).ends ih

/-- What a plain scalar may go on with is kept. -/
def Keeps (s : Scan) (kept : List Char) : Prop :=
  (s.mode = .plain kept ∧ ∀ b ∈ kept, isBlank b = true) ∨
    ∃ blanks, s.mode = .plainColon blanks ∧ kept = blanks ++ [':'] ∧ ∀ b ∈ blanks, isBlank b = true

/-- Blanks alone are never given. -/
theorem eq_nil_of_blanks {kept : List Char} (hkept : ∀ b ∈ kept, isBlank b = true)
    (hmode : s.mode = .plain kept) (hrest : s.rest after = chars kept ++ events)
      (hends : EndsScalar events) :
    kept = [] := by
  by_contra hne
  have hquiet : s.quiet = true := by
    simpa [quiet, hmode, hne] using hkept
  have hcases : s.rest after = [] ∨ Opens (s.rest after) := rest_quiet hquiet
  rcases hcases with hnone | ⟨e, rest, hgiven, he⟩ | ⟨blanks, c, rest, hgiven, -, hc, -⟩
  · rw [hnone] at hrest
    exact hne (by simpa [chars] using (List.append_eq_nil_iff.1 hrest.symm).1)
  · obtain ⟨b, kept, rfl⟩ := List.exists_cons_of_ne_nil hne
    rw [hrest] at hgiven
    obtain ⟨rfl, -⟩ := List.cons.inj hgiven
    cases he
  · -- the blanks come with the character after them
    obtain ⟨more, rfl, -⟩ := chars_of_ends hends (hrest.symm.trans hgiven)
    rw [hkept c (by simp)] at hc
    cases hc

theorem output_cons : scanner.output s (c :: text) =
    (s.step c).2 ++ scanner.output (s.step c).1 text := rfl

theorem state_cons : scanner.state s (c :: text) = scanner.state (s.step c).1 text := rfl

/-- The mode does not matter for a character of a plain scalar. -/
theorem plainChar_mode {mode : Mode} {kept : List Char} :
    { s with mode := mode }.plainChar kept c = s.plainChar kept c := by
  obtain ⟨-, head, column, depth, floor⟩ := s
  cases head <;> rfl

/-- The last characters that were kept are given only with another one. -/
theorem eq_nil_of_keeps {kept : List Char} (hs : s.Keeps kept) (hafter : after.head? ≠ some ':')
    (hrest : s.rest after = chars kept ++ events) (hends : EndsScalar events) :
    s.mode = .plain [] ∧ kept = [] := by
  rcases hs with ⟨hmode, hkept⟩ | ⟨blanks, hmode, rfl, -⟩
  · obtain rfl := eq_nil_of_blanks hkept hmode hrest hends
    exact ⟨hmode, rfl⟩
  · have hstep : ∀ c, c ≠ ':' → ∀ rest, (s.step c).2 ++ rest ≠ chars (blanks ++ [':']) ++
        events := by
      intro c hc rest h
      rw [step, hmode] at h
      simp only at h
      split_ifs at h with hmark
      · have hhead := congrArg List.head? h
        cases blanks <;> cases hhead
      · rw [List.append_assoc] at h
        obtain ⟨hblank, hflow⟩ := Bool.or_eq_false_iff.1 (Bool.eq_false_iff.2 hmark)
        have hplain : s.plainChar [] c = ({ s with mode := .plain [] }, [.char c]) := by
          have hline : c ≠ '\n' := by
            rintro rfl
            cases hblank
          unfold plainChar
          simp only [hline, hblank, hc, Bool.false_eq_true, if_false, ne_eq, not_true, and_false]
          rw [if_neg fun hd => ?_]
          · rfl
          · simp [hd.1, hd.2] at hflow
        rw [hplain] at h
        exact hends c (congrArg List.head? (List.append_cancel_left h).symm)
    cases after with
    | nil =>
      have h := hstep '\n' (by decide) []
      rw [List.append_nil] at h
      exact absurd hrest h
    | cons c after =>
      rw [rest_cons] at hrest
      exact absurd hrest (hstep c (fun hc => hafter (hc ▸ rfl)) _)

/-- **A text in a plain scalar that ends after it** is read as its characters. -/
theorem Keeps.reads {kept : List Char} (hs : s.Keeps kept) (htext : '\n' ∉ text)
    (hafter : after.head? ≠ some ':')
      (hrest : s.rest (text ++ after) = chars (kept ++ text) ++ events)
    (hends : EndsScalar events) : scanner.output s text = chars (kept ++ text) ∧
      scanner.state s text = { s with mode := .plain [] } := by
  induction text generalizing s kept with
  | nil =>
    rw [List.append_nil] at hrest
    obtain ⟨hmode, rfl⟩ := eq_nil_of_keeps hs hafter hrest hends
    refine ⟨rfl, ?_⟩
    rw [← hmode]
    rfl
  | cons c text ih =>
    obtain ⟨hline, htail⟩ := not_or.1 (mt List.mem_cons.2 htext)
    have hnone : ∀ b ∈ ([] : List Char), isBlank b = true := fun b hb => (List.not_mem_nil hb).elim
    have hplain : ∀ (s : Scan) kept, s.mode = .plain kept → (∀ b ∈ kept, isBlank b = true) →
        s.rest (c :: text ++ after) = chars (kept ++ c :: text) ++ events →
          scanner.output s (c :: text) = chars (kept ++ c :: text) ∧
            scanner.state s (c :: text) = { s with mode := .plain [] } := by
      intro s kept hmode hkept hrest
      have hnot : ¬EndsScalar (chars (kept ++ c :: text) ++ events) := by
        intro h
        cases kept with
        | nil => exact h c rfl
        | cons b kept => exact h b rfl
      have hstep : s.step c = s.plainChar kept c := by rw [step, hmode]
      rw [List.cons_append, rest_cons] at hrest
      rw [output_cons, state_cons]
      rw [hstep] at hrest ⊢
      unfold plainChar at hrest ⊢
      split_ifs at hrest ⊢ with hreturn hblank hhash hcolon hflow
      · exact absurd hreturn.symm hline
      · -- the blank is kept
        rw [List.append_cons kept _ text] at hrest ⊢
        refine ih (s := { s with mode := .plain (kept ++ [c]) })
          (.inl ⟨rfl, fun b hb => ?_⟩) htail hrest
        rcases List.mem_append.1 hb with hb | hb
        · exact hkept b hb
        · rwa [List.mem_singleton.1 hb]
      · rw [List.nil_append] at hrest
        exact absurd (hrest ▸ rest_outside rfl) hnot
      · -- the colon is kept
        subst hcolon
        rw [List.append_cons kept _ text] at hrest ⊢
        exact ih (s := { s with mode := .plainColon kept })
          (.inr ⟨kept, rfl, rfl, hkept⟩) htail hrest
      · have hbegun := begin_outside (s := s) (c := c)
        have hends : EndsScalar ((s.begin c).2 ++ (s.begin c).1.rest (text ++ after)) :=
          hbegun.ends rest_outside
        rw [hrest] at hends
        exact absurd hends hnot
      · have hsplit : chars (kept ++ c :: text) = chars (kept ++ [c]) ++ chars text := by
          rw [List.append_cons]
          exact List.map_append
        rw [hsplit, List.append_assoc] at hrest
        obtain ⟨hout, hstate⟩ := ih (s := { s with mode := .plain [] }) (.inl ⟨rfl, hnone⟩) htail
          (List.append_cancel_left hrest)
        exact ⟨by rw [hsplit, hout]; rfl, hstate⟩
    rcases hs with ⟨hmode, hkept⟩ | ⟨blanks, hmode, rfl, hblanks⟩
    · exact hplain s kept hmode hkept hrest
    · -- the colon is a mark, or a character
      rw [List.cons_append, rest_cons] at hrest
      rw [output_cons, state_cons]
      rw [step, hmode] at hrest ⊢
      simp only at hrest ⊢
      split_ifs at hrest ⊢ with hmark
      · have hhead := congrArg List.head? hrest
        cases blanks <;> cases hhead
      · have hsplit : chars (blanks ++ [':'] ++ c :: text) =
            chars (blanks ++ [':']) ++ chars (c :: text) := List.map_append
        rw [hsplit, List.append_assoc, List.append_assoc] at hrest
        have hrest := List.append_cancel_left hrest
        rw [← @plainChar_mode _ _ (.plain [])] at hrest ⊢
        obtain ⟨hout, hstate⟩ := hplain { s with mode := .plain [] } [] rfl hnone (by
          rw [List.cons_append, rest_cons]
          exact hrest)
        rw [hsplit, List.append_assoc]
        exact ⟨congrArg _ hout, hstate⟩

/-- A comment goes on to the end of its line. -/
theorem comment_silent (hs : s.mode = .comment) (htext : '\n' ∉ text) :
    scanner.output s text = [] ∧ scanner.state s text = s := by
  induction text with
  | nil => exact ⟨rfl, rfl⟩
  | cons c text ih =>
    obtain ⟨hc, htail⟩ := not_or.1 (mt List.mem_cons.2 htext)
    have hstep : s.step c = (s, []) := by
      rw [step, hs]
      exact if_neg fun h => hc h.symm
    rw [output_cons, state_cons, hstep]
    exact ih htail

end Scan

end Yaml
