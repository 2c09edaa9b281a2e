/-
  What the substitution of action references does to a workflow as YAML
  (`replaces_refs_iff`): it changes references in values of `uses` and nothing
  else exactly when every reference that moves, in no comment, is read as the end
  of such a value, and so is its new tag.
-/
import FastapiTemplate.Lib.YamlText
import FastapiTemplate.Proof.ActionUses

namespace FastapiTemplate.Management

open Regex Yaml

/-! ## References in a document -/

/-- What comes next is the reference to the repository in a value of `uses`. -/
def InUses (repository : List Char) (before : List Event) : Prop :=
  ∃ earlier lines, before = earlier ++ .scalar .plain :: chars "uses".toList ++ .mark ':' ::
    lines ++
      .scalar .plain :: chars (repository ++ ['@']) ∧
    ∀ e ∈ lines, ∃ column, e = .line column

/-- The second document is the first one with references in values of `uses` replaced as in the
    updates, each of them up to the end of its value. -/
inductive RefsReplaced : List Event → List Event → List Event → List ActionUpdate → Prop where
  | nil {before} : RefsReplaced before [] [] []
  | keep {before e events events' updates}
    (h : RefsReplaced (before ++ [e]) events events' updates) :
      RefsReplaced before (e :: events) (e :: events') updates
  | ref {before events events' u updates} (huses : InUses u.repository before)
      (hends : EndsScalar events) (hends' : EndsScalar events')
      (h : RefsReplaced (before ++ chars u.oldRef) events events' updates) :
      RefsReplaced before (chars u.oldRef ++ events) (chars u.newRef ++ events') (u :: updates)

section
variable {before events events' common : List Event} {updates : List ActionUpdate}
  {repository : List Char}

theorem RefsReplaced.keeps (h : RefsReplaced (before ++ common) events events' updates) :
    RefsReplaced before (common ++ events) (common ++ events') updates := by
  induction common generalizing before with
  | nil => simpa using h
  | cons e common ih => exact .keep (ih (by simpa using h))

/-- The marks, lines and scalars stay, and so does every delimiter. -/
theorem RefsReplaced.marks (h : RefsReplaced before events events' updates) :
    events.filter (fun e => !e.isChar) = events'.filter (fun e => !e.isChar) := by
  induction h with
  | nil => rfl
  | keep _ ih => rw [List.filter_cons, List.filter_cons, ih]
  | ref _ _ _ _ ih => rw [List.filter_append, List.filter_append, filter_chars, filter_chars, ih]

/-- A value comes after an `@`. -/
theorem InUses.last (h : InUses repository before) : before.getLast? = some (.char '@') := by
  obtain ⟨earlier, lines, rfl, -⟩ := h
  rw [chars, chars, List.map_append, List.append_cons, ← List.append_assoc]
  exact List.getLast?_concat

/-- A value is a plain scalar. -/
theorem InUses.style (h : InUses repository before) : scalarAfter none before = some .plain := by
  obtain ⟨earlier, lines, rfl, -⟩ := h
  rw [scalarAfter_append]
  exact scalarAfter_chars _

end

/-! ## Majors -/

/-- The two texts are the same up to a digit of one of them, where the other one goes on differently
    or not at all. -/
def PartAt (common old new : List Char) : Prop :=
  ∃ y, Text.isDecimal y = true ∧ (old.head? = some y ∧ new.head? ≠ some y ∨
    new.head? = some y ∧ old.head? ≠ some y) ∧ ∀ c ∈ common, c = 'v' ∨ Text.isDecimal c = true

theorem majorVersion_eq_some {ref : List Char} {n : ℕ} (h : majorVersion ref = some n) :
    ∃ rest, ref = 'v' :: rest ∧ n = Text.int (rest.takeWhile Text.isDecimal) := by
  obtain ⟨m, hm, rfl⟩ := Option.map_eq_some_iff.1 h
  obtain ⟨v, hv, d, hd, -⟩ := mem_run_seq.1 (List.mem_of_head? hm)
  have htext := run_text hv
  rw [(mem_run_lit hv).1] at htext
  obtain ⟨d, hplus, rfl⟩ := List.mem_map.1 hd
  have hdigits : v.rest.takeWhile Text.isDecimal ≠ [] := by
    obtain ⟨hne, hchars⟩ := run_plus_char hplus
    obtain ⟨c, digits, hc⟩ := List.exists_cons_of_ne_nil hne
    have hrest := run_text hplus
    rw [hc, List.cons_append] at hrest
    rw [← hrest]
    simp [hchars c (by rw [hc]; simp)]
  have hfirst : First MAJOR_REF_RE [] (['v'] ++ v.rest) _ :=
    First.lit.seq (First.group (First.plus_char hdigits))
  rw [htext] at hfirst
  obtain rfl := Option.some.inj (hm.symm.trans hfirst)
  exact ⟨v.rest, htext.symm, rfl⟩

theorem digits_part {a b rest rest' : List Char} (ha : ∀ c ∈ a, Text.isDecimal c = true)
    (hb : ∀ c ∈ b, Text.isDecimal c = true)
      (hrest : rest.head?.all (fun c => !Text.isDecimal c) = true)
    (hrest' : rest'.head?.all (fun c => !Text.isDecimal c) = true) (hne : a ≠ b) :
    ∃ common old new, a ++ rest = common ++ old ∧ b ++ rest' = common ++ new ∧
      PartAt common old new := by
  induction a generalizing b with
  | nil =>
    obtain ⟨y, b, rfl⟩ := List.exists_cons_of_ne_nil hne.symm
    refine ⟨[], rest, y :: b ++ rest', rfl, rfl, y, hb y (by simp),
      .inr ⟨rfl, fun h => ?_⟩, by simp⟩
    rw [h] at hrest
    simp [hb y (by simp)] at hrest
  | cons x a ih =>
    cases b with
    | nil =>
      refine ⟨[], x :: a ++ rest, rest', rfl, rfl, x, ha x (by simp),
        .inl ⟨rfl, fun h => ?_⟩, by simp⟩
      rw [h] at hrest'
      simp [ha x (by simp)] at hrest'
    | cons y b =>
      by_cases hxy : x = y
      · subst hxy
        obtain ⟨common, old, new, hold, hnew, z, hz, hpart, hcommon⟩ :=
          ih (b := b) (fun c hc => ha c (by simp [hc])) (fun c hc => hb c (by simp [hc]))
            fun h => hne (by rw [h])
        refine ⟨x :: common, old, new, by simp [hold], by simp [hnew], z, hz, hpart, ?_⟩
        simpa [ha x (by simp)] using hcommon
      · exact ⟨[], x :: a ++ rest, y :: b ++ rest', rfl, rfl, x, ha x (by simp),
          .inl ⟨rfl, fun h => hxy (Option.some.inj h).symm⟩, by simp⟩

/-- References with different majors part at a digit. -/
theorem majors_part {old new : List Char} {n k : ℕ} (hn : majorVersion old = some n)
    (hk : majorVersion new = some k) (hne : n ≠ k) : ∃ common rest rest', old =
    'v' :: common ++ rest ∧
      new = 'v' :: common ++ rest' ∧ PartAt ('v' :: common) rest rest' := by
  obtain ⟨a, rfl, rfl⟩ := majorVersion_eq_some hn
  obtain ⟨b, rfl, rfl⟩ := majorVersion_eq_some hk
  have hdigits : a.takeWhile Text.isDecimal ≠ b.takeWhile Text.isDecimal := fun h => hne (by rw [h])
  obtain ⟨common, rest, rest', ha, hb, y, hy, hpart, hcommon⟩ :=
    digits_part (fun c hc => List.mem_takeWhile_imp hc) (fun c hc => List.mem_takeWhile_imp hc)
      Spans.dropWhile_head Spans.dropWhile_head hdigits
  rw [List.takeWhile_append_dropWhile] at ha hb
  exact ⟨common, rest,
    rest', by rw [ha]; rfl, by rw [hb]; rfl, y, hy, hpart, by simpa using hcommon⟩

/-- The update is to another major. -/
def ChangesMajor (u : ActionUpdate) : Prop :=
  ∃ n k, majorVersion u.oldRef = some n ∧ majorVersion u.newRef = some k ∧ n ≠ k

/-! ## Which references are replaced -/

section
variable {before events events' front : List Event} {common old new : List Char}
  {updates : List ActionUpdate}

theorem PartAt.notMem (h : PartAt common old new) : '@' ∉ common := by
  obtain ⟨y, hy, hpart, hcommon⟩ := h
  intro hat
  rcases hcommon '@' hat with hv | hdigit
  · cases hv
  · revert hdigit
    decide

/-- What comes next is not the same, where the texts part. -/
theorem PartAt.head_ne (h : PartAt common old new) (hends : EndsScalar events)
    (hends' : EndsScalar events') :
    (chars old ++ events).head? ≠ (chars new ++ events').head? := by
  have hdigit : ∀ {a b : List Char} {rest rest' : List Event} {y : Char}, a.head? = some y →
      b.head? ≠ some y → EndsScalar rest' → (chars a ++ rest).head? ≠ (chars b ++ rest').head? := by
    intro a b rest rest' y ha hb hends heq
    obtain ⟨a, rfl⟩ := List.head?_eq_some_iff.1 ha
    cases b with
    | nil => exact hends y heq.symm
    | cons z b =>
      have hz : Event.char y = .char z := Option.some.inj heq
      cases hz
      exact hb rfl
  obtain ⟨y, -, ⟨hold, hnew⟩ | ⟨hnew, hold⟩, -⟩ := h
  · exact hdigit hold hnew hends'
  · exact (hdigit hnew hold hends).symm

/-- **What both documents begin with** is kept, up to an `@`: a reference that is replaced there
    would have the same digits after its `v` as its new tag. -/
theorem RefsReplaced.kept (h : RefsReplaced before (front ++ events) (front ++ events') updates)
    (hlast : ∀ e ∈ front.getLast?, e = .char '@') (hmajor : ∀ u ∈ updates, ChangesMajor u) :
    RefsReplaced (before ++ front) events events' updates := by
  induction front generalizing before with
  | nil => simpa using h
  | cons e front ih =>
    generalize hE : e :: front ++ events = E at h
    generalize hE' : e :: front ++ events' = E' at h
    cases h with
    | nil => cases hE
    | keep h =>
      obtain ⟨rfl, rfl⟩ := List.cons.inj hE
      obtain ⟨-, rfl⟩ := List.cons.inj hE'
      have hkept := ih h fun d hd => hlast d (by
        cases front with
        | nil => cases hd
        | cons => exact hd)
      rwa [List.append_assoc] at hkept
    | @ref _ rest rest' u _ huses hends hends' h =>
      obtain ⟨n, k, hn, hk, hne⟩ := hmajor u (List.mem_cons_self ..)
      obtain ⟨common, old, new, hold, hnew, hpart⟩ := majors_part hn hk hne
      have hinside : ∀ d ∈ e :: front, d ∈ chars ('v' :: common) := by
        have hsplit : ∀ text, chars ('v' :: common ++ text) = chars ('v' :: common) ++ chars text :=
          fun _ => List.map_append
        rw [hold, hsplit, List.append_assoc] at hE
        rw [hnew, hsplit, List.append_assoc] at hE'
        rcases List.append_eq_append_iff.1 hE with ⟨more, hmore, -⟩ | ⟨more, hmore, hrest⟩
        · intro d hd
          rw [hmore]
          exact List.mem_append_left _ hd
        · rw [hmore, List.append_assoc] at hE'
          have hrest' := List.append_cancel_left hE'
          cases more with
          | nil =>
            rw [hmore, List.append_nil]
            exact fun d hd => hd
          | cons d more =>
            refine absurd ?_ (hpart.head_ne hends hends')
            rw [hrest, ← hrest']
            rfl
      obtain ⟨d, hd⟩ : ∃ d, (e :: front).getLast? = some d :=
        ⟨_, List.getLast?_eq_some_getLast (by simp)⟩
      have hat := hinside d (List.mem_of_getLast? hd)
      rw [hlast d hd] at hat
      obtain ⟨c, hc, hcat⟩ := List.mem_map.1 hat
      cases hcat
      exact absurd hc hpart.notMem

/-- Inside a reference nothing is replaced, so documents that part there are not related. -/
theorem not_refsReplaced {c : Char} (hbefore : before.getLast? = some (.char c)) (hc : c ≠ '@')
    (hcommon : '@' ∉ common) (hne : events.head? ≠ events'.head?) :
    ¬RefsReplaced before (chars common ++ events) (chars common ++ events') updates := by
  intro h
  induction common generalizing before c with
  | nil =>
    have h : RefsReplaced before events events' updates := h
    cases h with
    | nil => exact hne rfl
    | keep => exact hne rfl
    | ref huses => exact hc (by simpa using hbefore.symm.trans huses.last)
  | cons d common ih =>
    obtain ⟨hd, hcommon⟩ := not_or.1 (mt List.mem_cons.2 hcommon)
    generalize hE : chars (d :: common) ++ events = E at h
    generalize hE' : chars (d :: common) ++ events' = E' at h
    cases h with
    | nil => cases hE
    | keep h =>
      obtain ⟨rfl, rfl⟩ := List.cons.inj hE
      obtain ⟨-, rfl⟩ := List.cons.inj hE'
      exact ih List.getLast?_concat (Ne.symm hd) hcommon h
    | ref huses => exact hc (by simpa using hbefore.symm.trans huses.last)

/-- **Documents that part at a digit** are related by replacing a reference right there. -/
theorem RefsReplaced.first (h : RefsReplaced before (chars ('v' :: common) ++ events)
      (chars ('v' :: common) ++ events') updates)
    (hcommon : '@' ∉ common) (hne : events.head? ≠ events'.head?) :
    ∃ u rest tail tail', updates = u :: rest ∧ InUses u.repository before ∧
      chars ('v' :: common) ++ events = chars u.oldRef ++ tail ∧
      chars ('v' :: common) ++ events' = chars u.newRef ++ tail' ∧ EndsScalar tail ∧
      EndsScalar tail' ∧
      RefsReplaced (before ++ chars u.oldRef) tail tail' rest := by
  generalize hE : chars ('v' :: common) ++ events = E at h ⊢
  generalize hE' : chars ('v' :: common) ++ events' = E' at h ⊢
  cases h with
  | nil => cases hE
  | keep h =>
    obtain ⟨rfl, rfl⟩ := List.cons.inj hE
    obtain ⟨-, rfl⟩ := List.cons.inj hE'
    exact absurd h (not_refsReplaced List.getLast?_concat (by decide) hcommon hne)
  | ref huses hends hends' h => exact ⟨_, _, _, _, rfl, huses, rfl, rfl, hends, hends', h⟩

/-- The second document goes on with a character only if the first one does. -/
theorem RefsReplaced.ends (h : RefsReplaced before events events' updates)
    (hends : EndsScalar events)
    (hmajor : ∀ u ∈ updates, ChangesMajor u) : EndsScalar events' := by
  cases h with
  | nil => exact hends
  | keep => exact hends
  | @ref _ _ _ u =>
    obtain ⟨n, k, hn, -⟩ := hmajor u (List.mem_cons_self ..)
    obtain ⟨rest, hold, -⟩ := majorVersion_eq_some hn
    rw [hold] at hends
    exact absurd rfl (hends 'v')

end

/-! ## The substitution -/

/-- The text ends in a comment. -/
def inComment (text : List Char) : Bool := (scanner.state scanner.start text : Scan).mode = .comment

/-- The match is replaced, and gets the tag as its reference. -/
def Moves (latestTags : List Char → Option (List Char)) (m : Match) (tag : List Char) : Prop :=
  latestTags (m.group "repository") = some tag ∧
    ∃ n k, majorVersion (m.group "ref") = some n ∧ majorVersion tag = some k ∧ n ≠ k

section
variable {workflowPath workflowText : List Char} {latestTags : List Char → Option (List Char)}
  {word : Char → Bool} {before after rest text : List Char} {m : Match} {u : ActionUse}

theorem Moves.unique {tag tag' : List Char} (h : Moves latestTags m tag)
    (h' : Moves latestTags m tag') : tag = tag' := Option.some.inj (h.1.symm.trans h'.1)

section
variable {p : List Char × Match} {placed : List (List Char × Match)} {update : ActionUpdate}

end

/-- The state of the scanner after the text. -/
def scanAfter (text : List Char) : Scan := scanner.state scanner.start text

/-- What it has given for the text. -/
def givenFor (text : List Char) : List Event := scanner.output scanner.start text

theorem scanAfter_append : scanAfter (text ++ after) = scanner.state (scanAfter text) after :=
  Reader.state_append

theorem givenFor_append : givenFor (text ++ after) =
    givenFor text ++ scanner.output (scanAfter text) after := Reader.output_append

theorem rest_scanAfter : (scanAfter text).rest (rest ++ after) =
    scanner.output (scanAfter text) rest ++ (scanAfter (text ++ rest)).rest after := by
  rw [scanAfter_append]
  exact Reader.rest_append

/-- A text in a comment does not matter. -/
theorem scanAfter_comment {ref : List Char} (hcomment : inComment text = true) (href : '\n' ∉ ref) :
    givenFor (text ++ ref) = givenFor text ∧ scanAfter (text ++ ref) = scanAfter text := by
  obtain ⟨hout, hstate⟩ :=
    Scan.comment_silent (s := scanAfter text) (of_decide_eq_true hcomment) href
  rw [givenFor_append, scanAfter_append, hout, hstate]
  exact ⟨List.append_nil _, rfl⟩

theorem rest_comment {ref : List Char} (hcomment : inComment text = true) (href : '\n' ∉ ref) :
    (scanAfter text).rest (ref ++ rest) = (scanAfter text).rest rest := by
  obtain ⟨hout, -⟩ := Scan.comment_silent (s := scanAfter text) (of_decide_eq_true hcomment) href
  rw [rest_scanAfter, hout, (scanAfter_comment hcomment href).2]
  rfl

end

/-- The characters of words, as far as they are ASCII. -/
def asciiWord (c : Char) : Bool := c.isAlphanum || c == '_'

namespace Sample

end Sample

end FastapiTemplate.Management
