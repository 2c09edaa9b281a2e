/-
  Workflows with other references: what the scanners for Docker Compose versions
  find in the text that the substitution of action references leaves.

  * `Retagged.next`: the state of the scanner is the same after every line.
  * `setupComposeVersionRefs_substituted`: no version is read where none was read
    before.
-/
import FastapiTemplate.Proof.ActionUses
import FastapiTemplate.Proof.VersionScanners

namespace FastapiTemplate.Management

open Regex

/-! ## Texts with other references -/

/-- A reference that does not end with `uses:`, so that no use begins in it and goes on after it. -/
structure PlainRef (ref : List Char) : Prop extends IsVersion ref where
  noUses : ¬USES_KEY <:+ ref

/-- The second text is the first one with other references after some `@`. -/
inductive Retagged : List Char → List Char → Prop where
  | nil : Retagged [] []
  | keep {c s s'} (h : Retagged s s') : Retagged (c :: s) (c :: s')
  | ref {x y s s'} (hx : PlainRef x) (hy : PlainRef y)
    (hs : s.head?.all (fun c => !isRefChar c) = true)
      (h : Retagged s s') : Retagged ('@' :: (x ++ s)) ('@' :: (y ++ s'))

namespace Retagged
variable {a b s s' t : List Char}

theorem head (h : Retagged s s') : s'.head? = s.head? := by
  cases h <;> rfl

theorem symm (h : Retagged s s') : Retagged s' s := by
  induction h with
  | nil => exact .nil
  | keep _ ih => exact .keep ih
  | ref hx hy hs h ih => exact .ref hy hx (by rwa [h.head]) ih

theorem append_left (h : Retagged s s') : Retagged (t ++ s) (t ++ s') := by
  induction t with
  | nil => exact h
  | cons c t ih => exact .keep ih

theorem cons_cases {c : Char} (h : Retagged (c :: s) s') : (∃ r, s' = c :: r ∧ Retagged s r) ∨
    (c = '@' ∧ ∃ x y r r', s = x ++ r ∧ s' = '@' :: (y ++ r') ∧ PlainRef x ∧ PlainRef y ∧
      r.head?.all (fun c => !isRefChar c) = true ∧ Retagged r r') := by
  generalize hw : c :: s = w at h
  cases h with
  | nil => cases hw
  | keep h =>
    obtain ⟨rfl, rfl⟩ := List.cons.inj hw
    exact .inl ⟨_, rfl, h⟩
  | ref hx hy hs h =>
    obtain ⟨rfl, rfl⟩ := List.cons.inj hw
    exact .inr ⟨rfl, _, _, _, _, rfl, rfl, hx, hy, hs, h⟩

/-- Before an `@` nothing changes. -/
theorem keeps (ht : '@' ∉ t) (h : Retagged (t ++ s) s') : ∃ r, s' = t ++ r ∧ Retagged s r := by
  induction t generalizing s' with
  | nil => exact ⟨s', rfl, h⟩
  | cons c t ih =>
    rw [List.mem_cons, not_or] at ht
    rcases cons_cases h with ⟨r, rfl, hrest⟩ | ⟨rfl, -⟩
    · obtain ⟨r, rfl, hr⟩ := ih ht.2 hrest
      exact ⟨r, rfl, hr⟩
    · exact absurd rfl ht.1

theorem eq_of_notMem (ht : '@' ∉ t) (h : Retagged t s') : s' = t := by
  rw [← List.append_nil t] at h
  obtain ⟨r, rfl, hr⟩ := h.keeps ht
  cases hr
  exact List.append_nil t

theorem last_all_of_append {p : Char → Bool} (h : (a ++ b).getLast?.all p = true) :
    b.getLast?.all p = true := by
  rcases List.eq_nil_or_concat' b with rfl | ⟨b, c, rfl⟩
  · rfl
  · rw [← List.append_assoc, List.getLast?_concat] at h
    rwa [List.getLast?_concat]

/-- Where no reference goes on, the texts are cut in two. -/
theorem split
    (hcut : a.getLast?.all (fun c => !isRefChar c) = true ∨
    b.head?.all (fun c => !isRefChar c) = true)
    (h : Retagged (a ++ b) s') : ∃ a' b', s' = a' ++ b' ∧ Retagged a a' ∧ Retagged b b' := by
  generalize hw : a ++ b = w at h
  induction h generalizing a with
  | nil =>
    obtain ⟨rfl, rfl⟩ := List.append_eq_nil_iff.1 hw
    exact ⟨[], [], rfl, .nil, .nil⟩
  | @keep c s s' h ih =>
    cases a with
    | nil =>
      obtain rfl : b = c :: s := hw
      exact ⟨[], c :: s', rfl, .nil, .keep h⟩
    | cons d a =>
      obtain ⟨rfl, hrest⟩ := List.cons.inj hw
      obtain ⟨a', b', rfl, ha, hb⟩ :=
        ih (hcut.imp_left fun h => last_all_of_append (a := [d]) h) hrest
      exact ⟨d :: a', b', rfl, .keep ha, hb⟩
  | @ref x y s s' hx hy hs h ih =>
    cases a with
    | nil =>
      obtain rfl : b = '@' :: (x ++ s) := hw
      exact ⟨[], _, rfl, .nil, .ref hx hy hs h⟩
    | cons d a =>
      obtain ⟨rfl, hrest⟩ := List.cons.inj hw
      rcases List.append_eq_append_iff.1 hrest with ⟨z, rfl, rfl⟩ | ⟨z, rfl, rfl⟩
      · cases z with
        | nil =>
          rw [List.append_nil] at hx
          have hsame : Retagged ('@' :: (a ++ [])) ('@' :: (y ++ [])) := .ref hx hy rfl .nil
          rw [List.append_nil, List.append_nil] at hsame
          exact ⟨'@' :: y, s', rfl, hsame, h⟩
        | cons c z =>
          -- The cut is inside the reference.
          have hc : isRefChar c = true := hx.chars c (by simp)
          have hlast : ('@' :: a).getLast?.all (fun c => !isRefChar c) = false := by
            rcases List.eq_nil_or_concat' a with rfl | ⟨a, d, rfl⟩
            · decide
            · rw [← List.cons_append, List.getLast?_concat, Option.all_some, hx.chars d (by simp)]
              rfl
          rw [hlast] at hcut
          simp [hc] at hcut
      · obtain ⟨z', b', rfl, hz, hb⟩ :=
          ih (hcut.imp_left fun h => last_all_of_append (a := '@' :: x) h) rfl
        refine ⟨'@' :: (y ++ z'), b', by simp, .ref hx hy ?_ hz, hb⟩
        cases z with
        | nil => rfl
        | cons c z => exact hs

theorem mem {c : Char} (h : Retagged s s') (hc : c ∈ s') : c ∈ s ∨ isRefChar c = true := by
  induction h with
  | nil => cases hc
  | keep h ih =>
    rcases List.mem_cons.1 hc with rfl | hc
    · exact .inl List.mem_cons_self
    · exact (ih hc).imp_left (List.mem_cons_of_mem _)
  | ref hx hy hs h ih =>
    rcases List.mem_cons.1 hc with rfl | hc
    · exact .inl List.mem_cons_self
    · rcases List.mem_append.1 hc with hc | hc
      · exact .inr (hy.chars c hc)
      · exact (ih hc).imp_left fun hc => List.mem_cons_of_mem _ (List.mem_append_right _ hc)

/-- A key at the end of a text is not part of a reference. -/
theorem ends_uses {p : List Char} (h : Retagged (p ++ USES_KEY) s') :
    ∃ p', s' = p' ++ USES_KEY := by
  generalize hw : p ++ USES_KEY = w at h
  have hkey : USES_KEY = 'u' :: "ses:".toList := rfl
  induction h generalizing p with
  | nil => simp [hkey] at hw
  | @keep c s s' h ih =>
    cases p with
    | nil =>
      rw [List.nil_append, hkey] at hw
      obtain ⟨rfl, rfl⟩ := List.cons.inj hw
      rw [h.eq_of_notMem (by decide)]
      exact ⟨[], rfl⟩
    | cons d p =>
      obtain ⟨p', rfl⟩ := ih (List.cons.inj hw).2
      exact ⟨c :: p', rfl⟩
  | @ref x y s s' hx hy hs h ih =>
    cases p with
    | nil =>
      rw [List.nil_append, hkey] at hw
      exact absurd (List.cons.inj hw).1 (by decide)
    | cons d p =>
      rcases List.append_eq_append_iff.1 (List.cons.inj hw).2 with ⟨z, rfl, hz⟩ | ⟨z, rfl, rfl⟩
      · -- The reference goes up to the end, with the key, or ends inside the key.
        cases s with
        | nil =>
          rw [List.append_nil] at hz
          exact absurd ⟨p, by rw [hz]⟩ hx.noUses
        | cons c s =>
          have hc : c ∈ USES_KEY := by rw [hz]; simp
          have hall : ∀ c ∈ USES_KEY, isRefChar c = true := by decide
          simp [hall c hc] at hs
      · obtain ⟨p', rfl⟩ := ih rfl
        exact ⟨'@' :: (y ++ p'), by simp⟩

/-! ## Lines -/

/-- Between spaces, the texts are the same as far as the first reference. -/
theorem lstrip (h : Retagged s s') : s'.length - (Text.lstrip s').length =
    s.length - (Text.lstrip s).length ∧
    Retagged (Text.lstrip s) (Text.lstrip s') := by
  have hspaces : '@' ∉ s.takeWhile Text.isSpace :=
    Spans.notMem_of_forall (fun c hc => List.mem_takeWhile_imp hc) (by decide)
  have hparts : s.takeWhile Text.isSpace ++ Text.lstrip s = s := List.takeWhile_append_dropWhile
  rw [← hparts] at h
  obtain ⟨r, rfl, hr⟩ := h.keeps hspaces
  have hhead : r.head?.all (fun c => !Text.isSpace c) = true := by
    rw [hr.head]
    exact Spans.dropWhile_head
  have hr' : Text.lstrip (s.takeWhile Text.isSpace ++ r) = r :=
    Spans.dropWhile_append_stop (fun c hc => List.mem_takeWhile_imp hc) hhead
  refine ⟨?_, by rwa [hr']⟩
  have hlength := congrArg List.length hparts
  rw [hr']
  simp only [List.length_append] at hlength ⊢
  omega

theorem uses_infix (h : Retagged s s') (huses : SETUP_COMPOSE_USES <:+: s) :
    SETUP_COMPOSE_USES <:+: s' := by
  obtain ⟨p, q, rfl⟩ := huses
  have hparts : p ++ SETUP_COMPOSE_USES ++ q =
      (p ++ USES_KEY) ++ (' ' :: SETUP_COMPOSE_ACTION_REPOSITORY ++ '@' :: q) := by
    have hneedle : SETUP_COMPOSE_USES =
        USES_KEY ++ (' ' :: SETUP_COMPOSE_ACTION_REPOSITORY ++ ['@']) := rfl
    rw [hneedle]
    simp
  rw [hparts] at h
  obtain ⟨a, b, rfl, ha, hb⟩ := h.split (.inr rfl)
  obtain ⟨p', rfl⟩ := ha.ends_uses
  obtain ⟨r, rfl, hr⟩ := hb.keeps (by decide)
  obtain ⟨q', rfl⟩ : ∃ q', r = '@' :: q' := List.head?_eq_some_iff.1 hr.head
  refine ⟨p', q', ?_⟩
  have hneedle : SETUP_COMPOSE_USES =
      USES_KEY ++ (' ' :: SETUP_COMPOSE_ACTION_REPOSITORY ++ ['@']) := rfl
  rw [hneedle]
  simp

theorem item_prefix (h : Retagged s s') (hitem : "- ".toList <+: s) : "- ".toList <+: s' := by
  obtain ⟨t, rfl⟩ := hitem
  obtain ⟨r, rfl, -⟩ := h.keeps (by decide)
  exact List.prefix_append _ _

/-- The scanner is in the same state after both lines. -/
theorem next {scan : StepScan} (h : Retagged s s') : scan.next s' = scan.next s := by
  obtain ⟨hindent, hstripped⟩ := h.lstrip
  refine next_congr ?_ (fun indent => ?_) fun _ => hindent
  · rw [Bool.eq_iff_iff, usesSetupCompose_iff, usesSetupCompose_iff]
    exact ⟨hstripped.symm.uses_infix, hstripped.uses_infix⟩
  · have hitem : "- ".toList.isPrefixOf (Text.lstrip s') =
        "- ".toList.isPrefixOf (Text.lstrip s) := by
      rw [Bool.eq_iff_iff, List.isPrefixOf_iff_prefix, List.isPrefixOf_iff_prefix]
      exact ⟨hstripped.symm.item_prefix, hstripped.item_prefix⟩
    rw [endsStep, endsStep, lineIndent, lineIndent, hindent, hitem]

theorem versionRef_isSome (hs : '\n' ∉ s.dropLast) (hs' : '\n' ∉ s'.dropLast) (h : Retagged s s')
    (hsome : (versionRef s).isSome = true) : (versionRef s').isSome = true := by
  obtain ⟨ref, href⟩ := Option.isSome_iff_exists.1 hsome
  obtain ⟨l, rfl, -⟩ := (versionRef_eq_some_iff hs).1 href
  have hat : '@' ∉ l.indent ++ (VERSION_KEY ++ l.gap) := by
    have hindent : '@' ∉ l.indent := Spans.notMem_of_forall l.indent_spaces (by decide)
    have hgap : '@' ∉ l.gap := Spans.notMem_of_forall l.gap_spaces (by decide)
    have hkey : '@' ∉ VERSION_KEY := by decide
    simp [hindent, hgap, hkey]
  have hparts : l.text = (l.indent ++ (VERSION_KEY ++ l.gap)) ++ (l.ref ++ l.rest) := by
    simp [VersionLine.text]
  rw [hparts] at h
  obtain ⟨r, rfl, hr⟩ := h.keeps hat
  obtain ⟨ref', rest', rfl, href', hrest'⟩ := hr.split (.inr l.rest_comment.head)
  have hversion : IsVersion ref' := by
    refine ⟨?_, fun c hc => (href'.mem hc).elim (l.ref_version.chars c) id⟩
    rintro rfl
    exact l.ref_version.nonempty (List.head?_eq_none_iff.1 href'.head.symm)
  have hcomment : IsComment rest' := by
    rcases l.rest_comment.cases with hspaces | ⟨spaces, comment, hspaces, hrest⟩
    · rw [hrest'.eq_of_notMem (Spans.notMem_of_forall hspaces (by decide))]
      exact isComment_of_spaces hspaces
    · rw [hrest, List.append_cons] at hrest'
      have hat : '@' ∉ spaces ++ ['#'] := by
        have hspaces : '@' ∉ spaces := Spans.notMem_of_forall hspaces (by decide)
        simp [hspaces]
      obtain ⟨r, rfl, -⟩ := hrest'.keeps hat
      rw [List.append_assoc]
      exact isComment_of_hash hspaces
  have hsome : versionRef ((l.indent ++ (VERSION_KEY ++ l.gap)) ++ (ref' ++ rest')) =
      some ref' := by
    refine (versionRef_eq_some_iff hs').2 ⟨{ l with
      ref := ref'
      rest := rest'
      ref_version := hversion
      rest_comment := hcomment }, ?_, rfl⟩
    simp [VersionLine.text]
  rw [hsome]
  rfl

theorem replaces (hline : ∀ c ∈ Text.dropLineBreak s, Text.isLineBreak c = false)
    (h : Retagged s s') :
    Text.Replaces s s' := by
  have hhead := h.head
  have hparts : Text.dropLineBreak s ++ Text.lineBreak s = s := Text.dropLineBreak_append_lineBreak
  have hbreaks : ∀ c ∈ Text.lineBreak s, Text.isLineBreak c = true :=
    fun c hc => List.mem_rtakeWhile_imp hc
  have hcut : (Text.lineBreak s).head?.all (fun c => !isRefChar c) = true := by
    cases hbreak : Text.lineBreak s with
    | nil => rfl
    | cons c ending =>
      have hc := isSpace_of_isLineBreak (hbreaks c (by simp [hbreak]))
      simp [isRefChar_of_isSpace hc]
  rw [← hparts] at h
  obtain ⟨body, ending, rfl, hbody, hending⟩ := h.split (.inr hcut)
  obtain rfl := hending.eq_of_notMem (Spans.notMem_of_forall hbreaks (by decide))
  have hnone : ∀ c ∈ body, Text.isLineBreak c = false := fun c hc =>
    (hbody.mem hc).elim (hline c) isLineBreak_of_isRefChar
  refine ⟨hhead, Text.lineBreak_append hnone hbreaks, fun _ => ?_⟩
  rwa [Text.dropLineBreak_append hnone hbreaks]

/-- The lines of the texts, one by one. -/
theorem lines {lines : List (List Char)} (hlines : Text.Lines lines)
    (h : Retagged lines.flatten s') :
    ∃ lines', s' = lines'.flatten ∧ List.Forall₂ Retagged lines lines' := by
  induction hlines generalizing s' with
  | nil =>
    cases h
    exact ⟨[], rfl, .nil⟩
  | last hne hline =>
    rw [List.flatten_singleton] at h
    exact ⟨[s'], (List.flatten_singleton ..).symm, .cons h .nil⟩
  | @cons line lines hbody hend hnewline _ ih =>
    have hcut : line.getLast?.all (fun c => !isRefChar c) = true := by
      obtain ⟨c, hlast, hbreak⟩ := hend.getLast?
      simp [hlast, isRefChar_of_isSpace (isSpace_of_isLineBreak hbreak)]
    rw [List.flatten_cons] at h
    obtain ⟨line', rest', rfl, hline, hrest⟩ := h.split (.inl hcut)
    obtain ⟨lines', rfl, hlines⟩ := ih hrest
    exact ⟨line' :: lines', (List.flatten_cons ..).symm, .cons hline hlines⟩

theorem versionRefs_eq_nil {lines lines' : List (List Char)} {scan : StepScan}
    (h : List.Forall₂ Retagged lines lines')
    (hnewline : ∀ line ∈ lines, '\n' ∉ line.dropLast) (hnewline' : ∀ line ∈ lines',
    '\n' ∉ line.dropLast)
    (hnil : versionRefs scan (lines.map Text.dropLineBreak) = []) :
    versionRefs scan (lines'.map Text.dropLineBreak) = [] := by
  induction h generalizing scan with
  | nil => rfl
  | @cons line line' lines lines' hline _ ih =>
    rw [versionRefs_cons (hnewline line (by simp)), List.append_eq_nil_iff] at hnil
    rw [versionRefs_cons (hnewline' line' (by simp)), hline.next, List.append_eq_nil_iff]
    refine ⟨?_,
      ih (fun l hl => hnewline l (by simp [hl])) (fun l hl => hnewline' l (by simp [hl])) hnil.2⟩
    have hnone := hnil.1
    split
    · rw [if_pos ‹_›] at hnone
      have hsome : (versionRef line').isSome = true → (versionRef line).isSome = true :=
        hline.symm.versionRef_isSome (hnewline' line' (by simp)) (hnewline line (by simp))
      cases hversion : versionRef line' with
      | none => rfl
      | some ref =>
        rw [Option.toList_eq_nil_iff.1 hnone, hversion] at hsome
        cases hsome rfl
    · rfl

theorem replaces_lines {lines lines' : List (List Char)}
    (hbodies : ∀ line ∈ lines, ∀ c ∈ Text.dropLineBreak line, Text.isLineBreak c = false)
    (h : List.Forall₂ Retagged lines lines') : List.Forall₂ Text.Replaces lines lines' := by
  induction h with
  | nil => exact .nil
  | cons hline _ ih =>
    exact .cons (hline.replaces (hbodies _ (by simp)))
      (ih fun line hmem => hbodies line (by simp [hmem]))

/-- No version is read in a text with other references if none was read before. -/
theorem setupComposeVersionRefs_eq_nil (h : Retagged s s') (hnil : setupComposeVersionRefs s = []) :
    setupComposeVersionRefs s' = [] := by
  have hlines := Text.lines_splitlinesKeepends s
  rw [← Text.splitlinesKeepends_flatten s] at h
  obtain ⟨lines', rfl, hretagged⟩ := h.lines hlines
  have hreplaces := replaces_lines hlines.bodies hretagged
  have hread := (hlines.replace hreplaces).splitlinesKeepends_flatten
  rw [setupComposeVersionRefs, Text.splitlines, hread]
  refine versionRefs_eq_nil hretagged (fun line hline => Text.newline_notMem_dropLast hline)
    (fun line hline => ?_) hnil
  rw [← hread] at hline
  exact Text.newline_notMem_dropLast hline

end Retagged

/-! ## The substitution -/

section
variable {workflowPath workflowText before after : List Char}
    {latestTags : List Char → Option (List Char)}
  {word : Char → Bool}

/-- The substitution writes other references. -/
theorem retagged_substituted
    (hrefs : ∀ r ∈ actionRefs word before after, settledRef latestTags r.1 r.2 = r.2 ∨
      (PlainRef r.2 ∧ PlainRef (settledRef latestTags r.1 r.2))) :
    Retagged after (substituted workflowPath latestTags word before after) := by
  induction before, after using uses_induction word with
  | nil => exact .nil
  | keep before c after hrun ih =>
    rw [actionRefs_keep hrun] at hrefs
    rw [substituted_keep hrun]
    exact .keep (ih hrefs)
  | use before u rest hword hrest ih =>
    rw [actionRefs_use hword hrest, List.forall_mem_cons] at hrefs
    have hafter := ih hrefs.2
    rw [substituted_use hword hrest]
    rcases hrefs.1 with hsame | ⟨hold, hnew⟩
    · rw [hsame, ← List.append_assoc]
      exact hafter.append_left
    · have hchanged :
          Retagged ('@' :: (u.ref ++ rest)) ('@' :: (settledRef latestTags u.repository u.ref ++
          substituted workflowPath latestTags word (u.text.reverse ++ before) rest)) :=
        .ref hold hnew hrest hafter
      have hlead : ∀ s, u.lead ++ s = (USES_KEY ++ (u.gap ++ (u.owner ++ '/' :: u.name))) ++
          '@' :: s := by
        simp [ActionUse.lead]
      have htext : u.text ++ rest = u.lead ++ (u.ref ++ rest) := List.append_assoc ..
      rw [htext, hlead, hlead]
      exact hchanged.append_left

/-- The substitution brings no version to a scanner that found none. -/
theorem setupComposeVersionRefs_substituted
    (htags : ∀ repository tag, latestTags repository = some tag → ∀ c ∈ tag, isRefChar c = true)
    (hplain : ∀ u ∈ actionUpdates workflowPath latestTags word workflowText,
      ¬USES_KEY <:+ u.oldRef ∧ ¬USES_KEY <:+ u.newRef)
    (hnil : setupComposeVersionRefs workflowText = []) :
    setupComposeVersionRefs (substituteActions workflowPath latestTags word workflowText) = [] := by
  rw [substituteActions_eq]
  refine Retagged.setupComposeVersionRefs_eq_nil (retagged_substituted fun r hr => ?_) hnil
  by_cases hsame : settledRef latestTags r.1 r.2 = r.2
  · exact .inl hsame
  · rw [actionUpdates_eq] at hplain
    obtain ⟨hold, hnew⟩ := hplain _ (List.mem_filterMap.2 ⟨r, hr, if_neg hsame⟩)
    have hversion := isVersion_of_mem_actionRefs hr
    exact .inr ⟨⟨hversion, hold⟩, ⟨isVersion_settledRef (htags r.1) hversion, hnew⟩⟩

end

end FastapiTemplate.Management

