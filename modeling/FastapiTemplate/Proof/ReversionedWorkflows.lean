/-
  Workflows with other versions: the uses of actions in the text that the
  updater of the Docker Compose version leaves.

  * `Reversioned`: the text with other versions, each after a key at the
    beginning of a line.
  * `actionRefs_reversioned`: no other actions are used.
-/
import FastapiTemplate.Proof.RetaggedWorkflows

namespace FastapiTemplate.Management

open Regex

/-! ## Texts with other versions -/

/-- The second text is the first one with other versions after some keys.  Before such a key is a
    space, or nothing, which the flag tells of the place where the texts begin. -/
inductive Reversioned : Bool → List Char → List Char → Prop where
  | nil {atKey} : Reversioned atKey [] []
  | keep {atKey c s s'} (h : Reversioned (Text.isSpace c) s s') :
    Reversioned atKey (c :: s) (c :: s')
  | version {gap x y s s'} (hgap : ∀ c ∈ gap, Text.isSpace c = true) (hx : PlainRef x)
      (hy : ∀ c ∈ y, isRefChar c = true) (hnew : ¬USES_KEY <:+: y)
      (hs : s.head?.all (fun c => !isRefChar c) = true) (h : Reversioned false s s') :
      Reversioned true (VERSION_KEY ++ (gap ++ (x ++ s))) (VERSION_KEY ++ (gap ++ (y ++ s')))

namespace Reversioned
variable {atKey : Bool} {s s' t rest rest' : List Char} {c : Char}

theorem head (h : Reversioned atKey s s') : s'.head? = s.head? := by
  cases h <;> rfl

theorem append_left (h : Reversioned (t.getLast?.elim atKey Text.isSpace) s s') :
    Reversioned atKey (t ++ s) (t ++ s') := by
  induction t generalizing atKey with
  | nil => exact h
  | cons c t ih =>
    refine .keep (ih ?_)
    cases t with
    | nil => exact h
    | cons d t => rwa [List.getLast?_cons_cons] at h

/-- A line is kept. -/
theorem append_line (hend : rest = [] ∨ ∃ c, t.getLast? = some c ∧ Text.isSpace c = true)
    (h : Reversioned true rest rest') : Reversioned atKey (t ++ rest) (t ++ rest') := by
  rcases hend with rfl | ⟨c, hlast, hc⟩
  · cases h
    exact append_left .nil
  · refine append_left ?_
    rwa [hlast, Option.elim_some, hc]

/-- One character is kept, or a version begins with it. -/
theorem cons_cases (h : Reversioned atKey (c :: s) s') :
    (∃ r, s' = c :: r ∧ Reversioned (Text.isSpace c) s r) ∨
    (atKey = true ∧ ∃ r, c :: s = VERSION_KEY ++ r) := by
  generalize hw : c :: s = w at h
  cases h with
  | nil => cases hw
  | keep h =>
    obtain ⟨rfl, rfl⟩ := List.cons.inj hw
    exact .inl ⟨_, rfl, h⟩
  | version => exact .inr ⟨rfl, _, rfl⟩

/-- Until the next space nothing changes. -/
theorem keeps_words (ht : ∀ c ∈ t, Text.isSpace c = false) (h : Reversioned false (t ++ s) s') :
    ∃ r, s' = t ++ r ∧ Reversioned false s r := by
  induction t generalizing s' with
  | nil => exact ⟨s', rfl, h⟩
  | cons c t ih =>
    rcases cons_cases h with ⟨r, rfl, hrest⟩ | ⟨hkey, -⟩
    · rw [ht c (by simp)] at hrest
      obtain ⟨r, rfl, hr⟩ := ih (fun d hd => ht d (by simp [hd])) hrest
      exact ⟨r, rfl, hr⟩
    · cases hkey

theorem keeps_spaces (ht : ∀ c ∈ t, Text.isSpace c = true) (h : Reversioned atKey (t ++ s) s') :
    ∃ atKey' r, s' = t ++ r ∧ Reversioned atKey' s r := by
  induction t generalizing atKey s' with
  | nil => exact ⟨atKey, s', rfl, h⟩
  | cons c t ih =>
    have hkey : VERSION_KEY = 'v' :: "ersion:".toList := rfl
    rcases cons_cases h with ⟨r, rfl, hrest⟩ | ⟨-, r, hr⟩
    · obtain ⟨atKey', r, rfl, hr⟩ := ih (fun d hd => ht d (by simp [hd])) hrest
      exact ⟨atKey', r, rfl, hr⟩
    · rw [hkey] at hr
      obtain ⟨rfl, -⟩ := List.cons.inj hr
      exact absurd (ht 'v' (by simp)) (by decide)

/-- A use is kept. -/
theorem keeps_use {u : ActionUse} (h : Reversioned atKey (u.text ++ rest) s') :
    ∃ rest', s' = u.text ++ rest' ∧ Reversioned false rest rest' := by
  have hkey : USES_KEY = 'u' :: "ses:".toList := rfl
  have hversion : VERSION_KEY = "version".toList ++ [':'] := rfl
  obtain ⟨c, owner, howner⟩ := List.exists_cons_of_ne_nil u.owner_ne
  have hchars : ∀ d ∈ c :: owner, isNameChar d = true := howner ▸ u.owner_chars
  have htext : ∀ s, u.text ++ s =
      'u' :: ("ses:".toList ++
      (u.gap ++ (c :: (owner ++ '/' :: (u.name ++ '@' :: u.ref) ++ s)))) := by
    intro s
    simp [ActionUse.text, ActionUse.lead, hkey, howner]
  rw [htext] at h
  rcases cons_cases h with ⟨r, rfl, hses⟩ | ⟨-, r, hr⟩
  · obtain ⟨r, rfl, hgap⟩ := keeps_words (by decide) hses
    obtain ⟨atKey', r, rfl, hname⟩ := keeps_spaces u.gap_spaces hgap
    rcases cons_cases hname with ⟨r, rfl, hafter⟩ | ⟨-, r, hr⟩
    · rw [isSpace_of_isNameChar (hchars c (by simp))] at hafter
      have hwords : ∀ d ∈ owner ++ '/' :: (u.name ++ '@' :: u.ref), Text.isSpace d = false := by
        intro d hd
        simp only [List.mem_append, List.mem_cons] at hd
        rcases hd with hd | rfl | hd | rfl | hd
        · exact isSpace_of_isNameChar (hchars d (by simp [hd]))
        · rfl
        · exact isSpace_of_isNameChar (u.name_chars d hd)
        · rfl
        · exact isSpace_of_isRefChar (u.ref_version.chars d hd)
      obtain ⟨r, rfl, hrest⟩ := keeps_words hwords hafter
      exact ⟨r, (htext r).symm, hrest⟩
    · -- The name of an owner ends with `/`, the key with `:`.
      have hname : c :: owner ++ '/' :: (u.name ++ '@' :: u.ref ++ rest) =
          "version".toList ++ ':' :: r := by
        rw [hversion, List.append_assoc] at hr
        simpa using hr
      obtain ⟨-, hafter⟩ := Spans.takeWhile_unique hchars rfl (by decide) rfl hname
      exact absurd (List.cons.inj hafter).1 (by decide)
  · rw [hversion] at hr
    exact absurd (List.cons.inj hr).1 (by decide)

/-- The texts are the same, or the same as far as a colon. -/
theorem common (h : Reversioned atKey s s') : s' = s ∨
    ∃ head a b, s = head ++ [':'] ++ a ∧ s' = head ++ [':'] ++ b ∧ 4 ≤ head.length := by
  induction h with
  | nil => exact .inl rfl
  | @keep _ c s s' _ ih =>
    rcases ih with rfl | ⟨head, a, b, rfl, rfl, hlength⟩
    · exact .inl rfl
    · refine .inr ⟨c :: head, a, b, rfl, rfl, ?_⟩
      rw [List.length_cons]
      omega
  | version => exact .inr ⟨"version".toList, _, _, rfl, rfl, by decide⟩

end Reversioned

/-! ## The uses -/

section
variable {word : Char → Bool} {before before' s s' t x y : List Char} {atKey : Bool}

theorem isRefChar_of_isNameChar {c : Char} (h : isNameChar c = true) : isRefChar c = true := by
  have hne : c ≠ '#' := by
    rintro rfl
    exact absurd h (by decide)
  simp [isRefChar, isSpace_of_isNameChar h, hne]

theorem actionRefs_of_notMem (h : 'u' ∉ t) :
    actionRefs word before (t ++ s) = actionRefs word (t.reverse ++ before) s := by
  induction t generalizing before with
  | nil => rfl
  | cons c t ih =>
    rw [List.mem_cons, not_or] at h
    rw [List.cons_append, actionRefs_keep (run_uses_of_head (Ne.symm h.1)), ih h.2]
    simp

/-- The key of a use is in the version that it begins in. -/
theorem uses_prefix_version {z : List Char} (hs : s.head?.all (fun c => !isRefChar c) = true)
    (h : x ++ s = USES_KEY ++ z) : USES_KEY <+: x := by
  rcases List.append_eq_append_iff.1 h with ⟨w, hkey, hw⟩ | ⟨w, rfl, -⟩
  · cases w with
    | nil =>
      rw [List.append_nil] at hkey
      exact ⟨[], by rw [hkey, List.append_nil]⟩
    | cons c w =>
      -- What follows the version would be a part of the key.
      have hall : ∀ c ∈ USES_KEY, isRefChar c = true := by decide
      have hc := hall c (by simp [hkey])
      simp [hw, hc] at hs
  · exact List.prefix_append ..

/-- No use begins in a version without the key. -/
theorem actionRefs_version (hnew : ¬USES_KEY <:+: y)
    (hs : s.head?.all (fun c => !isRefChar c) = true) :
    actionRefs word before (y ++ s) = actionRefs word (y.reverse ++ before) s := by
  induction y generalizing before with
  | nil => rfl
  | cons c y ih =>
    have hnone : run (ACTION_USES_RE word) before (c :: (y ++ s)) = [] := by
      refine (run_uses_cases word before (c :: (y ++ s))).resolve_right ?_
      rintro ⟨u, rest, heq, -⟩
      rw [ActionUse.text, ActionUse.lead, List.append_assoc, List.append_assoc,
        ← List.cons_append] at heq
      exact hnew (uses_prefix_version hs heq).isInfix
    rw [List.cons_append, actionRefs_keep hnone, ih fun hinfix => hnew (List.infix_cons hinfix)]
    simp

/-- A use that begins in a version ends with it. -/
theorem use_eq_version {u : ActionUse} {rest : List Char} (hx : PlainRef x)
    (hs : s.head?.all (fun c => !isRefChar c) = true)
      (hrest : rest.head?.all (fun c => !isRefChar c) = true)
    (h : x ++ s = u.text ++ rest) : x = u.text ∧ s = rest := by
  have hparts : u.text ++ rest =
      USES_KEY ++ (u.gap ++ (u.owner ++ '/' :: (u.name ++ '@' :: (u.ref ++ rest)))) := by
    simp [ActionUse.text, ActionUse.lead]
  rw [hparts] at h
  obtain ⟨z, rfl⟩ := uses_prefix_version hs h
  rw [List.append_assoc] at h
  have hafter := List.append_cancel_left h
  have hgap : u.gap = [] := by
    cases hgap : u.gap with
    | nil => rfl
    | cons d gap =>
      have hd := isRefChar_of_isSpace (u.gap_spaces d (by simp [hgap]))
      rw [hgap] at hafter
      cases z with
      | nil => exact absurd ⟨[], (List.append_nil _).symm⟩ hx.noUses
      | cons e z =>
        obtain ⟨rfl, -⟩ := List.cons.inj hafter
        rw [hx.chars e (by simp)] at hd
        cases hd
  have hchars : ∀ d ∈ u.text, isRefChar d = true := by
    intro d hd
    have hkey : ∀ d ∈ USES_KEY, isRefChar d = true := by decide
    simp only [ActionUse.text, ActionUse.lead, hgap, List.mem_append, List.mem_cons,
      List.not_mem_nil, or_false,
      false_or] at hd
    rcases hd with (hd | hd | rfl | hd | rfl) | hd
    · exact hkey d hd
    · exact isRefChar_of_isNameChar (u.owner_chars d hd)
    · rfl
    · exact isRefChar_of_isNameChar (u.name_chars d hd)
    · rfl
    · exact u.ref_version.chars d hd
  exact Spans.takeWhile_unique hx.chars hs hchars hrest (by rw [hparts, List.append_assoc, hafter])

/-- After a version no other uses are found than with it. -/
theorem actionRefs_after_version (hx : PlainRef x)
    (hs : s.head?.all (fun c => !isRefChar c) = true) :
    actionRefs word (x.reverse ++ before) s ⊆ actionRefs word before (x ++ s) := by
  obtain ⟨-, hchars⟩ := hx.toIsVersion
  have hends := hx.noUses
  clear hx
  induction x generalizing before with
  | nil => exact List.Subset.refl _
  | cons c x ih =>
    rw [List.cons_append]
    rcases run_uses_cases word before (c :: (x ++ s)) with hrun | ⟨u, rest, heq, hword, hrest⟩
    · have hafter := @ih (c :: before) (fun d hd => hchars d (by simp [hd])) fun hsuffix =>
        hends (hsuffix.trans (List.suffix_cons c x))
      rw [actionRefs_keep hrun, List.reverse_cons, List.append_assoc]
      exact hafter
    · have hplain : PlainRef (c :: x) := ⟨⟨List.cons_ne_nil c x, hchars⟩, hends⟩
      obtain ⟨htext, rfl⟩ := use_eq_version hplain hs hrest heq
      rw [← List.cons_append, htext, actionRefs_use hword hs]
      exact List.subset_cons_self ..

/-- With other versions no other actions are used. -/
theorem actionRefs_reversioned (h : Reversioned atKey s s')
    (hbefore : before'.head? = before.head? ∨ s.head?.all (fun c => !isRefChar c) = true) :
    actionRefs word before' s' ⊆ actionRefs word before s := by
  induction hn : s.length using Nat.strongRecOn generalizing atKey before before' s s' with
  | ind n ih =>
    rcases run_uses_cases word before s with hrun | ⟨u, rest, rfl, hword, hrest⟩
    · cases h with
      | nil => exact List.Subset.refl _
      | keep hkeep =>
        rw [actionRefs_keep hrun,
          actionRefs_keep (run_uses_common (hbefore.imp_right ne_of_stops) hkeep.common hrun)]
        exact ih _ (by simp [← hn]) hkeep (.inl rfl) rfl
      | @version gap x y s s' hgap hx hy hnew hs hafter =>
        have hkey : 'u' ∉ VERSION_KEY := by decide
        have hgap : 'u' ∉ gap := Spans.notMem_of_forall hgap (by decide)
        have hs' : s'.head?.all (fun c => !isRefChar c) = true := by rwa [hafter.head]
        rw [actionRefs_of_notMem hkey, actionRefs_of_notMem hgap, actionRefs_of_notMem hkey,
          actionRefs_of_notMem hgap,
          actionRefs_version hnew hs']
        refine List.Subset.trans (ih _ ?_ hafter (.inr hs) rfl) (actionRefs_after_version hx hs)
        have hlength : 0 < x.length := List.length_pos_of_ne_nil hx.nonempty
        simp only [List.length_append] at hn
        omega
    · obtain ⟨rest', rfl, hafter⟩ := h.keeps_use
      have hhead : before'.head? = before.head? :=
        hbefore.resolve_right fun hstops => ne_of_stops hstops rfl
      have hword' : AtUses word before' := by rwa [AtUses, hhead]
      have hrest' : rest'.head?.all (fun c => !isRefChar c) = true := by rwa [hafter.head]
      rw [actionRefs_use hword hrest, actionRefs_use hword' hrest']
      refine List.cons_subset_cons _ (ih _ ?_ hafter (.inr hrest) rfl)
      have hlength : 0 < u.text.length :=
        List.length_pos_of_ne_nil (by simp [ActionUse.text, u.ref_version.nonempty])
      rw [← hn, List.length_append]
      omega

end

/-! ## The updater of the version -/

section
variable {workflowPath workflowText version line rest rest' : List Char} {lines : List (List Char)}
    {scan : StepScan}
  {inStep : Bool} {word : Char → Bool}

/-- A line with another version. -/
theorem VersionLine.reversioned {l : VersionLine} (hversion : ∀ c ∈ version, isRefChar c = true)
    (hold : ¬USES_KEY <:+ l.ref) (hnew : ¬USES_KEY <:+: version)
    (hend : rest = [] ∨ ∃ c, l.text.getLast? = some c ∧ Text.isLineBreak c = true)
      (h : Reversioned true rest rest') :
    Reversioned true (l.text ++ rest) (l.withVersion version ++ rest') := by
  have hflag : l.indent.getLast?.elim true Text.isSpace = true := by
    rcases List.eq_nil_or_concat' l.indent with hnil | ⟨indent, c, hconcat⟩
    · rw [hnil]
      rfl
    · rw [hconcat, List.getLast?_concat, Option.elim_some]
      exact l.indent_spaces c (by simp [hconcat])
  have hend' : rest = [] ∨ ∃ c, l.rest.getLast? = some c ∧ Text.isSpace c = true := by
    refine hend.imp_right ?_
    rintro ⟨c, hlast, hbreak⟩
    rw [l.text_eq] at hlast
    rcases List.eq_nil_or_concat' l.rest with hnil | ⟨comment, d, hconcat⟩
    · -- A version is not the end of a line with a line break.
      have hstop := l.front_stop
      rw [hnil, List.append_nil] at hlast
      rw [hlast, Option.all_some, hbreak] at hstop
      cases hstop
    · rw [hconcat, ← List.append_assoc, List.getLast?_concat] at hlast
      obtain rfl := Option.some.inj hlast
      exact ⟨d, by rw [hconcat, List.getLast?_concat], isSpace_of_isLineBreak hbreak⟩
  have hhead : (l.rest ++ rest).head?.all (fun c => !isRefChar c) = true := by
    cases hrest : l.rest with
    | nil =>
      rw [hrest] at hend'
      rcases hend' with rfl | ⟨c, hlast, -⟩
      · rfl
      · cases hlast
    | cons c comment =>
      have hcomment := l.rest_comment.head
      rwa [hrest] at hcomment
  have hkeep : Reversioned false (l.rest ++ rest) (l.rest ++ rest') :=
    Reversioned.append_line hend' h
  have hchanged : Reversioned true (VERSION_KEY ++ (l.gap ++ (l.ref ++ (l.rest ++ rest))))
      (VERSION_KEY ++ (l.gap ++ (version ++ (l.rest ++ rest')))) :=
    .version l.gap_spaces ⟨l.ref_version, hold⟩ hversion hnew hhead hkeep
  rw [← hflag] at hchanged
  have hall := hchanged.append_left (t := l.indent)
  simpa [VersionLine.text, VersionLine.withVersion] using hall

/-- The updater leaves a line alone, or writes another version in it. -/
theorem reversioned_line (hversion : ∀ c ∈ version, isRefChar c = true)
    (hline : '\n' ∉ line.dropLast)
    (hplain : ∀ u, (updatedSetupComposeVersionLine workflowPath line version inStep).2 = some u →
      ¬USES_KEY <:+ u.oldRef ∧ ¬USES_KEY <:+: u.newRef)
    (hend : rest = [] ∨ ∃ c, line.getLast? = some c ∧ Text.isLineBreak c = true)
      (h : Reversioned true rest rest') :
    Reversioned true (line ++ rest)
      ((updatedSetupComposeVersionLine workflowPath line version inStep).1 ++ rest') := by
  rcases @updatedLine_cases line version workflowPath inStep hline with ⟨hsame, -⟩ | ⟨-, l, rfl, -,
    hchanged⟩
  · rw [hsame]
    refine .append_line (hend.imp_right ?_) h
    rintro ⟨c, hlast, hbreak⟩
    exact ⟨c, hlast, isSpace_of_isLineBreak hbreak⟩
  · obtain ⟨hold, hnew⟩ := hplain _ (by rw [hchanged])
    rw [hchanged]
    exact l.reversioned hversion hold hnew hend h

theorem reversioned_lines (hversion : ∀ c ∈ version, isRefChar c = true) (hlines : Text.Lines lines)
    (hnewline : ∀ line ∈ lines, '\n' ∉ line.dropLast)
    (hplain : ∀ u ∈ (updateLines workflowPath version scan lines).filterMap Prod.snd,
      ¬USES_KEY <:+ u.oldRef ∧ ¬USES_KEY <:+: u.newRef) :
    Reversioned true lines.flatten
      ((updateLines workflowPath version scan lines).map Prod.fst).flatten := by
  induction hlines generalizing scan with
  | nil => exact .nil
  | @last line hne hline =>
    refine reversioned_line hversion (hnewline line (by simp)) (fun u hu => ?_) (.inl rfl) .nil
    exact hplain u (List.mem_filterMap.2 ⟨_, List.mem_cons_self, hu⟩)
  | @cons line lines hbody hend hbreak _ ih =>
    refine reversioned_line hversion (hnewline line (by simp)) (fun u hu => ?_) (.inr hend.getLast?)
      (ih (fun l hl => hnewline l (by simp [hl])) fun u hu => ?_)
    · exact hplain u (List.mem_filterMap.2 ⟨_, List.mem_cons_self, hu⟩)
    · obtain ⟨r, hr, hu⟩ := List.mem_filterMap.1 hu
      exact hplain u (List.mem_filterMap.2 ⟨r, List.mem_cons_of_mem _ hr, hu⟩)

/-- In the text with the new version no other actions are used. -/
theorem actionRefs_updated {latestToolTags : List Char → Option (List Char)}
    (htags : ∀ version, latestToolTags DOCKER_COMPOSE_REPOSITORY = some version → ∀ c ∈ version,
    isRefChar c = true)
    (hplain : ∀ u ∈ (updatedSetupComposeVersionText workflowPath workflowText latestToolTags).2,
      ¬USES_KEY <:+ u.oldRef ∧ ¬USES_KEY <:+: u.newRef) :
    actionRefs word [] (updatedSetupComposeVersionText workflowPath workflowText latestToolTags).1 ⊆
      actionRefs word [] workflowText := by
  cases hlatest : latestToolTags DOCKER_COMPOSE_REPOSITORY with
  | none =>
    simp only [updatedSetupComposeVersionText, hlatest]
    exact List.Subset.refl _
  | some version =>
    rw [updatedSetupComposeVersionText_eq hlatest] at hplain ⊢
    have hlines : Reversioned true (Text.splitlinesKeepends workflowText).flatten _ :=
      reversioned_lines (htags version hlatest) (Text.lines_splitlinesKeepends workflowText)
        (fun line hline => Text.newline_notMem_dropLast hline) hplain
    rw [Text.splitlinesKeepends_flatten] at hlines
    exact actionRefs_reversioned hlines (.inl rfl)

end

end FastapiTemplate.Management
