/-
  The uses of actions that `_ACTION_USES_RE` finds, taken apart (`ActionUse`), and
  the uses in a text after the substitution (`actionRefs_substituted`): the same
  actions, with the references that the substitution leaves.
-/
import FastapiTemplate.Proof.WorkflowActions
import FastapiTemplate.Proof.VersionLines

namespace FastapiTemplate.Management

open Regex

/-! ## The uses of actions -/

/-- `uses:` -/
def USES_KEY : List Char := "uses:".toList

/-- The parts of a use of an action. -/
structure ActionUse where
  gap : List Char
  owner : List Char
  name : List Char
  ref : List Char
  gap_spaces : ∀ c ∈ gap, Text.isSpace c = true
  owner_ne : owner ≠ []
  owner_chars : ∀ c ∈ owner, isNameChar c = true
  name_ne : name ≠ []
  name_chars : ∀ c ∈ name, isNameChar c = true
  ref_version : IsVersion ref

namespace ActionUse
variable (u : ActionUse)

/-- The action and the `@` after it. -/
def lead : List Char := USES_KEY ++ (u.gap ++ (u.owner ++ '/' :: (u.name ++ ['@'])))

def text : List Char := u.lead ++ u.ref

def repository : List Char := u.owner ++ '/' :: u.name

/-- What the search finds of the use. -/
def found (rest : List Char) : Match :=
  ⟨u.text, rest, [("ref", u.ref), ("repository", u.repository), ("prefix", USES_KEY ++ u.gap)]⟩

/-- The use with another reference. -/
def withRef (ref : List Char) (h : IsVersion ref) : ActionUse :=
  { u with ref := ref, ref_version := h }

theorem text_withRef {ref : List Char} {h : IsVersion ref} :
    (u.withRef ref h).text = u.lead ++ ref := rfl

end ActionUse

/-- A word may begin here with `uses:`. -/
def AtUses (word : Char → Bool) (before : List Char) : Prop :=
  (before.head?.any word != word 'u') = true

section
variable {word : Char → Bool} {before before' after rest : List Char} {m : Match} {u : ActionUse}

/-- The spaces, one by one. -/
def spaceCodes : List ℕ :=
  [9, 10, 11, 12, 13, 28, 29, 30, 31, 32, 133, 160, 5760, 8192, 8193, 8194, 8195, 8196, 8197, 8198,
    8199, 8200, 8201,
    8202, 8232, 8233, 8239, 8287, 12288]

/-- What holds of none of the spaces one by one. -/
theorem isSpace_eq_false {p : Char → Bool} (hall : ∀ n ∈ spaceCodes, p (Char.ofNat n) = false)
    {c : Char} (h : p c = true) : Text.isSpace c = false := by
  refine Bool.eq_false_iff.2 fun hspace => ?_
  have hcode : c.toNat ∈ spaceCodes := by
    simp only [Text.isSpace, Bool.or_eq_true, Bool.and_eq_true, decide_eq_true_eq,
      beq_iff_eq] at hspace
    simp only [spaceCodes, List.mem_cons, List.not_mem_nil, or_false]
    omega
  have hc := hall _ hcode
  rw [Char.ofNat_toNat, h] at hc
  cases hc

theorem isSpace_of_isNameChar {c : Char} (h : isNameChar c = true) : Text.isSpace c = false :=
  isSpace_eq_false (by decide) h

/-- A use is found where a word may begin. -/
theorem ActionUse.first (hword : AtUses word before)
    (hrest : rest.head?.all (fun c => !isRefChar c) = true) :
    First (ACTION_USES_RE word) before (u.text ++ rest) (u.found rest) := by
  have htext : u.text ++ rest =
      USES_KEY ++ (u.gap ++ (u.owner ++ '/' :: (u.name ++ '@' :: (u.ref ++ rest)))) := by
    simp [text, lead]
  have hkey : USES_KEY = 'u' :: "ses:".toList := rfl
  have hboundary : First (wordBoundary word) before (u.text ++ rest) ⟨[], u.text ++ rest, []⟩ := by
    refine first_look.2 ⟨?_, rfl⟩
    rw [htext, hkey]
    exact hword
  obtain ⟨c, owner, howner⟩ := List.exists_cons_of_ne_nil u.owner_ne
  have hgap : (u.owner ++ '/' :: (u.name ++ '@' :: (u.ref ++ rest))).head?.all
      (fun c => !Text.isSpace c) = true := by
    have hc := isSpace_of_isNameChar (u.owner_chars c (by simp [howner]))
    simp [howner, hc]
  have hprefix :
      First (group "prefix" (concat [wordBoundary word, lit USES_KEY, Management.spaces])) before
      (u.text ++ rest) ⟨USES_KEY ++ u.gap, u.owner ++ '/' :: (u.name ++ '@' :: (u.ref ++ rest)),
        [("prefix", USES_KEY ++ u.gap)]⟩ := by
    rw [htext] at hboundary ⊢
    exact First.group (hboundary.seq (First.lit.seq (first_spaces u.gap_spaces hgap)))
  have hrepository :
      First (group "repository"
      (concat [plus (char isNameChar), lit ['/'], plus (char isNameChar)]))
      ((USES_KEY ++ u.gap).reverse ++ before) (u.owner ++ '/' :: (u.name ++ '@' :: (u.ref ++ rest)))
      ⟨u.repository, '@' :: (u.ref ++ rest), [("repository", u.repository)]⟩ :=
    First.group ((First.plus_run u.owner_ne u.owner_chars rfl).seq
      (First.lit.seq (First.plus_run u.name_ne u.name_chars rfl)))
  have href : First (group "ref" (plus (char isRefChar)))
      (['@'].reverse ++ (u.repository.reverse ++ ((USES_KEY ++ u.gap).reverse ++ before)))
        (u.ref ++ rest)
      ⟨u.ref, rest, [("ref", u.ref)]⟩ :=
    First.group (First.plus_run u.ref_version.nonempty u.ref_version.chars hrest)
  have hall := hprefix.seq (hrepository.seq (First.lit.seq href))
  refine Eq.mp (congrArg (First (ACTION_USES_RE word) before (u.text ++ rest)) ?_) hall
  simp [Match.append, found, text, lead, repository]

theorem ActionUse.run_ne_nil (hword : AtUses word before)
    (hrest : rest.head?.all (fun c => !isRefChar c) = true) :
    run (ACTION_USES_RE word) before (u.text ++ rest) ≠ [] := by
  intro hnil
  have hfirst := ActionUse.first (u := u) hword hrest
  rw [First, hnil] at hfirst
  cases hfirst

theorem run_names
    (h : m ∈ run
      (group "repository" (concat [plus (char isNameChar), lit ['/'], plus (char isNameChar)]))
    before after) : ∃ owner name, m.text = owner ++ '/' :: name ∧ owner ≠ [] ∧
    (∀ c ∈ owner, isNameChar c = true) ∧
      name ≠ [] ∧ ∀ c ∈ name, isNameChar c = true := by
  obtain ⟨_, hm, rfl⟩ := List.mem_map.1 h
  obtain ⟨a, ha, _, hrest, rfl⟩ := mem_run_seq.1 hm
  obtain ⟨b, hb, c, hc, rfl⟩ := mem_run_seq.1 hrest
  obtain ⟨hane, hachars⟩ := run_plus_char ha
  obtain ⟨hcne, hcchars⟩ := run_plus_char hc
  refine ⟨a.text, c.text, ?_, hane, hachars, hcne, hcchars⟩
  simp [Match.append, (mem_run_lit hb).1]

theorem run_usesPrefix
    (h : m ∈ run (group "prefix" (concat [wordBoundary word, lit USES_KEY, Management.spaces]))
    before after) : AtUses word before ∧ ∃ gap, m.text = USES_KEY ++ gap ∧ ∀ c ∈ gap,
    Text.isSpace c = true := by
  obtain ⟨_, hm, rfl⟩ := List.mem_map.1 h
  obtain ⟨a, ha, _, hrest, rfl⟩ := mem_run_seq.1 hm
  obtain ⟨b, hb, c, hc, rfl⟩ := mem_run_seq.1 hrest
  have htext := run_text hb
  rw [(mem_run_lit hb).1] at htext
  rw [wordBoundary, run] at ha
  split at ha
  · rename_i hboundary
    obtain rfl := List.mem_singleton.1 ha
    have htext : USES_KEY ++ b.rest = after := htext
    have hkey : USES_KEY = 'u' :: "ses:".toList := rfl
    refine ⟨?_, c.text, by simp [Match.append, (mem_run_lit hb).1], run_spaces hc⟩
    rw [← htext, hkey] at hboundary
    exact hboundary
  · cases ha

/-- What is found is a use, as far as its reference goes. -/
theorem exists_actionUse (h : m ∈ run (ACTION_USES_RE word) before after) :
    AtUses word before ∧ ∃ (u : ActionUse) (rest : List Char), after = u.text ++ rest ∧
      rest.head?.all (fun c => !isRefChar c) = true := by
  obtain ⟨p, hp, _, ht, rfl⟩ := mem_run_seq.1 h
  obtain ⟨r, hr, _, hu, rfl⟩ := mem_run_seq.1 ht
  obtain ⟨a, ha, v, hv, rfl⟩ := mem_run_seq.1 hu
  obtain ⟨hword, gap, hprefix, hgap⟩ := run_usesPrefix hp
  obtain ⟨owner, name, hrepository, howner, hownerChars, hname, hnameChars⟩ := run_names hr
  obtain ⟨hat, -⟩ := mem_run_lit ha
  obtain ⟨v, hmatch, rfl⟩ := List.mem_map.1 hv
  obtain ⟨href, hrefChars⟩ := run_plus_char hmatch
  have hversion : IsVersion (v.text ++ v.rest.takeWhile isRefChar) := by
    refine ⟨by simp [href], fun c hc => ?_⟩
    exact (List.mem_append.1 hc).elim (hrefChars c) fun hc => List.mem_takeWhile_imp hc
  refine ⟨hword, ⟨gap, owner, name, _, hgap, howner, hownerChars, hname, hnameChars, hversion⟩,
    v.rest.dropWhile isRefChar, ?_, Spans.dropWhile_head⟩
  rw [← run_text hp, ← run_text hr, ← run_text ha, ← run_text hv, hprefix, hrepository, hat]
  simp [ActionUse.text, ActionUse.lead, List.takeWhile_append_dropWhile]

/-- A use is found, or nothing begins here. -/
theorem run_uses_cases (word : Char → Bool) (before after : List Char) :
    run (ACTION_USES_RE word) before after = [] ∨
    ∃ (u : ActionUse) (rest : List Char), after = u.text ++ rest ∧ AtUses word before ∧
      rest.head?.all (fun c => !isRefChar c) = true := by
  cases hrun : run (ACTION_USES_RE word) before after with
  | nil => exact .inl rfl
  | cons m ms =>
    obtain ⟨hword, u, rest, hafter, hrest⟩ :=
      exists_actionUse (by rw [hrun]; exact List.mem_cons_self)
    exact .inr ⟨u, rest, hafter, hword, hrest⟩

/-! ## The uses in a text -/

/-- The pieces of a text in which the search finds uses. -/
theorem pieces_use (hword : AtUses word before)
    (hrest : rest.head?.all (fun c => !isRefChar c) = true) :
    pieces (ACTION_USES_RE word) 0 before (u.text ++ rest) =
      .found (u.found rest) :: pieces (ACTION_USES_RE word) 0 (u.text.reverse ++ before) rest :=
  pieces_first (ActionUse.first hword hrest)
    (by simp [ActionUse.found, ActionUse.text, ActionUse.lead, USES_KEY])

/-- From one use to the next. -/
theorem uses_induction (word : Char → Bool) {motive : List Char → List Char → Prop}
    (nil : ∀ before, motive before [])
    (keep : ∀ before c after, run (ACTION_USES_RE word) before (c :: after) = [] →
    motive (c :: before) after →
      motive before (c :: after))
    (use : ∀ before (u : ActionUse) rest, AtUses word before →
      rest.head?.all (fun c => !isRefChar c) = true →
      motive (u.text.reverse ++ before) rest →
      motive before (u.text ++ rest)) (before after : List Char) :
    motive before after := by
  induction hn : after.length using Nat.strongRecOn generalizing before after with
  | ind n ih =>
    rcases run_uses_cases word before after with hrun | ⟨u, rest, rfl, hword, hrest⟩
    · cases after with
      | nil => exact nil before
      | cons c after => exact keep before c after hrun (ih _ (by simp [← hn]) _ _ rfl)
    · refine use before u rest hword hrest (ih _ ?_ _ _ rfl)
      have hne : u.text ≠ [] := by simp [ActionUse.text, u.ref_version.nonempty]
      have hpos := List.length_pos_of_ne_nil hne
      rw [← hn, List.length_append]
      omega

/-- The actions that a text uses, with their references. -/
def actionRefs (word : Char → Bool) (before after : List Char) : List (List Char × List Char) :=
  ((pieces (ACTION_USES_RE word) 0 before after).filterMap Piece.match?).map fun m =>
    (m.group "repository", m.group "ref")

theorem actionRefs_keep {c : Char} (h : run (ACTION_USES_RE word) before (c :: after) = []) :
    actionRefs word before (c :: after) = actionRefs word (c :: before) after := by
  rw [actionRefs, pieces_of_run_nil h]
  rfl

theorem actionRefs_use (hword : AtUses word before)
    (hrest : rest.head?.all (fun c => !isRefChar c) = true) :
    actionRefs word before (u.text ++ rest) =
      (u.repository, u.ref) :: actionRefs word (u.text.reverse ++ before) rest := by
  rw [actionRefs, pieces_use hword hrest]
  rfl

theorem isVersion_of_mem_actionRefs {r : List Char × List Char}
    (h : r ∈ actionRefs word before after) :
    IsVersion r.2 := by
  induction before, after using uses_induction word with
  | nil => cases h
  | keep before c after hrun ih =>
    rw [actionRefs_keep hrun] at h
    exact ih h
  | use before u rest hword hrest ih =>
    rw [actionRefs_use hword hrest] at h
    rcases List.mem_cons.1 h with rfl | h
    · exact u.ref_version
    · exact ih h

/-! ## Where nothing begins -/

/-- After its key a use has no colon before its reference. -/
theorem ActionUse.colon_notMem : ':' ∉ u.gap ++ (u.owner ++ '/' :: (u.name ++ ['@'])) := by
  have hgap : ':' ∉ u.gap := Spans.notMem_of_forall u.gap_spaces (by decide)
  have howner : ':' ∉ u.owner := Spans.notMem_of_forall u.owner_chars (by decide)
  have hname : ':' ∉ u.name := Spans.notMem_of_forall u.name_chars (by decide)
  simp [hgap, howner, hname]

/-- What begins with another colon after `uses:` has all of a use before it, or nothing. -/
theorem ActionUse.lead_prefix {head rest : List Char} {d : Char} {ref : List Char}
    (h : head ++ [':'] ++ after = u.lead ++ (d :: ref ++ rest)) (hlength : 5 ≤ head.length) :
    u.lead ++ [d] <+: head ++ [':'] := by
  have hlead : u.lead ++ [d] <+: head ++ [':'] ++ after := ⟨ref ++ rest, by simp [h]⟩
  by_cases hle : (u.lead ++ [d]).length ≤ (head ++ [':']).length
  · exact List.prefix_of_prefix_length_le hlead (List.prefix_append _ _) hle
  · have hshort : (head ++ [':']).length ≤ u.lead.length := by
      simp only [List.length_append, List.length_singleton] at hle ⊢
      omega
    have hprefix : head ++ [':'] <+: u.lead :=
      List.prefix_of_prefix_length_le (List.prefix_append _ _)
        ((List.prefix_append _ _).trans hlead) hshort
    obtain ⟨z, hz⟩ := hprefix
    have hkey : u.lead = "uses".toList ++ ':' :: (u.gap ++ (u.owner ++ '/' :: (u.name ++ ['@']))) :=
      rfl
    rw [hkey, List.append_assoc] at hz
    have hinj := (List.append_cons_inj_of_notMem (by decide) u.colon_notMem).1 hz.symm
    rw [← hinj.1] at hlength
    exact absurd hlength (by decide)

/-- Whether a use begins here is decided before another colon. -/
theorem run_uses_congr (head : List Char) {a b : List Char} (hlength : 5 ≤ head.length)
    (hbefore : AtUses word before' → AtUses word before)
    (h : run (ACTION_USES_RE word) before (head ++ [':'] ++ a) = []) :
    run (ACTION_USES_RE word) before' (head ++ [':'] ++ b) = [] := by
  refine (run_uses_cases word before' (head ++ [':'] ++ b)).resolve_right ?_
  rintro ⟨u, rest, heq, hword, hrest⟩
  obtain ⟨d, ref, href⟩ := List.exists_cons_of_ne_nil u.ref_version.nonempty
  have hd : isRefChar d = true := u.ref_version.chars d (by simp [href])
  obtain ⟨z, hz⟩ :=
    ActionUse.lead_prefix (heq.trans (by rw [ActionUse.text, href, List.append_assoc])) hlength
  -- The same use begins here with the rest of the text after the colon.
  have hversion : IsVersion ((d :: (z ++ a)).takeWhile isRefChar) :=
    ⟨by simp [hd], fun c hc => List.mem_takeWhile_imp hc⟩
  have htext : head ++ [':'] ++ a =
      (u.withRef _ hversion).text ++ (d :: (z ++ a)).dropWhile isRefChar := by
    rw [u.text_withRef, ← hz, List.append_assoc u.lead (List.takeWhile ..),
      List.takeWhile_append_dropWhile]
    simp
  rw [htext] at h
  exact ActionUse.run_ne_nil (hbefore hword) Spans.dropWhile_head h

theorem run_uses_before {s : List Char} (hbefore : AtUses word before' → AtUses word before)
    (h : run (ACTION_USES_RE word) before s = []) : run (ACTION_USES_RE word) before' s = [] := by
  refine (run_uses_cases word before' s).resolve_right ?_
  rintro ⟨u, rest, rfl, hword, hrest⟩
  exact ActionUse.run_ne_nil (hbefore hword) hrest h

theorem run_uses_of_head {c : Char} (h : c ≠ 'u') : run (ACTION_USES_RE word) before (c :: after) =
    [] := by
  refine (run_uses_cases word before (c :: after)).resolve_right ?_
  rintro ⟨u, rest, heq, -⟩
  exact h (List.cons.inj heq).1

theorem ne_of_stops {c : Char} {s : List Char}
    (h : (c :: s).head?.all (fun c => !isRefChar c) = true) : c ≠ 'u' := by
  rintro rfl
  revert h
  simp [isRefChar, Text.isSpace]

/-- Nothing begins here in a text that is the same, or the same as far as another colon. -/
theorem run_uses_common {c : Char} {s s' : List Char}
    (hbefore : before'.head? = before.head? ∨ c ≠ 'u')
    (hcommon : s' = s ∨ ∃ head a b, s = head ++ [':'] ++ a ∧ s' = head ++ [':'] ++ b ∧
    4 ≤ head.length)
    (h : run (ACTION_USES_RE word) before (c :: s) = []) :
    run (ACTION_USES_RE word) before' (c :: s') = [] := by
  rcases hbefore with hhead | hc
  · have hword : AtUses word before' → AtUses word before := by
      rw [AtUses, AtUses, hhead]
      exact id
    rcases hcommon with rfl | ⟨head, a, b, rfl, rfl, hlength⟩
    · exact run_uses_before hword h
    · exact run_uses_congr (c :: head) (Nat.succ_le_succ hlength) hword h
  · exact run_uses_of_head hc

end

/-! ## The substitution -/

section
variable {word : Char → Bool}
    {workflowPath workflowText before before' after rest repository ref tag : List Char}
  {latestTags : List Char → Option (List Char)} {m : Match} {u : ActionUse}

/-- A reference that has moved stays. -/
theorem settledRef_settledRef :
    settledRef latestTags repository (settledRef latestTags repository ref) =
    settledRef latestTags repository ref := by
  rcases settledRef_cases latestTags repository ref with hsame | ⟨tag, n, k, htag, -, hk, -, hnew⟩
  · rw [hsame, hsame]
  · rw [hnew, settledRef, htag, Option.elim_some]
    unfold updatedActionRef
    rw [hk]
    exact if_pos rfl

theorem isVersion_settledRef
    (htags : ∀ tag, latestTags repository = some tag → ∀ c ∈ tag, isRefChar c = true)
    (href : IsVersion ref) : IsVersion (settledRef latestTags repository ref) := by
  rcases settledRef_cases latestTags repository ref with hsame | ⟨tag, n, k, htag, -, hk, -, hnew⟩
  · rwa [hsame]
  · rw [hnew]
    refine ⟨?_, htags tag htag⟩
    rintro rfl
    cases hk

/-- The text that the substitution leaves. -/
def substituted (workflowPath : List Char) (latestTags : List Char → Option (List Char))
    (word : Char → Bool)
    (before after : List Char) : List Char :=
  (pieces (ACTION_USES_RE word) 0 before after).flatMap
    (Piece.replace fun m => (replaceAction workflowPath latestTags m).1)

theorem substituteActions_eq : substituteActions workflowPath latestTags word workflowText =
    substituted workflowPath latestTags word [] workflowText := sub_eq

theorem substituted_keep {c : Char} (h : run (ACTION_USES_RE word) before (c :: after) = []) :
    substituted workflowPath latestTags word before (c :: after) =
      c :: substituted workflowPath latestTags word (c :: before) after := by
  rw [substituted, pieces_of_run_nil h]
  rfl

theorem substituted_use (hword : AtUses word before)
    (hrest : rest.head?.all (fun c => !isRefChar c) = true) :
    substituted workflowPath latestTags word before (u.text ++ rest) =
      u.lead ++ (settledRef latestTags u.repository u.ref ++
        substituted workflowPath latestTags word (u.text.reverse ++ before) rest) := by
  rw [substituted, pieces_use hword hrest, List.flatMap_cons, Piece.replace, replaceAction_eq]
  have hgroups : (u.found rest).group "repository" = u.repository ∧
      (u.found rest).group "ref" = u.ref ∧
      (u.found rest).group "prefix" = USES_KEY ++ u.gap := ⟨rfl, rfl, rfl⟩
  rw [hgroups.1, hgroups.2.1, hgroups.2.2]
  split
  · rename_i hsame
    rw [hsame, ← List.append_assoc]
    rfl
  · simp [ActionUse.lead, ActionUse.repository, substituted]

theorem head_substituted : (substituted workflowPath latestTags word before after).head? =
    after.head? := by
  induction before, after using uses_induction word with
  | nil => rfl
  | keep before c after hrun _ => rw [substituted_keep hrun]; rfl
  | use before u rest hword hrest _ => rw [substituted_use hword hrest]; rfl

/-- Nothing changes, or nothing before a colon that is not among the first characters. -/
theorem substituted_common : substituted workflowPath latestTags word before after = after ∨
    ∃ head a b, after = head ++ [':'] ++ a ∧
      substituted workflowPath latestTags word before after = head ++ [':'] ++ b ∧
      4 ≤ head.length := by
  induction before, after using uses_induction word with
  | nil => exact .inl rfl
  | keep before c after hrun ih =>
    rw [substituted_keep hrun]
    rcases ih with hsame | ⟨head, a, b, hafter, hnew, hlength⟩
    · rw [hsame]
      exact .inl rfl
    · refine .inr ⟨c :: head, a, b, by rw [hafter]; rfl, by rw [hnew]; rfl, ?_⟩
      rw [List.length_cons]
      omega
  | use before u rest hword hrest _ =>
    rw [substituted_use hword hrest]
    exact .inr ⟨"uses".toList, _, _, List.append_assoc .., List.append_assoc .., by decide⟩

/-- The same actions are used afterwards, with the references that the substitution leaves. -/
theorem actionRefs_substituted
    (htags : ∀ repository tag, latestTags repository = some tag → ∀ c ∈ tag, isRefChar c = true)
    (hbefore : before'.head? = before.head? ∨ after.head?.all (fun c => !isRefChar c) = true) :
    actionRefs word before' (substituted workflowPath latestTags word before after) =
      (actionRefs word before after).map fun r => (r.1, settledRef latestTags r.1 r.2) := by
  induction before, after using uses_induction word generalizing before' with
  | nil => rfl
  | keep before c after hrun ih =>
    have hrun' : run (ACTION_USES_RE word) before'
        (c :: substituted workflowPath latestTags word (c :: before) after) = [] :=
      run_uses_common (hbefore.imp_right ne_of_stops) substituted_common hrun
    rw [substituted_keep hrun, actionRefs_keep hrun, actionRefs_keep hrun']
    exact ih (.inl rfl)
  | use before u rest hword hrest ih =>
    have hhead : before'.head? = before.head? :=
      hbefore.resolve_right fun hstops => ne_of_stops hstops rfl
    have hword' : AtUses word before' := by rwa [AtUses, hhead]
    have hversion := isVersion_settledRef (htags u.repository) u.ref_version
    have hrest' :
        (substituted workflowPath latestTags word (u.text.reverse ++ before) rest).head?.all
        (fun c => !isRefChar c) = true := by rwa [head_substituted]
    rw [substituted_use hword hrest, actionRefs_use hword hrest, ← List.append_assoc,
      ← u.text_withRef (h := hversion),
      actionRefs_use hword' hrest', ih (.inr hrest)]
    rfl

theorem actionUpdates_eq : actionUpdates workflowPath latestTags word workflowText =
    (actionRefs word [] workflowText).filterMap fun r =>
      if settledRef latestTags r.1 r.2 = r.2 then none
      else some ⟨workflowPath, r.1, r.2, settledRef latestTags r.1 r.2⟩ := by
  rw [actionUpdates, actionRefs, List.filterMap_map]
  refine List.filterMap_congr fun m _ => ?_
  rw [replaceAction_eq, Function.comp_apply]
  split <;> rfl

/-- With nothing to update the text stays. -/
theorem substituteActions_of_no_updates
    (h : actionUpdates workflowPath latestTags word workflowText = []) :
    substituteActions workflowPath latestTags word workflowText = workflowText := by
  have hnone := List.filterMap_eq_nil_iff.1 h
  have htext : ∀ p ∈ (ACTION_USES_RE word).pieces 0 [] workflowText,
      Piece.replace (fun m => (replaceAction workflowPath latestTags m).1) p = p.text := by
    intro p hp
    cases p with
    | char c => rfl
    | found m =>
      have hm := hnone m (List.mem_filterMap.2 ⟨_, hp, rfl⟩)
      rw [replaceAction_eq] at hm
      rw [Piece.replace, replaceAction_eq]
      split
      · rfl
      · rename_i hmoved
        rw [if_neg hmoved] at hm
        cases hm
  rw [substituteActions, sub_eq, List.flatMap_congr htext]
  exact pieces_text ..

end

end FastapiTemplate.Management
