/-
  What the loop over the replacements makes of a text, run by run of reference
  characters, and when it replaces every reference once.
-/
import FastapiTemplate.Lib.Entries
import FastapiTemplate.Lib.Runs
import FastapiTemplate.Proof.ContainerRefs
import Mathlib.Data.List.Dedup

namespace FastapiTemplate.Management

open Regex Runs

/-! ## One run -/

/-- What follows a reference that stands at the beginning of a run. -/
def afterRef? (r run : List Char) : Option (List Char) :=
  if r.isPrefixOf run && !continuesRef (run.drop r.length) then some (run.drop r.length) else none

/-- A replacement of the reference at the beginning of a run. -/
def replaceRun (r : List Char × List Char) (run : List Char) : List Char :=
  match afterRef? r.1 run with
  | some rest => r.2 ++ rest
  | none => run

variable {r run text before after rest : List Char}

theorem afterRef?_eq_some : afterRef? r run = some rest ↔
    run = r ++ rest ∧ continuesRef rest = false := by
  unfold afterRef?
  constructor
  · intro h
    split at h
    · rename_i hcond
      simp only [Bool.and_eq_true, Bool.not_eq_true', List.isPrefixOf_iff_prefix] at hcond
      cases h
      exact ⟨(List.prefix_iff_eq_append.1 hcond.1).symm, hcond.2⟩
    · cases h
  · rintro ⟨rfl, hrest⟩
    simp [hrest]

/-- What a run is followed by does not continue a reference in it. -/
theorem continuesRef_append (h : after.head?.all (fun c => !isImageRefChar c) = true) :
    continuesRef (rest ++ after) = continuesRef rest := by
  have htag : ∀ c, after.head? = some c → isImageRefChar c = false ∧ isTagStart c = false ∧
      c ≠ '.' := by
    intro c hc
    rw [hc] at h
    have hc : isImageRefChar c = false := by simpa using h
    refine ⟨hc, Bool.eq_false_iff.2 fun htag => ?_, ?_⟩
    · rw [(isTagStart_spec htag).1] at hc
      cases hc
    · rintro rfl
      exact absurd hc (by decide)
  rcases rest with _ | ⟨c, _ | ⟨d, rest⟩⟩
  · rcases after with _ | ⟨c, _ | ⟨d, after⟩⟩
    · rfl
    · obtain ⟨hc, -, -⟩ := htag c rfl
      simp [continuesRef, hc]
    · obtain ⟨hc, -, hdot⟩ := htag c rfl
      simp [continuesRef, hc, hdot]
  · rcases after with _ | ⟨d, after⟩
    · rfl
    · obtain ⟨-, hd, -⟩ := htag d rfl
      simp [continuesRef, hd]
  · rfl

/-- A reference ends within the run in which it stands. -/
theorem isPrefixOf_run (hafter : after.head?.all (fun c => !isImageRefChar c) = true)
    (hr : IsImageRef r) : r.isPrefixOf (run ++ after) = r.isPrefixOf run := by
  rw [Bool.eq_iff_iff, List.isPrefixOf_iff_prefix, List.isPrefixOf_iff_prefix]
  constructor
  · intro h
    rcases List.prefix_or_prefix_of_prefix h (List.prefix_append run after) with h' | ⟨z, rfl⟩
    · exact h'
    · have hz := (List.prefix_append_right_inj _).1 h
      rcases z with _ | ⟨c, z⟩
      · exact (List.append_nil run).symm ▸ List.prefix_refl run
      · obtain ⟨tail, rfl⟩ := hz
        have hc := hr.chars c (by simp)
        simp [hc] at hafter
  · exact fun h => h.trans (List.prefix_append ..)

/-- At the beginning of a run the pattern matches a reference with what follows it. -/
theorem run_containerRefPattern_run (hbefore : before.head?.all (fun c => !isImageRefChar c) = true)
    (hafter : after.head?.all (fun c => !isImageRefChar c) = true) (hr : IsImageRef r) :
    Regex.run (containerRefPattern r) before (run ++ after) =
      ((afterRef? r run).map fun rest => (⟨r, rest ++ after, []⟩ : Match)).toList := by
  rw [run_containerRefPattern, hbefore, Bool.true_and, isPrefixOf_run hafter hr, afterRef?]
  by_cases hpre : r.isPrefixOf run
  · have hlength := (List.isPrefixOf_iff_prefix.1 hpre).length_le
    rw [List.drop_append_of_le_length hlength, continuesRef_append hafter]
    by_cases hcont : continuesRef (run.drop r.length) <;> simp [hpre, hcont]
  · simp [hpre]

/-- No reference begins inside a run, or with a character of no reference. -/
theorem run_containerRefPattern_inside {c : Char} (h : isImageRefChar c = true) :
    Regex.run (containerRefPattern r) (c :: before) after = [] := by
  simp [run_containerRefPattern, h]

theorem run_containerRefPattern_other {c : Char} (h : isImageRefChar c = false)
    (hr : IsImageRef r) :
    Regex.run (containerRefPattern r) before (c :: after) = [] := by
  rw [run_containerRefPattern]
  have hpre : r.isPrefixOf (c :: after) = false := by
    obtain ⟨d, r', rfl⟩ := List.exists_cons_of_ne_nil hr.nonempty
    have hd := hr.chars d (by simp)
    have hne : d ≠ c := by
      rintro rfl
      rw [hd] at h
      cases h
    simp [List.isPrefixOf, hne]
  simp [hpre]

theorem afterRef?_other {c : Char} (hr : IsImageRef r) (hc : isImageRefChar c = false) :
    afterRef? r [c] = none := by
  rw [Option.eq_none_iff_forall_ne_some]
  intro rest hrest
  obtain ⟨hrun, -⟩ := afterRef?_eq_some.1 hrest
  obtain ⟨d, r', rfl⟩ := List.exists_cons_of_ne_nil hr.nonempty
  obtain ⟨rfl, -⟩ := List.cons.inj hrun
  rw [hr.chars c (by simp)] at hc
  cases hc

/-! ## The whole text -/

/-- The first of some references that stands at the beginning of a run, with what follows it. -/
def firstRef? (olds : List (List Char)) (run : List Char) : Option (List Char × List Char) :=
  olds.findSome? fun old => (afterRef? old run).map (old, ·)

theorem firstRef?_single : firstRef? [r] run = (afterRef? r run).map (r, ·) := by
  rw [firstRef?, List.findSome?_cons, List.findSome?_nil]
  cases afterRef? r run <;> rfl

/-- The pattern of a single reference. -/
theorem pattern_single (hr : IsImageRef r) : (∀ old ∈ [r], IsImageRef old) ∧
    ∀ before after, Regex.run (containerRefPattern r) before after =
      [r].flatMap fun old => Regex.run (containerRefPattern old) before after := by
  constructor
  · intro old hold
    rwa [List.mem_singleton.1 hold]
  · intro before after
    rw [List.flatMap_singleton]

theorem firstRef?_spec {olds : List (List Char)} {found : List Char × List Char}
    (h : firstRef? olds run = some found) : found.1 ∈ olds ∧
    afterRef? found.1 run = some found.2 := by
  obtain ⟨old, hold, h⟩ := List.exists_of_findSome?_eq_some h
  obtain ⟨rest, hrest, rfl⟩ := Option.map_eq_some_iff.1 h
  exact ⟨hold, hrest⟩

section
variable {q : Regex} {olds : List (List Char)} (holds : ∀ old ∈ olds, IsImageRef old)
  (hq : ∀ before after, Regex.run q before after =
    olds.flatMap fun old => Regex.run (containerRefPattern old) before after)
include holds hq

theorem pieces_other {c : Char} (hc : isImageRefChar c = false) :
    pieces q 0 before (c :: after) = .char c :: pieces q 0 (c :: before) after := by
  refine pieces_of_run_nil ?_
  rw [hq, List.flatMap_eq_nil_iff]
  exact fun old hold => run_containerRefPattern_other hc (holds old hold)

omit holds in
/-- Inside a run all characters are kept. -/
theorem pieces_inside {c : Char} {chars : List Char} (hc : isImageRefChar c = true)
    (hchars : ∀ d ∈ chars, isImageRefChar d = true) :
    pieces q 0 (c :: before) (chars ++ after) =
      chars.map .char ++ pieces q 0 (chars.reverse ++ c :: before) after := by
  refine pieces_kept fun y d z hyz => ?_
  obtain ⟨e, before', hbefore, he⟩ :
      ∃ e before', y.reverse ++ c :: before = e :: before' ∧ isImageRefChar e = true := by
    rcases y.eq_nil_or_concat with rfl | ⟨y, e, rfl⟩
    · exact ⟨c, before, rfl, hc⟩
    · exact ⟨e, y.reverse ++ c :: before, by simp, hchars e (by simp [hyz])⟩
  rw [hbefore, hq, List.flatMap_eq_nil_iff]
  exact fun old _ => run_containerRefPattern_inside he

/-- The preferred match at the beginning of a run. -/
theorem head?_run (hbefore : before.head?.all (fun c => !isImageRefChar c) = true)
    (hafter : after.head?.all (fun c => !isImageRefChar c) = true) :
    (Regex.run q before (run ++ after)).head? =
      (firstRef? olds run).map fun found => ⟨found.1, found.2 ++ after, []⟩ := by
  rw [hq, List.head?_flatMap, firstRef?, List.map_findSome?, ← List.head?_filterMap,
    ← List.head?_filterMap]
  refine congrArg List.head? (List.filterMap_congr fun old hold => ?_)
  rw [run_containerRefPattern_run hbefore hafter (holds old hold), Function.comp]
  cases afterRef? old run <;> rfl

/-- A reference at the beginning of a run is found, and nothing else in it. -/
theorem pieces_found {found : List Char × List Char} (hfound : firstRef? olds run = some found)
    (hrun : IsRun isImageRefChar run)
    (hbefore : before.head?.all (fun c => !isImageRefChar c) = true)
    (hafter : after.head?.all (fun c => !isImageRefChar c) = true) :
    pieces q 0 before (run ++ after) = .found ⟨found.1, found.2 ++ after, []⟩ ::
      (found.2.map .char ++ pieces q 0 (run.reverse ++ before) after) := by
  have hfirst : First q before (run ++ after) ⟨found.1, found.2 ++ after, []⟩ := by
    rw [First, head?_run holds hq hbefore hafter, hfound]
    rfl
  obtain ⟨hold, hrest⟩ := firstRef?_spec hfound
  obtain ⟨rfl, -⟩ := afterRef?_eq_some.1 hrest
  rw [pieces_first hfirst (holds _ hold).nonempty]
  obtain ⟨old, c, hc⟩ := found.1.eq_nil_or_concat.resolve_left (holds _ hold).nonempty
  have hlast : isImageRefChar c = true := (holds _ hold).chars c (by simp [hc])
  have hinside : pieces q 0 (c :: (old.reverse ++ before)) (found.2 ++ after) = _ :=
    pieces_inside hq hlast fun d hd => hrun.all d (List.mem_append_right _ hd)
  simpa [hc] using hinside

theorem pieces_notFound (hfound : firstRef? olds run = none) (hrun : IsRun isImageRefChar run)
    (hbefore : before.head?.all (fun c => !isImageRefChar c) = true)
    (hafter : after.head?.all (fun c => !isImageRefChar c) = true) :
    pieces q 0 before (run ++ after) =
    run.map .char ++ pieces q 0 (run.reverse ++ before) after := by
  have hnone : Regex.run q before (run ++ after) = [] := by
    rw [← List.head?_eq_none_iff, head?_run holds hq hbefore hafter, hfound]
    rfl
  obtain ⟨c, chars, rfl⟩ := List.exists_cons_of_ne_nil hrun.nonempty
  have hinside : pieces q 0 (c :: before) (chars ++ after) = _ :=
    pieces_inside hq (hrun.all c (by simp)) fun d hd => hrun.all d (List.mem_cons_of_mem _ hd)
  rw [List.cons_append] at hnone ⊢
  rw [pieces_of_run_nil hnone, hinside]
  simp

omit hq in
theorem firstRef?_other {c : Char} (hc : isImageRefChar c = false) : firstRef? olds [c] = none := by
  rw [firstRef?, List.findSome?_eq_none_iff]
  intro old hold
  rw [afterRef?_other (holds old hold) hc, Option.map_none]

/-- The parts of a text that a search finds, run by run. -/
theorem flatMap_pieces {β : Type} (g : Char → List β) (f : List Char → List β)
    (hbefore : before.head?.all (fun c => !isImageRefChar c) = true ∨
      text.head?.all (fun c => !isImageRefChar c) = true) :
    ((pieces q 0 before text).flatMap fun
      | .char c => g c
      | .found m => f m.text) =
    (parts isImageRefChar text).flatMap fun run =>
      match firstRef? olds run with
      | some found => f found.1 ++ found.2.flatMap g
      | none => run.flatMap g := by
  induction text using parts_induction (p := isImageRefChar) generalizing before with
  | nil => rfl
  | cons c text hc ih =>
    rw [pieces_other holds hq hc, parts_cons hc, List.flatMap_cons, List.flatMap_cons,
      ih (Or.inl (by simpa using hc)), firstRef?_other holds hc]
    simp
  | run run text hrun hafter ih =>
    have hbefore : before.head?.all (fun c => !isImageRefChar c) = true := by
      refine hbefore.resolve_right fun h => ?_
      obtain ⟨c, chars, rfl⟩ := List.exists_cons_of_ne_nil hrun.nonempty
      simp [hrun.all c (by simp)] at h
    rw [parts_append hrun hafter, List.flatMap_cons, ← ih (Or.inr hafter)]
    cases hfound : firstRef? olds run with
    | none =>
      rw [pieces_notFound holds hq hfound hrun hbefore hafter, List.flatMap_append,
        List.flatMap_map]
    | some found =>
      rw [pieces_found holds hq hfound hrun hbefore hafter, List.flatMap_cons, List.flatMap_append,
        List.flatMap_map, List.append_assoc]

/-- A substitution changes every run by itself. -/
theorem sub_parts (f : List Char → List Char) : q.sub (fun m => f m.text) text =
    (parts isImageRefChar text).flatMap fun run =>
      match firstRef? olds run with
      | some found => f found.1 ++ found.2
      | none => run := by
  have hpieces : (pieces q 0 [] text).flatMap _ = _ :=
    flatMap_pieces holds hq (fun c => [c]) f (Or.inl rfl)
  simp only [List.flatMap_singleton'] at hpieces
  exact hpieces

/-- The search finds something iff a reference stands at the beginning of a run. -/
theorem search_parts : (q.search text).isSome ↔
    ∃ run ∈ parts isImageRefChar text, (firstRef? olds run).isSome := by
  have hpieces : (pieces q 0 [] text).flatMap _ = _ :=
    flatMap_pieces holds hq (fun _ => ([] : List Unit)) (fun _ => [()]) (Or.inl rfl)
  have hnil := congrArg (· = []) hpieces
  simp only [List.flatMap_eq_nil_iff, eq_iff_iff] at hnil
  rw [search, List.isSome_head?, finditer, ne_eq, List.filterMap_eq_nil_iff]
  refine Iff.trans (not_congr ?_) ((not_congr hnil).trans ?_)
  · refine forall_congr' fun p => imp_congr_right fun _ => ?_
    cases p <;> simp [Piece.match?]
  · push Not
    refine exists_congr fun run => and_congr_right fun _ => ?_
    cases firstRef? olds run <;> simp

end

/-! ## The loop over the replacements -/

/-- A replacement of an image reference by another one. -/
structure IsReplacement (r : List Char × List Char) : Prop where
  old : IsImageRef r.1
  new : IsImageRef r.2
  changes : r.1 ≠ r.2

section
variable {r : List Char × List Char}

theorem replaceRun_some (h : afterRef? r.1 run = some rest) : replaceRun r run = r.2 ++ rest := by
  rw [replaceRun, h]

theorem replaceRun_none (h : afterRef? r.1 run = none) : replaceRun r run = run := by
  rw [replaceRun, h]

/-- A run stays one. -/
theorem isRun_replaceRun (hr : IsReplacement r) (hrun : IsRun isImageRefChar run) :
    IsRun isImageRefChar (replaceRun r run) := by
  cases h : afterRef? r.1 run with
  | none => rwa [replaceRun_none h]
  | some rest =>
    obtain ⟨rfl, -⟩ := afterRef?_eq_some.1 h
    rw [replaceRun_some h]
    refine ⟨by simp [hr.new.nonempty], fun c hc => ?_⟩
    rcases List.mem_append.1 hc with hc | hc
    · exact hr.new.chars c hc
    · exact hrun.all c (List.mem_append_right _ hc)

theorem replaceRun_other (hr : IsReplacement r) {c : Char} (hc : isImageRefChar c = false) :
    replaceRun r [c] = [c] :=
  replaceRun_none (afterRef?_other hr.old hc)

theorem replaceRun_ne (hr : IsReplacement r) :
    replaceRun r run ≠ run ↔ (afterRef? r.1 run).isSome := by
  cases h : afterRef? r.1 run with
  | none => simp [replaceRun_none h]
  | some rest =>
    obtain ⟨rfl, -⟩ := afterRef?_eq_some.1 h
    rw [replaceRun_some h]
    simpa using hr.changes.symm

theorem IsImageRef.no_backslash {r : List Char} (hr : IsImageRef r) : '\\' ∉ r :=
  fun h => absurd (hr.chars _ h) (by decide)

/-- The parts of the text after a replacement. -/
theorem parts_replaceRun (hr : IsReplacement r) :
    parts isImageRefChar ((parts isImageRefChar text).flatMap (replaceRun r)) =
      (parts isImageRefChar text).map (replaceRun r) :=
  parts_flatMap (fun _ => isRun_replaceRun hr) fun _ => replaceRun_other hr

/-- One replacement changes the runs that begin with its reference, and tells whether there are
    any. -/
theorem replaceContainerRefInText_eq (hr : IsReplacement r) :
    replaceContainerRefInText text r.1 r.2 = some
      ((parts isImageRefChar text).flatMap (replaceRun r),
      (parts isImageRefChar text).any fun run => (afterRef? r.1 run).isSome) := by
  have hsub : (containerRefPattern r.1).sub (fun _ => r.2) text =
      (parts isImageRefChar text).flatMap (replaceRun r) := by
    obtain ⟨holds, hq⟩ := pattern_single hr.old
    rw [sub_parts holds hq fun _ => r.2]
    refine List.flatMap_congr fun run _ => ?_
    rw [firstRef?_single, replaceRun]
    cases afterRef? r.1 run <;> rfl
  have hchanged : (parts isImageRefChar text).flatMap (replaceRun r) ≠ text ↔
      ∃ run ∈ parts isImageRefChar text, (afterRef? r.1 run).isSome := by
    simp only [← replaceRun_ne hr]
    constructor
    · intro hne
      by_contra hnone
      push Not at hnone
      refine hne ?_
      rw [List.flatMap_congr hnone]
      exact parts_flatMap_id
    · rintro ⟨run, hrun, hne⟩ heq
      have hparts : parts isImageRefChar ((parts isImageRefChar text).flatMap (replaceRun r)) = _ :=
        parts_replaceRun hr
      rw [heq] at hparts
      exact hne (List.map_inj_left.1 (hparts.symm.trans (List.map_id _).symm) run hrun)
  rw [replaceContainerRefInText, template_plain hr.new.no_backslash, Option.map_some, hsub]
  simp only [Option.some.injEq, Prod.mk.injEq, true_and]
  rw [Bool.eq_iff_iff, decide_eq_true_eq, List.any_eq_true]
  exact hchanged

end

/-- What a list of replacements makes of a run. -/
def rewriteRun (rs : Replacements) (run : List Char) : List Char :=
  rs.foldl (fun run r => replaceRun r run) run

/-- The replacements that change the run on the way. -/
def applied : Replacements → List Char → Replacements
  | [], _ => []
  | r :: rs, run =>
    (if (afterRef? r.1 run).isSome then [r] else []) ++ applied rs (replaceRun r run)

theorem applied_subset {rs : Replacements} : applied rs run ⊆ rs := by
  induction rs generalizing run with
  | nil => exact List.Subset.refl _
  | cons r rs ih =>
    intro q hq
    rcases List.mem_append.1 hq with hq | hq
    · split at hq
      · rw [List.mem_singleton.1 hq]
        exact List.mem_cons_self ..
      · cases hq
    · exact List.mem_cons_of_mem _ (ih hq)

/-- The loop rewrites every run by itself, and records the replacements that changed one. -/
theorem replaceContainerRefsInText_eq {rs : Replacements} (hrs : ∀ r ∈ rs, IsReplacement r)
    (hnodup : rs.Nodup) : replaceContainerRefsInText rs text =
      some ((parts isImageRefChar text).flatMap (rewriteRun rs),
        rs.filter fun r => (parts isImageRefChar text).any fun run => r ∈ applied rs run) := by
  induction rs generalizing text with
  | nil =>
    rw [replaceContainerRefsInText]
    exact congrArg (fun text => some (text, [])) parts_flatMap_id.symm
  | cons r rs ih =>
    have hr := hrs r (List.mem_cons_self ..)
    obtain ⟨hmem, hnodup⟩ := List.nodup_cons.1 hnodup
    have ih : replaceContainerRefsInText rs ((parts isImageRefChar text).flatMap (replaceRun r)) =
        _ :=
      ih (fun q hq => hrs q (List.mem_cons_of_mem _ hq)) hnodup
    rw [parts_replaceRun hr, List.flatMap_map] at ih
    rw [replaceContainerRefsInText, replaceContainerRefInText_eq hr]
    have hhead : ((parts isImageRefChar text).any fun run => decide (r ∈ applied (r :: rs) run)) =
        (parts isImageRefChar text).any fun run => (afterRef? r.1 run).isSome := by
      refine congrArg _ (funext fun run => ?_)
      have hlater : r ∉ applied rs (replaceRun r run) := fun h => hmem (applied_subset h)
      rw [applied]
      cases (afterRef? r.1 run).isSome <;> simp [hlater]
    have htail : (rs.filter fun q => (parts isImageRefChar text).any fun run =>
          decide (q ∈ applied (r :: rs) run)) =
        rs.filter fun q => ((parts isImageRefChar text).map (replaceRun r)).any fun run =>
          decide (q ∈ applied rs run) := by
      refine List.filter_congr fun q hq => ?_
      rw [List.any_map]
      refine congrArg _ (funext fun run => ?_)
      have hne : q ≠ r := fun h => hmem (h ▸ hq)
      rw [Function.comp, applied]
      cases (afterRef? r.1 run).isSome <;> simp [hne]
    rw [List.filter_cons, hhead, htail]
    simp only [Option.bind_eq_bind, Option.bind_some, ih]
    rfl

theorem applied_append {rs qs : Replacements} :
    applied (rs ++ qs) run = applied rs run ++ applied qs (rewriteRun rs run) := by
  induction rs generalizing run with
  | nil => rfl
  | cons r rs ih =>
    rw [List.cons_append, applied, ih, applied, List.append_assoc]
    rfl

theorem applied_none {rs : Replacements} (h : ∀ r ∈ rs, afterRef? r.1 run = none) :
    applied rs run = [] ∧ rewriteRun rs run = run := by
  induction rs with
  | nil => exact ⟨rfl, rfl⟩
  | cons r rs ih =>
    have hr := h r (List.mem_cons_self ..)
    obtain ⟨hrs, hrun⟩ := ih fun q hq => h q (List.mem_cons_of_mem _ hq)
    refine ⟨?_, ?_⟩
    · rw [applied, hr, replaceRun_none hr, hrs]
      rfl
    · rw [rewriteRun, List.foldl_cons, replaceRun_none hr]
      exact hrun

/-- A single replacement applies. -/
theorem applied_once {rs qs : Replacements} {r : List Char × List Char}
    (hrs : ∀ q ∈ rs, afterRef? q.1 run = none) (hr : afterRef? r.1 run = some rest)
    (hqs : ∀ q ∈ qs, afterRef? q.1 (r.2 ++ rest) = none) :
    applied (rs ++ r :: qs) run = [r] ∧ rewriteRun (rs ++ r :: qs) run = r.2 ++ rest := by
  obtain ⟨hbefore, hrun⟩ := applied_none hrs
  obtain ⟨hafter, hrun'⟩ := applied_none hqs
  refine ⟨?_, ?_⟩
  · rw [applied_append, hbefore, hrun, applied, replaceRun_some hr, hafter, hr]
    rfl
  · rw [rewriteRun] at hrun ⊢
    rw [List.foldl_append, hrun, List.foldl_cons, replaceRun_some hr]
    exact hrun'

/-! ## Once, in every order -/

/-- The simultaneous substitution: every reference found in the text is looked up. -/
def replaceSimultaneously (replacements : Replacements) (text : List Char) : List Char :=
  (anyOf (replacements.map fun r => containerRefPattern r.1)).sub
    (fun m => (replacements.lookup m.text).getD m.text) text

/-- In every order the loop leaves what the simultaneous substitution does, records the references
    that occur in the text, and changes every one of them by its own replacement only. -/
def ReplacesOnce (replacements : Replacements) (text : List Char) : Prop :=
  ∀ order : Replacements, order.Perm replacements →
    replaceContainerRefsInText order text = some (replaceSimultaneously replacements text,
      order.filter fun r => ((containerRefPattern r.1).search text).isSome) ∧
    ∀ run ∈ parts isImageRefChar text, ∀ r ∈ replacements, (afterRef? r.1 run).isSome →
      applied order run = [r]

/-- Where a reference stands in the text, no other one does, before or after it is replaced. -/
def NoCascade (replacements : Replacements) (text : List Char) : Prop :=
  ∀ run ∈ parts isImageRefChar text, ∀ r ∈ replacements, ∀ rest ∈ afterRef? r.1 run,
    ∀ q ∈ replacements, q ≠ r → afterRef? q.1 run = none ∧ afterRef? q.1 (r.2 ++ rest) = none

instance (replacements : Replacements) (text : List Char) :
    Decidable (NoCascade replacements text) :=
  inferInstanceAs (Decidable (∀ run ∈ parts isImageRefChar text, ∀ r ∈ replacements,
    ∀ rest ∈ afterRef? r.1 run, ∀ q ∈ replacements, q ≠ r →
      afterRef? q.1 run = none ∧ afterRef? q.1 (r.2 ++ rest) = none))

section
variable {replacements order : Replacements}

/-- Two replacements may come first in either order. -/
theorem noCascade_of_applied (h : ∀ order : Replacements, order.Perm replacements →
    ∀ run ∈ parts isImageRefChar text, ∀ r ∈ replacements, (afterRef? r.1 run).isSome →
      applied order run = [r]) : NoCascade replacements text := by
  intro run hrun r hr rest hrest q hq hne
  have hsome : (afterRef? r.1 run).isSome := by rw [hrest]; rfl
  obtain ⟨others, hothers⟩ : ∃ others, (r :: q :: others).Perm replacements :=
    ⟨(replacements.erase r).erase q, ((List.perm_cons_erase hr).trans
      (.cons r (List.perm_cons_erase ((List.mem_erase_of_ne hne).2 hq)))).symm⟩
  constructor
  · have hfirst := h _ ((List.Perm.swap ..).trans hothers) run hrun r hr hsome
    rw [applied] at hfirst
    cases hq : afterRef? q.1 run with
    | none => rfl
    | some _ =>
      rw [hq] at hfirst
      exact absurd (List.cons.inj hfirst).1 hne
  · have hsecond := h _ hothers run hrun r hr hsome
    rw [applied, hsome, if_pos rfl, applied, replaceRun_some hrest] at hsecond
    cases hq : afterRef? q.1 (r.2 ++ rest) with
    | none => rfl
    | some _ =>
      rw [hq] at hsecond
      cases (List.cons.inj hsecond).2

theorem NoCascade.applied (h : NoCascade replacements text) (hnodup : replacements.Nodup)
    (horder : order.Perm replacements) (hrun : run ∈ parts isImageRefChar text)
    {r : List Char × List Char} (hr : r ∈ replacements) (hrest : afterRef? r.1 run = some rest) :
    Management.applied order run = [r] ∧ rewriteRun order run = r.2 ++ rest := by
  obtain ⟨rs, qs, rfl⟩ := List.append_of_mem (horder.mem_iff.2 hr)
  have hother : ∀ q ∈ rs ++ qs, q ∈ replacements ∧ q ≠ r := by
    intro q hq
    have hnodup := List.perm_middle.nodup_iff.1 (horder.nodup_iff.2 hnodup)
    refine ⟨horder.mem_iff.1 (by simp_all [or_left_comm]), ?_⟩
    rintro rfl
    exact (List.nodup_cons.1 hnodup).1 hq
  refine applied_once (fun q hq => ?_) hrest fun q hq => ?_
  · obtain ⟨hq, hne⟩ := hother q (List.mem_append_left _ hq)
    exact (h run hrun r hr rest hrest q hq hne).1
  · obtain ⟨hq, hne⟩ := hother q (List.mem_append_right _ hq)
    exact (h run hrun r hr rest hrest q hq hne).2

/-- Without a cascade a run changes once or not at all. -/
theorem NoCascade.runs (h : NoCascade replacements text) (hnodup : replacements.Nodup)
    (horder : order.Perm replacements) (hrun : run ∈ parts isImageRefChar text) :
    rewriteRun order run = run ∨
      ∃ r ∈ order, ∃ rest, afterRef? r.1 run = some rest ∧ rewriteRun order run = r.2 ++ rest := by
  by_cases hfound : ∃ r ∈ order, ∃ rest, afterRef? r.1 run = some rest
  · obtain ⟨r, hr, rest, hrest⟩ := hfound
    exact Or.inr ⟨r, hr, rest, hrest, (h.applied hnodup horder hrun (horder.mem_iff.1 hr) hrest).2⟩
  · push Not at hfound
    exact Or.inl (applied_none fun r hr => Option.eq_none_iff_forall_ne_some.2 (hfound r hr)).2

/-- The simultaneous substitution, run by run. -/
theorem NoCascade.simultaneously (h : NoCascade replacements text)
    (hrs : ∀ r ∈ replacements, IsReplacement r) (hkeys : (replacements.map Prod.fst).Nodup)
    (horder : order.Perm replacements) : replaceSimultaneously replacements text =
      (parts isImageRefChar text).flatMap (rewriteRun order) := by
  have holds : ∀ old ∈ replacements.map Prod.fst, IsImageRef old := by
    intro old hold
    obtain ⟨r, hr, rfl⟩ := List.mem_map.1 hold
    exact (hrs r hr).old
  have hq : ∀ before after, Regex.run (anyOf (replacements.map fun r => containerRefPattern r.1))
      before after = (replacements.map Prod.fst).flatMap
        fun old => Regex.run (containerRefPattern old) before after := by
    intro before after
    rw [run_anyOf, List.flatMap_map, List.flatMap_map]
  rw [replaceSimultaneously, sub_parts holds hq fun old => (replacements.lookup old).getD old]
  refine List.flatMap_congr fun run hrun => ?_
  cases hfound : firstRef? (replacements.map Prod.fst) run with
  | none =>
    have hnone : ∀ r ∈ order, afterRef? r.1 run = none := by
      intro r hr
      have hnone := List.findSome?_eq_none_iff.1 hfound r.1
        (List.mem_map_of_mem (horder.mem_iff.1 hr))
      simpa using hnone
    exact (applied_none hnone).2.symm
  | some found =>
    obtain ⟨hold, hrest⟩ := firstRef?_spec hfound
    obtain ⟨r, hr, hr'⟩ := List.mem_map.1 hold
    rw [← hr'] at hrest
    have hlookup := Entries.lookup_of_mem hkeys hr
    rw [(h.applied (List.Nodup.of_map _ hkeys) horder hrun hr hrest).2]
    simp only [← hr', hlookup, Option.getD_some]

/-- The loop replaces every reference once, in every order, iff no reference comes to stand where
    another one stands. -/
theorem replacesOnce_iff (hrs : ∀ r ∈ replacements, IsReplacement r)
    (hkeys : (replacements.map Prod.fst).Nodup) (text : List Char) :
    ReplacesOnce replacements text ↔ NoCascade replacements text := by
  refine ⟨fun h => noCascade_of_applied fun order horder => (h order horder).2, fun h => ?_⟩
  intro order horder
  have hnodup := List.Nodup.of_map _ hkeys
  have hrs' : ∀ r ∈ order, IsReplacement r := fun r hr => hrs r (horder.mem_iff.1 hr)
  have honce : ∀ run ∈ parts isImageRefChar text, ∀ r ∈ replacements, (afterRef? r.1 run).isSome →
      applied order run = [r] := by
    intro run hrun r hr hsome
    obtain ⟨rest, hrest⟩ := Option.isSome_iff_exists.1 hsome
    exact (h.applied hnodup horder hrun hr hrest).1
  refine ⟨?_, honce⟩
  rw [replaceContainerRefsInText_eq hrs' (horder.nodup_iff.2 hnodup),
    h.simultaneously hrs hkeys horder]
  refine congrArg (fun updates => some (_, updates)) (List.filter_congr fun r hr => ?_)
  obtain ⟨holds, hq⟩ := pattern_single (hrs' r hr).old
  rw [Bool.eq_iff_iff, List.any_eq_true, search_parts holds hq]
  refine exists_congr fun run => and_congr_right fun hrun => ?_
  rw [decide_eq_true_eq, firstRef?_single, Option.isSome_map]
  constructor
  · intro happlied
    by_contra hr'
    have hnone : ∀ q ∈ order, afterRef? q.1 run = none := by
      intro q hq
      by_contra hsome
      rw [honce run hrun q (horder.mem_iff.1 hq) (Option.isSome_iff_ne_none.2 hsome),
        List.mem_singleton] at happlied
      rw [happlied] at hr'
      exact hr' (Option.isSome_iff_ne_none.2 hsome)
    rw [(applied_none hnone).1] at happlied
    cases happlied
  · intro hsome
    rw [honce run hrun r (horder.mem_iff.1 hr) hsome]
    exact List.mem_singleton_self r

end

/-! ## The replacements of the definition files -/

/-- The repository is a beginning of the reference. -/
theorem parseContainerImageRef_repository {ref : List Char} {image : ContainerImage}
    (h : parseContainerImageRef ref = some image) :
    image.repository ≠ [] ∧ image.repository <+: ref := by
  have hdigest : (Text.partitionChars '@' ref).1 <+: ref := List.takeWhile_prefix _
  unfold parseContainerImageRef at h
  split at h
  · cases h
  · simp only at h
    split at h <;> split at h <;> cases h
    · rename_i hne
      exact ⟨hne, (List.take_prefix ..).trans hdigest⟩
    · rename_i hne
      exact ⟨hne, hdigest⟩

theorem IsImageRef.of_prefix {r s : List Char} (hs : IsImageRef s) (hne : r ≠ []) (hr : r <+: s) :
    IsImageRef r :=
  ⟨hne, fun c hc => hs.chars c (hr.subset hc)⟩

/-- A dictionary of replacements of references. -/
structure Replacements.WellFormed (rs : Replacements) : Prop where
  keys : (rs.map Prod.fst).Nodup
  sound : ∀ r ∈ rs, IsReplacement r

section
variable {rs : Replacements} {old new : List Char}

/-- A new entry has a new key. -/
theorem Replacements.WellFormed.append (h : rs.WellFormed) (hr : IsReplacement (old, new))
    (hkey : ¬rs.any (·.1 = old)) : (rs ++ [(old, new)]).WellFormed where
  keys := by
    rw [List.map_append, List.nodup_append]
    refine ⟨h.keys, by simp, ?_⟩
    rintro key hmem _ hold rfl
    obtain ⟨r, hr, rfl⟩ := List.mem_map.1 hmem
    refine hkey (List.any_eq_true.2 ⟨r, hr, ?_⟩)
    simpa using hold
  sound r hr' := by
    rcases List.mem_append.1 hr' with hr' | hr'
    · exact h.sound r hr'
    · rwa [List.mem_singleton.1 hr']

theorem Replacements.WellFormed.set (h : rs.WellFormed) (hr : IsReplacement (old, new)) :
    (rs.set old new).WellFormed := by
  unfold Replacements.set
  split
  · refine ⟨?_, fun r hr' => ?_⟩
    · have hkeys : (rs.map fun r => if r.1 = old then (old, new) else r).map Prod.fst =
          rs.map Prod.fst := by
        rw [List.map_map]
        refine List.map_congr_left fun r _ => ?_
        rw [Function.comp]
        split
        · rename_i hold
          exact hold.symm
        · rfl
      rw [hkeys]
      exact h.keys
    · obtain ⟨q, hq, rfl⟩ := List.mem_map.1 hr'
      split
      · exact hr
      · exact h.sound q hq
  · rename_i hkey
    exact h.append hr hkey

theorem Replacements.WellFormed.setdefault (h : rs.WellFormed) (hr : IsReplacement (old, new)) :
    (rs.setdefault old new).WellFormed := by
  unfold Replacements.setdefault
  split
  · exact h
  · rename_i hkey
    exact h.append hr hkey

end

/-- The references of remote images, and the tags that these get, are made of the characters of
    image references. -/
structure ImageRefChars (references : List (List Char)) (resolver : TagResolver) : Prop where
  refs : ∀ entry ∈ remoteContainerImages references, ∀ c ∈ entry.1, isImageRefChar c = true
  tags : ∀ entry ∈ remoteContainerImages references, ∀ latest,
    resolver entry.2.repository entry.2.tag = some latest → ∀ c ∈ latest, isImageRefChar c = true

section
variable {references : List (List Char)} {resolver : TagResolver}

theorem isImageRef_withTag {image : ContainerImage} {tag : List Char}
    (hrepository : IsImageRef image.repository) (htag : ∀ c ∈ tag, isImageRefChar c = true) :
    IsImageRef (containerImageRefWithTag image tag) := by
  refine ⟨by simp [containerImageRefWithTag], fun c hc => ?_⟩
  rcases List.mem_append.1 hc with hc | hc
  · exact hrepository.chars c hc
  · rcases List.mem_cons.1 hc with rfl | hc
    · decide
    · exact htag c hc

theorem Replacements.mem_set {rs : Replacements} {old new : List Char} {r : List Char × List Char}
    (h : r ∈ rs.set old new) : r ∈ rs ∨ r = (old, new) := by
  unfold Replacements.set at h
  split at h
  · obtain ⟨q, hq, rfl⟩ := List.mem_map.1 h
    split
    · exact .inr rfl
    · exact .inl hq
  · simpa using h

theorem Replacements.mem_setdefault {rs : Replacements} {old new : List Char}
    {r : List Char × List Char}
    (h : r ∈ rs.setdefault old new) : r ∈ rs ∨ r = (old, new) := by
  unfold Replacements.setdefault at h
  split at h
  · exact .inl h
  · simpa using h

/-- A round of the loop adds a replacement of the reference, and perhaps of the name of its
    repository. -/
theorem mem_addReplacement {rs : Replacements} {ref : List Char} {image : ContainerImage}
    {r : List Char × List Char}
    (h : r ∈ addReplacement resolver rs (ref, image)) : r ∈ rs ∨
      ∃ latest, resolver image.repository image.tag = some latest ∧ some latest ≠ image.tag ∧
        r.2 = containerImageRefWithTag image latest ∧
        (r.1 = ref ∨ r.1 = image.repository ∧
        shouldReplaceBareContainerDocRef image ref = true) := by
  unfold addReplacement at h
  dsimp only at h
  split at h
  · exact .inl h
  · rename_i latest hlatest
    split_ifs at h with htag hnew hbare
    · exact .inl h
    · exact .inl h
    · rcases Replacements.mem_setdefault h with h | rfl
      · rcases Replacements.mem_set h with h | rfl
        · exact .inl h
        · exact .inr ⟨latest, hlatest, htag, rfl, .inl rfl⟩
      · exact .inr ⟨latest, hlatest, htag, rfl, .inr ⟨rfl, hbare⟩⟩
    · rcases Replacements.mem_set h with h | rfl
      · exact .inl h
      · exact .inr ⟨latest, hlatest, htag, rfl, .inl rfl⟩

theorem mem_remoteContainerImages {ref : List Char} {image : ContainerImage} :
    (ref, image) ∈ remoteContainerImages references ↔ ref ∈ references ∧
      parseContainerImageRef ref = some image ∧ shouldSkipContainerImage image = false := by
  unfold remoteContainerImages
  simp only [List.mem_filterMap, List.mem_insertionSort, List.mem_dedup, Option.map_eq_some_iff,
    Option.filter_eq_some_iff, Prod.mk.injEq, Bool.not_eq_true']
  constructor
  · rintro ⟨_, hmem, _, ⟨hparse, hremote⟩, rfl, rfl⟩
    exact ⟨hmem, hparse, hremote⟩
  · rintro ⟨hmem, hparse, hremote⟩
    exact ⟨ref, hmem, image, ⟨hparse, hremote⟩, rfl, rfl⟩

/-- What the loop over the references builds up. -/
theorem containerImageReplacements_induction {P : Replacements → Prop} (nil : P [])
    (add : ∀ rs ref image, ref ∈ references → parseContainerImageRef ref = some image →
      shouldSkipContainerImage image = false → P rs → P (addReplacement resolver rs (ref, image))) :
    P (containerImageReplacements references resolver) := by
  have hentries : ∀ entry ∈ remoteContainerImages references, entry.1 ∈ references ∧
      parseContainerImageRef entry.1 = some entry.2 ∧ shouldSkipContainerImage entry.2 = false :=
    fun entry hentry => mem_remoteContainerImages.1 hentry
  unfold containerImageReplacements
  revert nil hentries
  generalize ([] : Replacements) = rs
  induction remoteContainerImages references generalizing rs with
  | nil => exact fun h _ => h
  | cons entry entries ih =>
    intro h hentries
    obtain ⟨hmem, hparse, hremote⟩ := hentries entry (List.mem_cons_self ..)
    exact ih _ (add rs _ _ hmem hparse hremote h) fun e he => hentries e (List.mem_cons_of_mem _ he)

theorem addReplacement_wellFormed (hchars : ImageRefChars references resolver) {rs : Replacements}
    {ref : List Char} {image : ContainerImage}
    (hmem : (ref, image) ∈ remoteContainerImages references) (h : rs.WellFormed) :
    (addReplacement resolver rs (ref, image)).WellFormed := by
  obtain ⟨hne, hpre⟩ := parseContainerImageRef_repository (mem_remoteContainerImages.1 hmem).2.1
  have hold : IsImageRef ref :=
    ⟨fun hnil => hne (List.prefix_nil.1 (hnil ▸ hpre)), hchars.refs _ hmem⟩
  have hrepository := hold.of_prefix hne hpre
  unfold addReplacement
  simp only
  split
  · exact h
  · rename_i latestTag hlatest
    have hnew := isImageRef_withTag hrepository (hchars.tags _ hmem _ hlatest)
    split
    · exact h
    · split
      · exact h
      · rename_i hchanges
        have hset := h.set ⟨hold, hnew, Ne.symm hchanges⟩
        split
        · refine hset.setdefault ⟨hrepository, hnew, fun heq => ?_⟩
          have hlength := congrArg List.length heq
          simp [containerImageRefWithTag] at hlength
        · exact hset

/-- The replacements of a run are a dictionary of replacements of references. -/
theorem containerImageReplacements_wellFormed (hchars : ImageRefChars references resolver) :
    (containerImageReplacements references resolver).WellFormed :=
  containerImageReplacements_induction ⟨List.nodup_nil, by simp⟩
    fun _ _ _ hmem hparse hremote h =>
      addReplacement_wellFormed hchars (mem_remoteContainerImages.2 ⟨hmem, hparse, hremote⟩) h

/-- The sequential substitution is the simultaneous one, in every order, iff no repository is named
    both with a tag and without one, and no reference of the text has another one in its place,
    before or after it is replaced. -/
theorem replacement_once_iff (hchars : ImageRefChars references resolver) (text : List Char) :
    (∃ replacements, containerImageReplacements? references resolver = some replacements ∧
      ReplacesOnce replacements text) ↔
      mixesTags ((remoteContainerImages references).map Prod.snd) = false ∧
        NoCascade (containerImageReplacements references resolver) text := by
  have hwell := containerImageReplacements_wellFormed hchars
  rw [← replacesOnce_iff hwell.sound hwell.keys text, containerImageReplacements?]
  cases mixesTags ((remoteContainerImages references).map Prod.snd) <;> simp

end

namespace Sample

/-- `redis:latest` is `8.6.2`, and that is `8.8.0`. -/
def redisTags : TagResolver := fun _ tag =>
  if tag = some "latest".toList then some "8.6.2".toList else some "8.8.0".toList

theorem redisTags_chars {repository latest : List Char} {tag : Option (List Char)}
    (h : redisTags repository tag = some latest) : ∀ c ∈ latest, isImageRefChar c = true := by
  unfold redisTags at h
  split at h <;> cases h <;> decide

end Sample

/-- The reference `${BASE}` is skipped. -/
theorem replacement_once_sentence : ∃ replacements,
    containerImageReplacements? [Sample.redisLatest, "${BASE}".toList] Sample.redisTags =
        some replacements ∧ ReplacesOnce replacements "Use redis:latest.".toList :=
  (replacement_once_iff ⟨by decide, fun _ _ _ h => Sample.redisTags_chars h⟩ _).2
    (by decide +kernel)

/-- `redis:latest` becomes `redis:8.6.2`, which is then replaced as well. -/
theorem replacement_cascades : ¬∀ (references : List (List Char)) (resolver : TagResolver),
    ImageRefChars references resolver → ∀ text : List Char,
      let replacements := containerImageReplacements references resolver
      (replaceContainerRefsInText (orderedReplacements replacements) text).map Prod.fst =
        some (replaceSimultaneously replacements text) := by
  intro h
  have heq := h [Sample.redisLatest, "redis:8.6.2".toList] Sample.redisTags
    ⟨by decide, fun _ _ _ h => Sample.redisTags_chars h⟩ Sample.redisLatest
  exact absurd heq (by decide)

end FastapiTemplate.Management
