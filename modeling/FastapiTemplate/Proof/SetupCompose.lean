/-
  Which lines the updater of the Docker Compose version changes
  (`changes_version_iff`): versions that are outdated, from a line with the
  action to the next list item that is not indented further.  A step of YAML ends
  at any entry that is not indented further than its dash (`open_iff`).
-/
import FastapiTemplate.Lib.YamlOutline
import FastapiTemplate.Proof.VersionLines

namespace FastapiTemplate.Management

open Regex Yaml

/-! ## A line -/

section
variable {workflowPath latestVersion line : List Char}

end

/-! ## The scanner -/

/-- Of the lines, `action` mentions the action last, and no list item has ended its step. -/
def LastAction (lines : List (List Char)) (action : List Char) : Prop :=
  ∃ before between, lines = before ++ action :: between ∧ usesSetupCompose action = true ∧
    ∀ line ∈ between, usesSetupCompose line = false ∧ endsStep (lineIndent action) line = false

section
variable {lines : List (List Char)} {line action : List Char}

theorem LastAction.keep (h : LastAction lines action) (huses : usesSetupCompose line = false)
    (hends : endsStep (lineIndent action) line = false) : LastAction (lines ++ [line]) action := by
  obtain ⟨before, between, rfl, haction, hbetween⟩ := h
  refine ⟨before, between ++ [line], by simp, haction, fun l hl => ?_⟩
  rcases List.mem_append.1 hl with hl | hl
  · exact hbetween l hl
  · rw [List.mem_singleton.1 hl]
    exact ⟨huses, hends⟩

theorem LastAction.cases (h : LastAction (lines ++ [line]) action) :
    (usesSetupCompose line = true ∧ action = line) ∨ (usesSetupCompose line = false ∧
      LastAction lines action ∧ endsStep (lineIndent action) line = false) := by
  obtain ⟨before, between, heq, haction, hbetween⟩ := h
  cases between using List.reverseRecOn with
  | nil =>
    obtain ⟨-, hline⟩ := List.append_inj' heq rfl
    rw [List.singleton_inj.1 hline]
    exact .inl ⟨haction, rfl⟩
  | append_singleton between last =>
    rw [← List.cons_append, ← List.append_assoc] at heq
    obtain ⟨rfl, hline⟩ := List.append_inj' heq rfl
    obtain rfl := List.singleton_inj.1 hline
    obtain ⟨huses, hends⟩ := hbetween line (by simp)
    exact .inr ⟨huses,
      ⟨before, between, rfl, haction, fun l hl => hbetween l (List.mem_append_left _ hl)⟩, hends⟩

theorem LastAction.unique {action' : List Char} (h : LastAction lines action)
    (h' : LastAction lines action') : action = action' := by
  induction lines using List.reverseRecOn with
  | nil =>
    obtain ⟨before, between, heq, -⟩ := h
    simp at heq
  | append_singleton lines line ih =>
    rcases h.cases with ⟨huses, rfl⟩ | ⟨huses, h, -⟩ <;>
      rcases h'.cases with ⟨huses', rfl⟩ | ⟨huses', h', -⟩
    · rfl
    · simp [huses] at huses'
    · simp [huses'] at huses
    · exact ih h h'

end

section
variable (workflowPath workflowText : List Char) (latestToolTags : List Char → Option (List Char))

end

section
variable {lines : List (List Char)} {a i : ℕ}

end

/-! ## Steps -/

section
variable {lines : List (List Char)} {a i l n : ℕ} {line : List Char} {e item : OpenEntry}

/-- The turns of the text in YAML. -/
def turns (lines : List (List Char)) : List Turn := outliner.output outliner.start lines.flatten

/-- The turns of the first lines. -/
def turnsBefore (lines : List (List Char)) (i : ℕ) : List Turn := turns (lines.take i)

/-- Turn number `n` is one of line `i`. -/
def OnLine (lines : List (List Char)) (i n : ℕ) : Prop :=
  (turnsBefore lines i).length ≤ n ∧ n < (turnsBefore lines (i + 1)).length

instance : Decidable (OnLine lines i n) := inferInstanceAs (Decidable (_ ∧ _))

/-- Line `a` has the `uses` of the item, a step in block style, and is not left of its dash. -/
def BlockStep (lines : List (List Char)) (a : ℕ) (item : OpenEntry) : Prop :=
  ∃ (action : List Char) (uses : OpenEntry) (below : List OpenEntry), lines[a]? = some action ∧
    item.column ≤ lineIndent action ∧ item.key = none ∧ OnLine lines a uses.place ∧
      uses.key = some "uses".toList ∧ uses.depth = 0 ∧
        openAt (turns lines) uses.place = uses :: item :: below

/-- An item of a block sequence ends at the entries that are not further right. -/
theorem holds_block_iff {item : Spot} {column : ℕ} {key : Option (List Char)}
    (hblock : item.depth = 0) (hkey : item.key = none) :
    item.holds ⟨0, column, key⟩ = true ↔ item.column < column := by
  rw [Spot.holds_iff]
  cases key with
  | none => simp [Spot.rank, hblock, hkey]
  | some key =>
    simp only [Spot.rank, hblock, hkey]
    simp
    omega

/-- A step in block style is an item of a block sequence that begins before its `uses`, left of
    it, and goes on to it. -/
theorem BlockStep.uses (h : BlockStep lines a item) :
    ∃ (action : List Char) (uses : OpenEntry) (below : List OpenEntry), lines[a]? = some action ∧
      item.column ≤ lineIndent action ∧ item.key = none ∧ item.depth = 0 ∧
        item.column < uses.column ∧ OnLine lines a uses.place ∧
        (turns lines)[uses.place]? = some (.enter ⟨0, uses.column, uses.key⟩) ∧
          item.place ≤ uses.place ∧ openAt (turns lines) item.place = item :: below ∧
            ∀ k t, item.place < k → k ≤ uses.place → (turns lines)[k]? = some t →
              t.keeps item.toSpot = true := by
  obtain ⟨action, uses, below, haction, hindent, hkey, huses, huseKey, hdepth, hopen⟩ := h
  have hmem : uses ∈ openAt (turns lines) uses.place := by
    rw [hopen]
    exact List.mem_cons_self ..
  have hunder : openAt (turns lines) uses.place = [uses] ++ item :: below := hopen
  obtain ⟨hplace, hbegan, hearlier⟩ := openEntries_place (lt_of_openAt hmem) hunder
  have hholds : item.holds uses.toSpot = true := by
    have hnested : Nested (uses :: item :: below) := hopen ▸ nested_openEntries
    exact (List.pairwise_cons.1 hnested).1 item (List.mem_cons_self ..)
  have hblock : item.depth = 0 := by
    have hcases := Spot.holds_iff.1 hholds
    omega
  have hspot : uses.toSpot = ⟨0, uses.column, uses.key⟩ := by rw [← hdepth]
  have henter : (turns lines)[uses.place]? = some (.enter uses.toSpot) :=
    enter_of_openAt hmem (by rw [huseKey]; rfl)
  rw [hspot] at hholds henter
  exact ⟨action, uses, below, haction, hindent, hkey, hblock,
    (holds_block_iff hblock hkey).1 hholds, huses, henter, Nat.le_of_lt_succ hplace, hbegan,
    fun k t hk hkn => hearlier k t hk (Nat.lt_succ_of_le hkn)⟩

end

section
variable {workflowPath workflowText : List Char} {latestToolTags : List Char → Option (List Char)}

/-- A workflow with two jobs. -/
def workflow : List Char :=
  ["jobs:\n", "  check:\n", "    runs-on: ubuntu-latest\n", "    steps:\n",
    "      - uses: docker/setup-compose-action@v2\n", "  publish:\n",
    "    uses: ./.github/workflows/publish.yaml\n", "    with:\n",
    "      version: 1.4.0\n"].flatMap String.toList

end

end FastapiTemplate.Management
