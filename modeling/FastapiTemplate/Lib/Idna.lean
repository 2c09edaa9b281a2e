/-
  Internationalized domain names, and what case folding makes of them.

  A valid name is in lower case and normalized, and its letters are stable
  under case folding, but for two: the sharp s and the final sigma, which
  IDNA 2008 keeps.
-/
import FastapiTemplate.Lib.LetterCase

open LetterCase

/-- UTS #46 without its transitional mappings, and IDNA 2008. -/
structure Idna (table : CaseTable) where
  /-- The mapping of a character to lower case and to what it is compatible with. -/
  mapping : Char → List Char
  /-- Normalization Form C. -/
  nfc : List Char → List Char
  /-- The ASCII form of a mapped and normalized name; `none` if its labels are not valid Unicode
      labels. -/
  encode : List Char → Option (List Char)
  fold_sharp : table.fold 'ß' = ['s', 's'] ∧ table.fold 'ẞ' = ['s', 's']
  /-- What is folded stays. -/
  fold_fold : ∀ c, ∀ d ∈ table.fold c, table.fold d = [d]
  nfc_nfc : ∀ s, nfc (nfc s) = nfc s
  /-- Normalizing the parts first makes no difference. -/
  nfc_append : ∀ s t, nfc (s ++ t) = nfc (nfc s ++ nfc t)
  /-- Neither of the two letters is a composition. -/
  nfc_deviation : ∀ s, ∀ c ∈ nfc s, c = 'ß' ∨ c = 'ς' → c ∈ s
  mapping_deviation : ∀ c, ∀ d ∈ mapping c, d = 'ß' ∨ d = 'ς' → c = d ∨ c = 'ẞ'
  encode_injective : ∀ s t a, encode s = some a → encode t = some a → s = t
  encode_mapped : ∀ s a, encode s = some a → nfc (s.flatMap mapping) = s
  /-- No other letter of a valid name is unstable (RFC 5892, 2.2). -/
  encode_stable : ∀ s a, encode s = some a → ∀ c ∈ s, c ≠ 'ß' → c ≠ 'ς' →
    nfc ((table.fold c).flatMap mapping) = nfc [c]

namespace Idna

section
variable {table : CaseTable} (idna : Idna table)

/-- A name, mapped and normalized. -/
def map (s : List Char) : List Char := idna.nfc (s.flatMap idna.mapping)

/-- The ASCII form of a name. -/
def ascii (s : List Char) : Option (List Char) := idna.encode (idna.map s)

end

section
variable {table : CaseTable} {idna : Idna table} {s s' t t' : List Char} {c : Char}

theorem nfc_congr (hs : idna.nfc s = idna.nfc s') (ht : idna.nfc t = idna.nfc t') :
    idna.nfc (s ++ t) = idna.nfc (s' ++ t') := by
  rw [idna.nfc_append s t, hs, ht, ← idna.nfc_append]

theorem map_of_valid (h : (idna.encode s).isSome) : idna.map s = s := by
  obtain ⟨a, ha⟩ := Option.isSome_iff_exists.1 h
  exact idna.encode_mapped s a ha

theorem nfc_of_valid (h : (idna.encode s).isSome) : idna.nfc s = s := by
  have hmap := map_of_valid h
  rw [← hmap]
  exact idna.nfc_nfc _

theorem ascii_of_valid (h : (idna.encode s).isSome) : idna.ascii s = idna.encode s := by
  rw [ascii, map_of_valid h]

theorem map_casefold (h : ∀ c ∈ s, idna.nfc ((table.fold c).flatMap idna.mapping) = idna.nfc [c]) :
    idna.map (casefold table s) = idna.nfc s := by
  induction s with
  | nil => rfl
  | cons c s ih =>
    obtain ⟨hc, h⟩ := List.forall_mem_cons.1 h
    unfold map casefold at ih ⊢
    rw [List.flatMap_cons, List.flatMap_append]
    exact nfc_congr hc (ih h)

/-- Neither letter is folded, so neither comes out of a folded name. -/
theorem notMem_map_casefold (hc : c = 'ß' ∨ c = 'ς') : c ∉ idna.map (casefold table s) := by
  intro hmem
  obtain ⟨d, hd, hcd⟩ := List.mem_flatMap.1 (idna.nfc_deviation _ c hmem hc)
  obtain ⟨e, -, hde⟩ := List.mem_flatMap.1 hd
  have hfold := idna.fold_fold e d hde
  obtain ⟨hsharp, hcapital⟩ := idna.fold_sharp
  obtain rfl | rfl := idna.mapping_deviation d c hcd hc
  · obtain rfl | rfl := hc
    · rw [hsharp] at hfold
      cases hfold
    · rw [table.fold_sigma.2.1] at hfold
      exact absurd hfold (by decide)
  · rw [hcapital] at hfold
    cases hfold

/-- **Case folding keeps a valid name** if and only if it has neither of the two letters. -/
theorem ascii_casefold_iff (h : (idna.encode s).isSome) :
    idna.ascii (casefold table s) = idna.ascii s ↔ 'ß' ∉ s ∧ 'ς' ∉ s := by
  obtain ⟨a, ha⟩ := Option.isSome_iff_exists.1 h
  constructor
  · intro heq
    rw [ascii_of_valid h, ha] at heq
    have hsame : idna.map (casefold table s) = s := idna.encode_injective _ _ a heq ha
    have hnot (c : Char) (hc : c = 'ß' ∨ c = 'ς') : c ∉ s := by
      have hnot : c ∉ idna.map (casefold table s) := notMem_map_casefold hc
      rwa [hsame] at hnot
    exact ⟨hnot _ (.inl rfl), hnot _ (.inr rfl)⟩
  · rintro ⟨hsharp, hsigma⟩
    have hstable : ∀ c ∈ s, idna.nfc ((table.fold c).flatMap idna.mapping) = idna.nfc [c] := by
      intro c hc
      refine idna.encode_stable s a ha c hc ?_ ?_
      · rintro rfl
        exact hsharp hc
      · rintro rfl
        exact hsigma hc
    rw [ascii_of_valid h, ascii, map_casefold hstable, nfc_of_valid h]

end

end Idna
