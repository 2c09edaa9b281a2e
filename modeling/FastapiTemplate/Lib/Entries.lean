/-
  Dictionaries as lists of entries.
-/
import Mathlib.Data.List.Basic
import Mathlib.Data.List.Nodup

namespace Entries

variable {κ α β : Type} [BEq κ] {entries : List (κ × α)} {key key' : κ} {value : α}

theorem lookup_map_snd (f : α → β) : (entries.map fun e => (e.1, f e.2)).lookup key =
    (entries.lookup key).map f := by
  induction entries with
  | nil => rfl
  | cons e entries ih =>
    rw [List.map_cons, List.lookup_cons, List.lookup_cons, ih]
    cases key == e.1 <;> rfl

variable [LawfulBEq κ]

theorem lookup_cons_of_ne {e : κ × α} (h : key ≠ e.1) :
    (e :: entries).lookup key = entries.lookup key := by
  rw [List.lookup_cons, beq_eq_false_iff_ne.2 h]

theorem lookup_cons_of_eq {e : κ × α} (h : key = e.1) : (e :: entries).lookup key = some e.2 := by
  rw [List.lookup_cons, beq_iff_eq.2 h]

theorem lookup_eq_none_of_notMem (h : key ∉ entries.map Prod.fst) : entries.lookup key = none := by
  rw [List.lookup_eq_none_iff]
  intro e he
  refine bne_iff_ne.2 fun heq => h ?_
  rw [heq]
  exact List.mem_map_of_mem he

theorem mem_of_lookup (h : entries.lookup key = some value) : (key, value) ∈ entries := by
  obtain ⟨before, after, heq, -⟩ := List.lookup_eq_some_iff.1 h
  rw [heq]
  exact List.mem_append_right _ List.mem_cons_self

/-- A dictionary finds what it holds. -/
theorem lookup_of_mem (hkeys : (entries.map Prod.fst).Nodup) (h : (key, value) ∈ entries) :
    entries.lookup key = some value := by
  induction entries with
  | nil => cases h
  | cons e entries ih =>
    obtain ⟨hmem, hkeys⟩ := List.nodup_cons.1 hkeys
    rcases List.mem_cons.1 h with rfl | h
    · exact lookup_cons_of_eq rfl
    · have hne : key ≠ e.1 := fun heq => hmem (heq ▸ List.mem_map_of_mem h)
      rw [lookup_cons_of_ne hne]
      exact ih hkeys h

theorem all_iff_lookup {p : κ × α → Bool} (hkeys : (entries.map Prod.fst).Nodup) :
    entries.all p = true ↔ ∀ key value, entries.lookup key = some value →
    p (key, value) = true := by
  rw [List.all_eq_true]
  constructor
  · exact fun h key value hlookup => h _ (mem_of_lookup hlookup)
  · exact fun h e he => h e.1 e.2 (lookup_of_mem hkeys he)

/-- The entries that are kept are found with their new values. -/
theorem lookup_filter_map (hkeys : (entries.map Prod.fst).Nodup) (p : κ × α → Bool) (f : κ × α → β)
    {e : κ × α}
    (he : e ∈ entries) : ((entries.filter p).map fun e => (e.1, f e)).lookup e.1 =
    if p e then some (f e) else none := by
  induction entries with
  | nil => cases he
  | cons d entries ih =>
    obtain ⟨hmem, hkeys⟩ := List.nodup_cons.1 hkeys
    rcases List.mem_cons.1 he with rfl | he
    · by_cases hp : p e = true
      · rw [List.filter_cons_of_pos hp, List.map_cons, List.lookup_cons_self, if_pos hp]
      · rw [List.filter_cons_of_neg hp, if_neg hp]
        refine lookup_eq_none_of_notMem fun hfound => hmem ?_
        rw [List.map_map] at hfound
        obtain ⟨e', he', heq⟩ := List.mem_map.1 hfound
        exact List.mem_map.2 ⟨e', List.mem_of_mem_filter he', heq⟩
    · have hne : e.1 ≠ (d.1, f d).1 := fun heq => hmem (heq ▸ List.mem_map_of_mem he)
      by_cases hp : p d = true
      · rw [List.filter_cons_of_pos hp, List.map_cons, lookup_cons_of_ne hne, ih hkeys he]
      · rw [List.filter_cons_of_neg hp, ih hkeys he]

theorem lookup_append_of_notMem [DecidableEq κ] (h : key ∉ entries.map Prod.fst) :
    (entries ++ [(key, value)]).lookup key' = if key' =
    key then some value else entries.lookup key' := by
  rw [List.lookup_append]
  split_ifs with heq
  · rw [heq, lookup_eq_none_of_notMem h, Option.none_or, List.lookup_cons_self]
  · rw [lookup_cons_of_ne heq]
    cases entries.lookup key' <;> rfl

/-- The value of a key is replaced. -/
theorem lookup_replaced [DecidableEq κ] (h : key ∈ entries.map Prod.fst) :
    (entries.map fun e => if e.1 = key then (key, value) else e).lookup key' =
      if key' = key then some value else entries.lookup key' := by
  induction entries with
  | nil => cases h
  | cons e entries ih =>
    rw [List.map_cons]
    by_cases hfirst : e.1 = key
    · rw [if_pos hfirst]
      by_cases hkey : key' = key
      · rw [lookup_cons_of_eq hkey, if_pos hkey]
      · have hne : key' ≠ e.1 := hfirst ▸ hkey
        rw [lookup_cons_of_ne hkey, lookup_cons_of_ne hne]
        by_cases hmem : key ∈ entries.map Prod.fst
        · rw [ih hmem, if_neg hkey]
        · -- no other entry has the key
          have hsame : entries.map (fun e => if e.1 = key then (key, value) else e) =
              entries.map id :=
            List.map_congr_left fun e' he' => if_neg fun heq : e'.1 = key =>
              hmem (heq ▸ List.mem_map_of_mem he')
          rw [if_neg hkey, hsame, List.map_id]
    · rw [if_neg hfirst]
      have hmem : key ∈ entries.map Prod.fst := by
        rw [List.map_cons, List.mem_cons] at h
        exact h.resolve_left fun heq => hfirst heq.symm
      by_cases hkey : key' = e.1
      · have hne : key' ≠ key := hkey ▸ hfirst
        rw [lookup_cons_of_eq hkey, lookup_cons_of_eq hkey, if_neg hne]
      · rw [lookup_cons_of_ne hkey, lookup_cons_of_ne hkey, ih hmem]

end Entries
