/-
  Where a stretch of elements of one kind ends: `takeWhile` and `dropWhile` of a
  list that is put together from such a stretch and the rest, from the left and
  from the right; and where a sublist can begin or end.
-/
import Mathlib.Data.List.DropRight
import Mathlib.Data.List.Infix

namespace Spans

variable {α : Type*} {p : α → Bool} {a b c d s t : List α}

/-- What stops a stretch stays where it is. -/
theorem stop (ht : t.head?.all (fun x => !p x) = true) :
    t.takeWhile p = [] ∧ t.dropWhile p = t := by
  cases t with
  | nil => exact ⟨rfl, rfl⟩
  | cons x t =>
    have hx : ¬p x = true := by simpa using ht
    exact ⟨List.takeWhile_cons_of_neg hx, List.dropWhile_cons_of_neg hx⟩

theorem takeWhile_append_stop (hs : ∀ x ∈ s, p x = true) (ht : t.head?.all (fun x => !p x) = true) :
    (s ++ t).takeWhile p = s := by
  rw [List.takeWhile_append_of_pos hs, (stop ht).1, List.append_nil]

theorem dropWhile_append_stop (hs : ∀ x ∈ s, p x = true) (ht : t.head?.all (fun x => !p x) = true) :
    (s ++ t).dropWhile p = t := by
  rw [List.dropWhile_append_of_pos hs, (stop ht).2]

theorem dropWhile_head : (s.dropWhile p).head?.all (fun x => !p x) = true := by
  induction s with
  | nil => rfl
  | cons x s ih =>
    by_cases hx : p x = true
    · rw [List.dropWhile_cons_of_pos hx]
      exact ih
    · rw [List.dropWhile_cons_of_neg hx]
      simpa using hx

/-- What stops a stretch at the end stays where it is. -/
theorem rstop (hs : s.getLast?.all (fun x => !p x) = true) :
    s.rtakeWhile p = [] ∧ s.rdropWhile p = s := by
  cases s using List.reverseRecOn with
  | nil => exact ⟨rfl, rfl⟩
  | append_singleton s x =>
    have hx : ¬p x = true := by simpa using hs
    exact ⟨List.rtakeWhile_concat_neg _ _ _ hx, List.rdropWhile_concat_neg _ _ _ hx⟩

theorem rtakeWhile_append_stop (hs : s.getLast?.all (fun x => !p x) = true) :
    (s ++ t).rtakeWhile p = t.rtakeWhile p := by
  induction t using List.reverseRecOn with
  | nil => rw [List.append_nil, (rstop hs).1, List.rtakeWhile_nil]
  | append_singleton t x ih =>
    rw [← List.append_assoc, List.rtakeWhile_concat, List.rtakeWhile_concat, ih]

theorem rdropWhile_append_stop (hs : s.getLast?.all (fun x => !p x) = true) :
    (s ++ t).rdropWhile p = s ++ t.rdropWhile p := by
  induction t using List.reverseRecOn with
  | nil => rw [List.append_nil, (rstop hs).2, List.rdropWhile_nil, List.append_nil]
  | append_singleton t x ih =>
    rw [← List.append_assoc, List.rdropWhile_concat, List.rdropWhile_concat, ih]
    split
    · rfl
    · exact List.append_assoc ..

/-- A list is split in one way into such a stretch and a rest that stops it. -/
theorem takeWhile_unique (ha : ∀ x ∈ a, p x = true) (hb : b.head?.all (fun x => !p x) = true)
    (hc : ∀ x ∈ c, p x = true) (hd : d.head?.all (fun x => !p x) = true) (h : a ++ b = c ++ d) :
    a = c ∧ b = d := by
  have htake := congrArg (List.takeWhile p) h
  rw [takeWhile_append_stop ha hb, takeWhile_append_stop hc hd] at htake
  subst htake
  exact ⟨rfl, List.append_cancel_left h⟩

theorem notMem_of_forall {x : α} (h : ∀ y ∈ s, p y = true) (hx : p x = false) : x ∉ s := by
  intro hmem
  rw [h x hmem] at hx
  cases hx

/-! ## The last element -/

section
variable {x : α} {xs ys : List α}

theorem notMem_dropLast_of_append (h : x ∉ (xs ++ ys).dropLast) : x ∉ ys.dropLast := by
  rcases List.eq_nil_or_concat' ys with rfl | ⟨ys, d, rfl⟩
  · simp
  · rw [← List.append_assoc, List.dropLast_concat] at h
    rw [List.dropLast_concat]
    exact fun hmem => h (List.mem_append_right _ hmem)

theorem notMem_dropLast_left (h : x ∉ (xs ++ ys).dropLast) : x ∉ xs.dropLast := by
  rcases List.eq_nil_or_concat' ys with rfl | ⟨ys, d, rfl⟩
  · simpa using h
  · rw [← List.append_assoc, List.dropLast_concat] at h
    exact fun hmem => h (List.mem_append_left _ (List.dropLast_subset _ hmem))

theorem notMem_dropLast_append (hxs : x ∉ xs) (hys : x ∉ ys.dropLast) :
    x ∉ (xs ++ ys).dropLast := by
  rcases List.eq_nil_or_concat' ys with rfl | ⟨ys, d, rfl⟩
  · rw [List.append_nil]
    exact fun hmem => hxs (List.dropLast_subset _ hmem)
  · rw [List.dropLast_concat] at hys
    rw [← List.append_assoc, List.dropLast_concat]
    simp [hxs, hys]

end

/-! ## Sublists -/

section
variable {x : α} {needle xs ys : List α}

/-- A list is looked for after elements that its first one is not among. -/
theorem infix_append_of_first (h : x ∉ xs) :
    x :: needle <:+: xs ++ ys ↔ x :: needle <:+: ys := by
  induction xs with
  | nil => rfl
  | cons d xs ih =>
    rw [List.mem_cons, not_or] at h
    have hne : ¬x :: needle <+: d :: (xs ++ ys) :=
      fun hprefix => h.1 (List.cons_prefix_cons.1 hprefix).1
    rw [List.cons_append, List.infix_cons_iff, or_iff_right hne, ih h.2]

/-- A list is looked for before elements that its last one is not among. -/
theorem infix_append_of_last (h : x ∉ ys) :
    needle ++ [x] <:+: xs ++ ys ↔ needle ++ [x] <:+: xs := by
  have hreverse : x :: needle.reverse <:+: ys.reverse ++ xs.reverse ↔
      x :: needle.reverse <:+: xs.reverse :=
    infix_append_of_first (mt List.mem_reverse.1 h)
  rwa [← List.reverse_append, ← List.reverse_concat', List.reverse_infix,
    List.reverse_infix] at hreverse

end

end Spans
