/-
  The maximal runs of the elements that have a property, with every other
  element as a part by itself.
-/
import Mathlib.Data.List.SplitBy
import Mathlib.Data.List.TakeWhile

namespace Runs

variable {α : Type} (p : α → Bool)

/-- The parts of a list: its maximal runs of elements with `p`, and the other elements. -/
def parts (xs : List α) : List (List α) := xs.splitBy fun a b => p a && p b

/-- Elements with `p`, and at least one. -/
structure IsRun (xs : List α) : Prop where
  nonempty : xs ≠ []
  all : ∀ a ∈ xs, p a = true

variable {p} {xs ys : List α} {a : α}

theorem parts_flatten : (parts p xs).flatten = xs := List.flatten_splitBy ..

theorem parts_flatMap_id : (parts p xs).flatMap id = xs := by
  rw [List.flatMap_id, parts_flatten]

@[simp] theorem parts_nil : parts p [] = [] := rfl

/-- An element without the property is a part. -/
theorem parts_cons (ha : p a = false) : parts p (a :: xs) = [a] :: parts p xs := by
  have happend :=
    List.splitBy_append (r := fun a b => p a && p b) (l := [a]) (m := xs) (by simp [ha])
  exact happend

/-- A run that does not go on is a part. -/
theorem parts_append (hxs : IsRun p xs) (hys : ys.head?.all (fun a => !p a) = true) :
    parts p (xs ++ ys) = xs :: parts p ys := by
  have hends : ∀ x ∈ xs.getLast?, ∀ y ∈ ys.head?, (p x && p y) = false := by
    intro x _ y hy
    rw [Option.mem_def.1 hy] at hys
    simpa using fun _ => by simpa using hys
  have hchain : xs.IsChain fun a b => (p a && p b) = true := by
    refine List.Pairwise.isChain (List.pairwise_iff_forall_sublist.2 fun {a b} hab => ?_)
    simp [hxs.all a (hab.subset (by simp)), hxs.all b (hab.subset (by simp))]
  rw [parts, List.splitBy_append hends, List.splitBy_of_isChain hxs.nonempty hchain]
  rfl

/-- Induction on the parts. -/
@[elab_as_elim]
theorem parts_induction {motive : List α → Prop} (nil : motive [])
    (cons : ∀ a xs, p a = false → motive xs → motive (a :: xs))
    (run : ∀ xs ys, IsRun p xs → ys.head?.all (fun a => !p a) = true → motive ys →
    motive (xs ++ ys))
    (xs : List α) : motive xs := by
  induction hn : xs.length using Nat.strongRecOn generalizing xs with
  | ind n ih =>
    subst hn
    rcases xs with _ | ⟨a, xs⟩
    · exact nil
    cases ha : p a with
    | false => exact cons a xs ha (ih _ (by simp) xs rfl)
    | true =>
      have hrun : IsRun p (a :: xs.takeWhile p) := by
        refine ⟨by simp, ?_⟩
        rintro b (_ | ⟨_, hb⟩)
        · exact ha
        · exact List.mem_takeWhile_imp hb
      have hstop : (xs.dropWhile p).head?.all (fun a => !p a) = true := by
        have hnot := List.head?_dropWhile_not p xs
        cases hhead : (xs.dropWhile p).head? with
        | none => rfl
        | some b => simpa [hhead] using hnot
      have hlength := (List.dropWhile_suffix p (l := xs)).length_le
      have hrest := ih (xs.dropWhile p).length (by simp; omega) (xs.dropWhile p) rfl
      have hmotive := run _ _ hrun hstop hrest
      rwa [List.cons_append, List.takeWhile_append_dropWhile] at hmotive

/-- A change of the runs, that keeps them runs, is a change of the parts. -/
theorem parts_flatMap {f : List α → List α} (hrun : ∀ xs, IsRun p xs → IsRun p (f xs))
    (hother : ∀ a, p a = false → f [a] = [a]) :
    parts p ((parts p xs).flatMap f) = (parts p xs).map f := by
  have hhead : ∀ {ys : List α}, ys.head?.all (fun a => !p a) = true →
      ((parts p ys).flatMap f).head?.all (fun a => !p a) = true := by
    intro ys hys
    rcases ys with _ | ⟨a, ys⟩
    · rfl
    · have ha : p a = false := by simpa using hys
      rw [parts_cons ha, List.flatMap_cons, hother a ha]
      exact hys
  induction xs using parts_induction (p := p) with
  | nil => rfl
  | cons a xs ha ih =>
    rw [parts_cons ha, List.flatMap_cons, hother a ha, List.singleton_append, parts_cons ha, ih,
      List.map_cons, hother a ha]
  | run xs ys hxs hys ih =>
    rw [parts_append hxs hys, List.flatMap_cons, parts_append (hrun xs hxs) (hhead hys), ih,
      List.map_cons]

end Runs
