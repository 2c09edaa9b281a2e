/-
  The structure of a YAML text: which items of sequences and keys of mappings a
  place in it stands under (`openAt`), in block and in flow collections.

  The entries are taken from the marks that `scanner` finds (`outliner`).  A block
  entry ends where another one begins that is not further in, a flow entry with
  its collection; what an entry stands under never changes while it is open
  (`openEntries_place`, `openEntries_of_kept`).  Keys after a `?` are not read.
-/
import FastapiTemplate.Lib.Yaml
import Mathlib.Data.List.Induction
import Mathlib.Data.Nat.Init

namespace Yaml

/-! ## Entries -/

/-- An item of a sequence (without a key) or a key of a mapping: in how many flow collections it
    is, and where it stands on its line if in none. -/
structure Spot where
  depth : ℕ
  column : ℕ
  key : Option (List Char)
  deriving DecidableEq

/-- Among the entries of one depth: a key comes before the sequence at its column, and an item of
    a flow sequence before the key of a pair in it. -/
def Spot.rank (e : Spot) : ℕ :=
  if e.depth = 0 then 2 * e.column + (if e.key.isSome then 0 else 1)
  else if e.key.isSome then 1 else 0

/-- An entry stays open when another one begins. -/
def Spot.holds (outer inner : Spot) : Bool :=
  outer.depth < inner.depth || (outer.depth == inner.depth && outer.rank < inner.rank)

/-- What happens to the open entries, or something else in the text. -/
inductive Turn where
  | enter (spot : Spot)
  /-- The flow collection ends, and what is deeper than it. -/
  | leave (depth : ℕ)
  /-- What comes next is deeper by one; in a sequence it is another item. -/
  | next (depth : ℕ)
  | other (e : Event)
  deriving DecidableEq

/-- An entry with the number of the turn at which it begins. -/
structure OpenEntry extends Spot where
  place : ℕ
  deriving DecidableEq

/-- The entries that are open after turn number `n`, innermost first. -/
def Turn.apply (n : ℕ) (stack : List OpenEntry) : Turn → List OpenEntry
  | .enter spot => ⟨spot, n⟩ :: stack.filter fun e => e.holds spot
  | .leave depth => stack.filter fun e => e.depth ≤ depth
  | .next depth =>
    (if stack.any fun e => e.depth == depth + 1 && e.key.isNone then [⟨⟨depth + 1, 0, none⟩, n⟩]
      else []) ++ stack.filter fun e => e.depth ≤ depth
  | .other _ => stack

/-- The entries that are open after the turns, from turn number `n` on. -/
def openFrom : ℕ → List OpenEntry → List Turn → List OpenEntry
  | _, stack, [] => stack
  | n, stack, t :: turns => openFrom (n + 1) (t.apply n stack) turns

/-- The entries that are open after the turns. -/
def openEntries (turns : List Turn) : List OpenEntry := openFrom 0 [] turns

/-- The entries that are open at a turn; one that begins with it comes first. -/
def openAt (turns : List Turn) (n : ℕ) : List OpenEntry := openEntries (turns.take (n + 1))

/-- The turn does not end the entry. -/
def Turn.keeps (x : Spot) : Turn → Bool
  | .enter spot => x.holds spot
  | .leave depth | .next depth => x.depth ≤ depth
  | .other _ => true

section
variable {x y z : Spot} {e : OpenEntry} {stack above below : List OpenEntry}
  {turns : List Turn} {t : Turn} {n k : ℕ}

theorem Spot.holds_iff : x.holds y = true ↔
    x.depth < y.depth ∨ x.depth = y.depth ∧ x.rank < y.rank := by
  simp [holds]

theorem Spot.holds_trans (h : x.holds y = true) (h' : y.holds z = true) : x.holds z = true := by
  rw [holds_iff] at h h' ⊢
  omega

/-- What an entry stands under is open as long as it is. -/
theorem Turn.keeps_outer (h : y.holds x = true) (hx : t.keeps x = true) : t.keeps y = true := by
  cases t with
  | enter spot => exact Spot.holds_trans h hx
  | leave depth | next depth =>
    have hdepth : y.depth ≤ x.depth := by
      rw [Spot.holds_iff] at h
      omega
    exact decide_eq_true (Nat.le_trans hdepth (of_decide_eq_true hx))
  | other => rfl

/-- Each entry stands under those after it. -/
def Nested (stack : List OpenEntry) : Prop :=
  stack.Pairwise fun inner outer => outer.holds inner.toSpot = true

/-- A turn keeps entries, under one that begins with it. -/
theorem Turn.apply_eq (t : Turn) (n : ℕ) (stack : List OpenEntry) : ∃ begun,
    t.apply n stack = begun ++ stack.filter (fun e => t.keeps e.toSpot) ∧
      (begun = [] ∨ ∃ spot, begun = [⟨spot, n⟩] ∧
        ∀ e : OpenEntry, t.keeps e.toSpot = true → e.holds spot = true) := by
  cases t with
  | enter spot => exact ⟨[⟨spot, n⟩], rfl, .inr ⟨spot, rfl, fun e he => he⟩⟩
  | leave depth => exact ⟨[], rfl, .inl rfl⟩
  | next depth =>
    refine ⟨_, rfl, ?_⟩
    split_ifs
    · refine .inr ⟨_, rfl, fun e he => ?_⟩
      have hdepth : e.depth ≤ depth := of_decide_eq_true he
      exact Spot.holds_iff.2 (.inl (Nat.lt_succ_of_le hdepth))
    · exact .inl rfl
  | other e => exact ⟨[], by simp [apply, keeps], .inl rfl⟩

theorem Nested.apply (h : Nested stack) : Nested (t.apply n stack) := by
  obtain ⟨begun, happly, hbegun⟩ := t.apply_eq n stack
  rw [happly]
  have hfilter : Nested (stack.filter fun e => t.keeps e.toSpot) := h.filter _
  rcases hbegun with rfl | ⟨spot, rfl, hspot⟩
  · exact hfilter
  · exact List.pairwise_cons.2 ⟨fun e he => hspot e (List.mem_filter.1 he).2, hfilter⟩

theorem openFrom_append {later : List Turn} : openFrom n stack (turns ++ later) =
    openFrom (n + turns.length) (openFrom n stack turns) later := by
  induction turns generalizing n stack with
  | nil => rfl
  | cons t turns ih =>
    have hcount : n + (t :: turns).length = n + 1 + turns.length := by
      rw [List.length_cons]
      omega
    rw [hcount]
    exact ih

theorem openEntries_concat :
    openEntries (turns ++ [t]) = t.apply turns.length (openEntries turns) := by
  rw [openEntries, openFrom_append, Nat.zero_add]
  rfl

theorem openEntries_take (h : turns[n]? = some t) :
    openEntries (turns.take (n + 1)) = t.apply n (openEntries (turns.take n)) := by
  have hlength : (turns.take n).length = n :=
    List.length_take_of_le (Nat.le_of_lt (List.getElem?_eq_some_iff.1 h).1)
  rw [List.take_add_one, h, Option.toList_some, openEntries_concat, hlength]

/-- The entries that are open stand under each other. -/
theorem nested_openEntries : Nested (openEntries turns) := by
  induction turns using List.reverseRecOn with
  | nil => exact .nil
  | append_singleton turns t ih =>
    rw [openEntries_concat]
    exact ih.apply

theorem place_lt (h : e ∈ openEntries turns) : e.place < turns.length := by
  induction turns using List.reverseRecOn with
  | nil => cases h
  | append_singleton turns t ih =>
    rw [openEntries_concat] at h
    rw [List.length_append, List.length_singleton]
    obtain ⟨begun, happly, hbegun⟩ := t.apply_eq turns.length (openEntries turns)
    rw [happly] at h
    rcases List.mem_append.1 h with h | h
    · rcases hbegun with rfl | ⟨spot, rfl, -⟩
      · cases h
      · rw [List.mem_singleton.1 h]
        exact Nat.lt_succ_self _
    · exact Nat.lt_succ_of_lt (ih (List.mem_filter.1 h).1)

/-- What an entry stands under is kept with it. -/
theorem filter_below (h : Nested (above ++ e :: below)) (he : t.keeps e.toSpot = true) :
    below.filter (fun e => t.keeps e.toSpot) = below := by
  refine List.filter_eq_self.2 fun outer houter => ?_
  exact Turn.keeps_outer ((List.pairwise_cons.1 (List.pairwise_append.1 h).2.1).1 outer houter) he

/-- **An entry that is open** began over what it stands under, and nothing has ended it since. -/
theorem openEntries_place (hn : n ≤ turns.length)
    (h : openEntries (turns.take n) = above ++ e :: below) :
    e.place < n ∧ openAt turns e.place = e :: below ∧
      ∀ k t, e.place < k → k < n → turns[k]? = some t → t.keeps e.toSpot = true := by
  induction n generalizing above with
  | zero =>
    rw [List.take_zero] at h
    cases above <;> cases h
  | succ n ih =>
    have hlast : turns[n]? = some turns[n] := List.getElem?_eq_getElem hn
    have hstep := openEntries_take hlast
    obtain ⟨begun, happly, hbegun⟩ := (turns[n]).apply_eq n (openEntries (turns.take n))
    have hkept : ∀ above', (openEntries (turns.take n)).filter
        (fun e => (turns[n]).keeps e.toSpot) = above' ++ e :: below →
        e.place < n + 1 ∧ openAt turns e.place = e :: below ∧
          ∀ k t, e.place < k → k < n + 1 → turns[k]? = some t → t.keeps e.toSpot = true := by
      intro above' hfilter
      obtain ⟨front, back, hsplit, -, hback⟩ := List.filter_eq_append_iff.1 hfilter
      obtain ⟨more, tail, rfl, -, he, htail⟩ := List.filter_eq_cons_iff.1 hback
      rw [← List.append_assoc] at hsplit
      have hnested : Nested ((front ++ more) ++ e :: tail) := hsplit ▸ nested_openEntries
      rw [filter_below hnested he] at htail
      subst htail
      obtain ⟨hplace, hopen, hkeeps⟩ := ih (Nat.le_of_succ_le hn) hsplit
      refine ⟨Nat.lt_succ_of_lt hplace, hopen, fun k t hk hkn ht => ?_⟩
      rcases Nat.lt_succ_iff_lt_or_eq.1 hkn with hkn | rfl
      · exact hkeeps k t hk hkn ht
      · obtain rfl := Option.some.inj (hlast.symm.trans ht)
        exact he
    rw [hstep, happly] at h
    rcases hbegun with rfl | ⟨spot, rfl, -⟩
    · exact hkept above h
    · cases above with
      | nil =>
        -- it begins with this turn
        obtain ⟨rfl, hbelow⟩ := List.cons.inj h
        refine ⟨Nat.lt_succ_self n, ?_,
          fun k t hk hkn => absurd hk (Nat.not_lt.2 (Nat.le_of_lt_succ hkn))⟩
        rw [openAt, hstep, happly, ← hbelow]
        rfl
      | cons first above => exact hkept above (List.cons.inj h).2

theorem lt_of_openAt (h : e ∈ openAt turns e.place) : e.place < turns.length := by
  by_contra hge
  have hall : turns.take (e.place + 1) = turns := List.take_of_length_le (by omega)
  rw [openAt, hall] at h
  exact hge (place_lt h)

/-- A key that is open has begun where it says. -/
theorem enter_of_openAt (h : e ∈ openAt turns e.place) (hkey : e.key.isSome = true) :
    turns[e.place]? = some (.enter e.toSpot) := by
  have hlt := lt_of_openAt h
  have hturn : turns[e.place]? = some turns[e.place] := List.getElem?_eq_getElem hlt
  have hnot : ∀ p, e ∉ (openEntries (turns.take e.place)).filter p := by
    intro p hp
    have hplace := place_lt (List.mem_filter.1 hp).1
    rw [List.length_take_of_le (Nat.le_of_lt hlt)] at hplace
    exact Nat.lt_irrefl _ hplace
  rw [openAt, openEntries_take hturn] at h
  rw [hturn]
  cases hcase : turns[e.place] with
  | enter spot =>
    rw [hcase] at h
    rcases List.mem_cons.1 h with h | h
    · rw [h]
    · exact absurd h (hnot _)
  | leave depth =>
    rw [hcase] at h
    exact absurd h (hnot _)
  | next depth =>
    rw [hcase] at h
    rcases List.mem_append.1 h with h | h
    · split_ifs at h
      · rw [List.mem_singleton.1 h] at hkey
        cases hkey
      · cases h
    · exact absurd h (hnot _)
  | other event =>
    rw [hcase] at h
    have hplace := place_lt h
    rw [List.length_take_of_le (Nat.le_of_lt hlt)] at hplace
    exact absurd hplace (Nat.lt_irrefl _)

end

/-! ## Reading the entries -/

/-- The state of the reader: how far `scanner` is, on which column of its line, where the scalar or
    the mark began that may become an entry, and what the last scalar was. -/
structure Outline where
  scan : Scan
  column : ℕ
  start : Option ℕ
  scalar : List Char
  deriving DecidableEq

def Event.isScalar : Event → Bool
  | scalar _ => true
  | _ => false

namespace Outline

/-- With the character begins what may become an entry. -/
def begins (o : Outline) (scan : Scan) (events : List Event) : Bool :=
  match o.scan.mode, scan.mode with
  | .indicator _, _ => false
  | _, .indicator _ => scan.head
  | _, _ => events.any Event.isScalar

/-- What an event does to the open entries; a key of a block mapping is not longer than a line. -/
def turn (o : Outline) (e : Event) : Turn :=
  match e, o.scan.depth, o.start with
  | .mark '-', 0, some column => .enter ⟨0, column, none⟩
  | .mark ':', 0, some column => .enter ⟨0, column, some o.scalar⟩
  | .mark ':', depth + 1, _ => .enter ⟨depth + 1, 0, some o.scalar⟩
  | .mark '[', depth, _ => .enter ⟨depth + 1, 0, none⟩
  | .mark ',', depth, _ => .next (depth - 1)
  | .mark ']', depth, _ | .mark '}', depth, _ => .leave (depth - 1)
  | e, _, _ => .other e

/-- The text of the last scalar. -/
def readScalar (scalar : List Char) : Event → List Char
  | .scalar _ => []
  | .char c => scalar ++ [c]
  | _ => scalar

def step (o : Outline) (c : Char) : Outline × List Turn :=
  let (scan, events) := o.scan.step c
  ({ scan := scan
     column := if c = '\n' then 0 else o.column + 1
     start := if c = '\n' then none else if o.begins scan events then some o.column else o.start
     scalar := events.foldl readScalar o.scalar }, events.map o.turn)

end Outline

/-- The reader of entries. -/
def outliner : Reader Turn where
  State := Outline
  start := ⟨⟨.line 0, true, 0, 0, 1⟩, 0, none, []⟩
  step := Outline.step
  finish o := (o.scan.step '\n').2.map o.turn

example : (openEntries (outliner.output outliner.start "a:\n- b: \x7bc: [d, e".toList)).map
    (fun e => e.key) = [none, some ['c'], some ['b'], none, some ['a']] := by
  decide

namespace Outline

variable {o : Outline} {c : Char} {text : List Char} {n column : ℕ} {key : Option (List Char)}

/-- A block entry begins where its key or its mark did. -/
theorem start_of_turn {e : Event} (h : o.turn e = .enter ⟨0, column, key⟩) :
    o.start = some column := by
  unfold turn at h
  split at h <;> simp_all

/-- What may become an entry on the rest of the line is at column `n` or after it. -/
structure AtLeast (n : ℕ) (o : Outline) : Prop where
  column : n ≤ o.column
  start : ∀ k, o.start = some k → n ≤ k

theorem AtLeast.step (h : o.AtLeast n) (hc : c ≠ '\n') : (o.step c).1.AtLeast n := by
  refine ⟨?_, fun k hk => ?_⟩
  · simpa [Outline.step, hc] using Nat.le_succ_of_le h.column
  · simp only [Outline.step, hc, if_false] at hk
    split_ifs at hk
    · obtain rfl := Option.some.inj hk
      exact h.column
    · exact h.start k hk

theorem newline_tail {d : Char} (h : '\n' ∉ (c :: d :: text).dropLast) :
    c ≠ '\n' ∧ '\n' ∉ (d :: text).dropLast := by
  rw [List.dropLast_cons_of_ne_nil (List.cons_ne_nil d text), List.mem_cons, not_or] at h
  exact ⟨Ne.symm h.1, h.2⟩

theorem AtLeast.turns (h : o.AtLeast n) (hline : '\n' ∉ text.dropLast) :
    .enter ⟨0, column, key⟩ ∈ outliner.output o text → n ≤ column := by
  induction text generalizing o with
  | nil => exact fun ht => absurd ht (List.not_mem_nil)
  | cons c text ih =>
    intro ht
    rcases List.mem_append.1 ht with ht | ht
    · obtain ⟨e, -, he⟩ := List.mem_map.1 ht
      exact h.start column (start_of_turn he)
    · cases text with
      | nil => exact absurd ht (List.not_mem_nil)
      | cons d text =>
        obtain ⟨hc, hline⟩ := newline_tail hline
        exact ih (h.step hc) hline ht

/-- Nothing on the line so far began after the current column. -/
def Tidy (o : Outline) : Prop := ∀ k, o.start = some k → k ≤ o.column

theorem Tidy.step (h : o.Tidy) : (o.step c).1.Tidy := by
  intro k hk
  by_cases hc : c = '\n'
  · simp [Outline.step, hc] at hk
  · simp only [Outline.step, hc, if_false] at hk ⊢
    split_ifs at hk
    · obtain rfl := Option.some.inj hk
      exact Nat.le_succ _
    · exact Nat.le_succ_of_le (h k hk)

theorem Tidy.state (h : o.Tidy) : (outliner.state o text).Tidy := by
  induction text generalizing o with
  | nil => exact h
  | cons c text ih => exact ih h.step

end Outline

end Yaml
