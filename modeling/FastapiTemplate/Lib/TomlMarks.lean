/-
  Filling the marks of a TOML text (`loads_fill`): what is read with a mark in
  it is read with a string in the place of the mark, and the string is its
  value.
-/
import FastapiTemplate.Lib.Toml
import Mathlib.Data.List.Find

namespace Toml

/-- A basic string without escapes, in quotes or in triple quotes. -/
structure Token where
  triple : Bool
  content : List Char
  nonempty : content ≠ []
  plain : ∀ c ∈ content, c ≠ '"' ∧ c ≠ '\\' ∧ isIllegal triple c = false
  start : content.head? ≠ some '\n'

/-- What is written around a string. -/
def quotes (triple : Bool) : List Char := if triple then ['"', '"', '"'] else ['"']

/-- The string as it is written. -/
def Token.text (t : Token) : List Char := quotes t.triple ++ t.content ++ quotes t.triple

variable {α β ρ σ τ υ : Type}

/-- The text with its marks filled. -/
def fill (f : α → Token) : List (Sym α) → List (Sym β)
  | [] => []
  | .char c :: m => .char c :: fill f m
  | .mark a :: m => chars (f a).text ++ fill f m

/-- The text that has the marks written with the quotes and the content given for them. -/
def written (triple : α → Bool) (content : α → List Char) : List (Sym α) → List Char
  | [] => []
  | .char c :: m => c :: written triple content m
  | .mark a :: m => quotes (triple a) ++ content a ++ quotes (triple a) ++ written triple content m

mutual

/-- The value with its marks filled. -/
def Value.fill (f : α → Token) : Value α → Value β
  | .string s => .string s
  | .mark a => .string (f a).content
  | .scalar s => .scalar s
  | .array items => .array (fillItems f items)
  | .table entries => .table (fillEntries f entries)

def fillItems (f : α → Token) : List (Value α) → List (Value β)
  | [] => []
  | v :: items => v.fill f :: fillItems f items

def fillEntries (f : α → Token) : Table α → Table β
  | [] => []
  | (k, v) :: entries => (k, v.fill f) :: fillEntries f entries

end

mutual

/-- No mark is in the value. -/
def Value.unmarked : Value α → Bool
  | .string _ => true
  | .mark _ => false
  | .scalar _ => true
  | .array items => unmarkedItems items
  | .table entries => unmarkedEntries entries

def unmarkedItems : List (Value α) → Bool
  | [] => true
  | v :: items => v.unmarked && unmarkedItems items

def unmarkedEntries : Table α → Bool
  | [] => true
  | (_, v) :: entries => v.unmarked && unmarkedEntries entries

end

/-- What is read of a text `p` is read, filled, of the text with its marks filled, `q`. -/
def Reads (f : α → Token) (g : ρ → σ) (p : Reading α ρ) (q : Reading β σ) : Prop :=
  ∀ x m, p = some (x, m) → q = some (g x, fill f m)

variable {f : α → Token} {m m' : List (Sym α)} {c : Char} {p : Char → Bool}

/-! ## Symbols -/

theorem Token.text_cons (t : Token) : ∃ s, t.text = '"' :: s := by
  unfold Token.text quotes
  split
  · exact ⟨_, rfl⟩
  · exact ⟨_, rfl⟩

theorem Token.quote_notMem (t : Token) : '"' ∉ t.content := fun h => (t.plain _ h).1 rfl

theorem written_append {triple : α → Bool} {content : α → List Char} {m m' : List (Sym α)} :
    written triple content (m ++ m') = written triple content m ++ written triple content m' := by
  induction m with
  | nil => rfl
  | cons s m ih =>
    cases s with
    | char c => rw [List.cons_append, written, written, ih, List.cons_append]
    | mark a =>
      rw [List.cons_append, written, written, ih]
      simp only [List.append_assoc]

theorem chars_cons {s : List Char} : (chars (c :: s) : List (Sym β)) = .char c :: chars s := rfl

theorem chars_append {s t : List Char} : (chars (s ++ t) : List (Sym β)) = chars s ++ chars t :=
  List.map_append

theorem fillItems_eq (vs : List (Value α)) : (fillItems f vs : List (Value β)) =
    vs.map (Value.fill f) := by
  induction vs with
  | nil => rfl
  | cons v vs ih => rw [fillItems, ih, List.map_cons]

theorem fillEntries_eq (t : Table α) : (fillEntries f t : Table β) = t.map fun (k, v) =>
    (k, v.fill f) := by
  induction t with
  | nil => rfl
  | cons e t ih => rw [fillEntries, ih, List.map_cons]

theorem chars_written (m : List (Sym α)) :
    chars (written (fun a => (f a).triple) (fun a => (f a).content) m) =
    (fill f m : List (Sym β)) := by
  induction m with
  | nil => rfl
  | cons s m ih =>
    cases s with
    | char c => rw [written, fill, chars_cons, ih]
    | mark a => rw [written, fill, chars_append, ih, Token.text]

mutual

/-- What has no marks is filled in one way only. -/
theorem Value.unmarked_fill {f' : α → Token} :
    ∀ v : Value α, v.unmarked = true → (v.fill f : Value β) = v.fill f'
  | .string _, _ => rfl
  | .scalar _, _ => rfl
  | .array items, h => congrArg Value.array (unmarkedItems_fill items h)
  | .table entries, h => congrArg Value.table (unmarkedEntries_fill entries h)

theorem unmarkedItems_fill {f' : α → Token} :
    ∀ items : List (Value α), unmarkedItems items = true → (fillItems f items : List (Value β)) =
    fillItems f' items
  | [], _ => rfl
  | v :: items, h => by
    obtain ⟨hv, hitems⟩ := Bool.and_eq_true_iff.1 h
    rw [fillItems, fillItems, v.unmarked_fill hv, unmarkedItems_fill items hitems]

theorem unmarkedEntries_fill {f' : α → Token} :
    ∀ t : Table α, unmarkedEntries t = true → (fillEntries f t : Table β) = fillEntries f' t
  | [], _ => rfl
  | (k, v) :: t, h => by
    obtain ⟨hv, ht⟩ := Bool.and_eq_true_iff.1 h
    rw [fillEntries, fillEntries, v.unmarked_fill hv, unmarkedEntries_fill t ht]

end

theorem isNext_fill (hc : c ≠ '"') : isNext c (fill f m : List (Sym β)) = isNext c m := by
  cases m with
  | nil => rfl
  | cons s m =>
    cases s with
    | char d => rfl
    | mark a =>
      obtain ⟨s, hs⟩ := (f a).text_cons
      rw [fill, hs]
      exact beq_false_of_ne hc.symm

theorem exists_of_isNext (h : isNext c m = true) : ∃ m', m = .char c :: m' := by
  match m with
  | [] => cases h
  | .char d :: m' => exact ⟨m', by rw [beq_iff_eq.1 h]⟩
  | .mark a :: m' => cases h

/-- What comes next is the same, once it is filled. -/
theorem isNext_fill_of (h : isNext c m = true) : isNext c (fill f m : List (Sym β)) = true := by
  obtain ⟨m', rfl⟩ := exists_of_isNext h
  exact h

theorem tail_fill (h : isNext c m = true) : (fill f m : List (Sym β)).tail = fill f m.tail := by
  obtain ⟨m', rfl⟩ := exists_of_isNext h
  rfl

theorem isEmpty_fill : (fill f m : List (Sym β)).isEmpty = m.isEmpty := by
  match m with
  | [] => rfl
  | .char _ :: _ => rfl
  | .mark a :: _ =>
    obtain ⟨s, hs⟩ := (f a).text_cons
    rw [fill, hs]
    rfl

theorem quoteNext_fill : quoteNext (fill f m : List (Sym β)) = quoteNext m := by
  match m with
  | [] => rfl
  | .char _ :: _ => rfl
  | .mark a :: _ =>
    obtain ⟨s, hs⟩ := (f a).text_cons
    rw [fill, hs]
    rfl

theorem length_le_fill : m.length ≤ (fill f m : List (Sym β)).length := by
  induction m with
  | nil => exact Nat.le_refl _
  | cons s m ih =>
    cases s with
    | char c => exact Nat.succ_le_succ ih
    | mark a =>
      obtain ⟨s, hs⟩ := (f a).text_cons
      rw [fill, hs, chars_cons, List.length_cons, List.cons_append, List.length_cons,
        List.length_append]
      omega

theorem skipChars_fill (hp : p '"' = false) :
    skipChars p (fill f m : List (Sym β)) = fill f (skipChars p m) := by
  induction m with
  | nil => rfl
  | cons s m ih =>
    cases s with
    | char c =>
      by_cases hc : p c = true
      · have hleft : skipChars p (fill f (.char c :: m) : List (Sym β)) = skipChars p (fill f m) :=
          List.dropWhile_cons_of_pos hc
        have hright : skipChars p (.char c :: m) = skipChars p m := List.dropWhile_cons_of_pos hc
        rw [hleft, hright, ih]
      · have hleft : skipChars p (fill f (.char c :: m) : List (Sym β)) = fill f (.char c :: m) :=
          List.dropWhile_cons_of_neg hc
        have hright : skipChars p (.char c :: m) = .char c :: m := List.dropWhile_cons_of_neg hc
        rw [hleft, hright]
    | mark a =>
      obtain ⟨s, hs⟩ := (f a).text_cons
      have hleft : skipChars p (fill f (.mark a :: m) : List (Sym β)) = fill f (.mark a :: m) := by
        rw [fill, hs]
        exact List.dropWhile_cons_of_neg (by simp [Sym.satisfies, hp])
      have hright : skipChars p (.mark a :: m) = .mark a :: m :=
        List.dropWhile_cons_of_neg (by simp [Sym.satisfies])
      rw [hleft, hright]

/-- The characters before the first mark, and the quote that it is filled with. -/
theorem leading_fill (m : List (Sym α)) : ∃ s, leading (fill f m : List (Sym β)) = leading m ++ s ∧
    (s = [] ∨ ∃ t, s = '"' :: t) := by
  induction m with
  | nil => exact ⟨[], rfl, .inl rfl⟩
  | cons s m ih =>
    cases s with
    | char c =>
      obtain ⟨s, hs, hquote⟩ := ih
      exact ⟨s, by rw [fill, leading, leading, hs, List.cons_append], hquote⟩
    | mark a =>
      obtain ⟨s, hs⟩ := (f a).text_cons
      exact ⟨'"' :: leading (chars s ++ fill f m), by rw [fill, hs]; rfl, .inr ⟨_, rfl⟩⟩

theorem drop_fill {n : ℕ} (h : n ≤ (leading m).length) : (fill f m : List (Sym β)).drop n =
    fill f (m.drop n) := by
  induction n generalizing m with
  | zero => rfl
  | succ n ih =>
    match m with
    | [] => rfl
    | .char c :: m => exact ih (Nat.le_of_succ_le_succ h)
    | .mark a :: m => cases h

/-! ## Readings -/

namespace Reads

variable {g : ρ → σ} {g' : τ → υ} {x : ρ} {r : Reading α ρ} {r' : Reading β σ}

theorem fail : Reads f g (none : Reading α ρ) r' := fun _ _ => nofun

theorem done : Reads f g (some (x, m)) (some (g x, fill f m) : Reading β σ) := by
  rintro _ _ ⟨⟩
  rfl

theorem bind {k : ρ × List (Sym α) → Reading α τ} {k' : σ × List (Sym β) → Reading β υ}
    (h : Reads f g r r')
    (hk : ∀ x m, Reads f g' (k (x, m)) (k' (g x, fill f m))) :
    Reads f g' (r.bind k) (r'.bind k') := by
  intro y m' hy
  obtain ⟨⟨x, m⟩, hx, hy⟩ := Option.bind_eq_some_iff.1 hy
  rw [h x m hx]
  exact hk x m y m' hy

theorem map {k : ρ → τ} {k' : σ → υ} (h : Reads f g r r') (hk : ∀ x, g' (k x) = k' (g x)) :
    Reads f g' (r.map fun (x, m) => (k x, m)) (r'.map fun (x, m) => (k' x, m)) := by
  intro y m' hy
  obtain ⟨⟨x, m⟩, hx, hy⟩ := Option.map_eq_some_iff.1 hy
  cases hy
  rw [h x _ hx, hk]
  rfl

theorem ite {P Q : Prop} [Decidable P] [Decidable Q] {s : Reading α ρ} {s' : Reading β σ}
    (hPQ : P ↔ Q)
    (hr : P → Reads f g r r') (hs : ¬P → Reads f g s s') :
    Reads f g (if P then r else s) (if Q then r' else s') := by
  by_cases hP : P
  · rw [if_pos hP, if_pos (hPQ.1 hP)]
    exact hr hP
  · rw [if_neg hP, if_neg fun hQ => hP (hPQ.2 hQ)]
    exact hs hP

theorem prepend {s : List Char} {r : Reading α (List Char)} {r' : Reading β (List Char)}
    (h : Reads f id r r') :
    Reads f id (prepend s r) (prepend s r') := h.map fun _ => rfl

/-- What both readings decide on. -/
theorem option {ω : Type} {o : Option ω} {k : ω → Reading α ρ} {k' : ω → Reading β σ}
    (h : ∀ w, o = some w → Reads f g (k w) (k' w)) : Reads f g (o.bind k) (o.bind k') := by
  cases o with
  | none => exact fail
  | some w => exact h w rfl

end Reads

/-! ## Comments and strings -/

theorem skipLine_fill (h : skipLine m = some m') :
    skipLine (fill f m : List (Sym β)) = some (fill f m') := by
  fun_induction skipLine m with
  | case1 =>
    cases h
    rfl
  | case2 m =>
    cases h
    exact if_pos rfl
  | case3 => cases h
  | case4 c m hline hlegal ih =>
    rw [fill, skipLine, if_neg hline, if_neg hlegal]
    exact ih h
  | case5 => cases h

theorem skipComment_fill (h : skipComment m = some m') :
    skipComment (fill f m : List (Sym β)) = some (fill f m') := by
  unfold skipComment at h ⊢
  rw [isNext_fill (by decide)]
  split_ifs at h ⊢ with hnext
  · rw [tail_fill hnext]
    exact skipLine_fill h
  · cases h
    rfl

theorem skipCommentsAndArrayWs_fill {comment : Bool}
    (h : skipCommentsAndArrayWs comment m = some m') :
    skipCommentsAndArrayWs comment (fill f m : List (Sym β)) = some (fill f m') := by
  fun_induction skipCommentsAndArrayWs comment m with
  | case1 =>
    cases h
    rfl
  | case2 => cases h
  | case3 comment a m hcomment =>
    cases h
    obtain ⟨s, hs⟩ := (f a).text_cons
    have hnone : comment = false := by simpa using hcomment
    rw [fill, hs, hnone]
    rfl
  | case4 m ih =>
    rw [fill, skipCommentsAndArrayWs, if_pos rfl, if_pos rfl]
    exact ih h
  | case5 => cases h
  | case6 c m hline hlegal ih =>
    rw [fill, skipCommentsAndArrayWs, if_pos rfl, if_neg hline, if_neg hlegal]
    exact ih h
  | case7 comment c m hcomment hspace ih =>
    rw [fill, skipCommentsAndArrayWs, if_neg hcomment, if_pos hspace]
    exact ih h
  | case8 comment m hcomment hspace ih =>
    rw [fill, skipCommentsAndArrayWs, if_neg hcomment, if_neg hspace, if_pos rfl]
    exact ih h
  | case9 comment c m hcomment hspace hhash =>
    cases h
    rw [fill, skipCommentsAndArrayWs, if_neg hcomment, if_neg hspace, if_neg hhash]

theorem parseLiteralStr_fill :
    Reads f id (parseLiteralStr m) (parseLiteralStr (fill f m : List (Sym β))) := by
  fun_induction parseLiteralStr m with
  | case1 m =>
    rw [fill, parseLiteralStr, if_pos rfl]
    exact Reads.done
  | case2 => exact Reads.fail
  | case3 c m hquote hlegal ih =>
    rw [fill, parseLiteralStr, if_neg hquote, if_neg hlegal]
    exact ih.prepend
  | case4 => exact Reads.fail

/-- Whether two of the character come next, which is no quote. -/
theorem isNext_twice (hc : c ≠ '"') : isNext c (fill f m : List (Sym β)) = true ∧
    isNext c (fill f m : List (Sym β)).tail = true ↔
    isNext c m = true ∧ isNext c m.tail = true := by
  rw [isNext_fill hc]
  refine and_congr_right fun h => ?_
  rw [tail_fill h, isNext_fill hc]

theorem tail_twice (h : isNext c m = true ∧ isNext c m.tail = true) :
    (fill f m : List (Sym β)).tail.tail = fill f m.tail.tail := by
  rw [tail_fill h.1, tail_fill h.2]

theorem parseMultilineLiteral_fill :
    Reads f id (parseMultilineLiteral m) (parseMultilineLiteral (fill f m : List (Sym β))) := by
  fun_induction parseMultilineLiteral m with
  | case1 c m hquotes =>
    have hfilled := isNext_twice (β := β) (f := f) (m := m) (c := '\'') (by decide)
    rw [fill, parseMultilineLiteral, if_pos ⟨hquotes.1, hfilled.2 hquotes.2⟩, tail_twice hquotes.2]
    exact Reads.done
  | case2 => exact Reads.fail
  | case3 c m hquotes hlegal ih =>
    have hfilled := isNext_twice (β := β) (f := f) (m := m) (c := '\'') (by decide)
    rw [fill, parseMultilineLiteral, if_neg fun h => hquotes ⟨h.1, hfilled.1 h.2⟩, if_neg hlegal]
    exact ih.prepend
  | case4 => exact Reads.fail

/-- Where there are no two quotes, filling makes none, or the string is not read. -/
theorem quotes_or_none (h : ¬(isNext '"' m = true ∧ isNext '"' m.tail = true)) :
    ¬(isNext '"' (fill f m : List (Sym β)) = true ∧
    isNext '"' (fill f m : List (Sym β)).tail = true) ∨
      parseBasicStr true (.text false) m = none := by
  match m with
  | [] => exact .inl fun hn => by cases hn.1
  | .mark a :: m => exact .inr rfl
  | .char c :: m =>
    by_cases hc : c = '"'
    · subst hc
      match m with
      | [] => exact .inl fun hn => by cases hn.2
      | .mark a :: m =>
        refine .inr ?_
        rw [parseBasicStr, if_neg (by decide), if_pos rfl, if_neg (by decide),
          if_neg (fun hn => by cases hn.1)]
        rfl
      | .char d :: m => exact .inl fun hn => h ⟨rfl, hn.2⟩
    · exact .inl fun hn => hc (beq_iff_eq.1 hn.1)

theorem parseBasicStr_fill {multiline : Bool} {place : Place} :
    Reads f id (parseBasicStr multiline place m)
      (parseBasicStr multiline place (fill f m : List (Sym β))) := by
  fun_induction parseBasicStr multiline place m with
  | case1 skipping c m hskip ih =>
    rw [fill, parseBasicStr, if_pos hskip]
    exact ih
  | case2 skipping m hone hskip =>
    rw [fill, parseBasicStr, if_neg hskip, if_pos rfl, if_pos hone]
    exact Reads.done
  | case3 skipping m hmulti hclose hskip =>
    have hfilled : isNext '"' (fill f m : List (Sym β)) = true ∧
        isNext '"' (fill f m : List (Sym β)).tail = true :=
      ⟨isNext_fill_of hclose.1, by rw [tail_fill hclose.1]; exact isNext_fill_of hclose.2⟩
    rw [fill, parseBasicStr, if_neg hskip, if_pos rfl, if_neg hmulti, if_pos hfilled,
      tail_twice hclose]
    exact Reads.done
  | case4 skipping m hmulti hclose hskip ih =>
    have htrue : multiline = true := by simpa using hmulti
    subst htrue
    rcases quotes_or_none (β := β) (f := f) hclose with hopen | hnone
    · rw [fill, parseBasicStr, if_neg hskip, if_pos rfl, if_neg hmulti, if_neg hopen]
      exact ih.prepend
    · rw [hnone]
      exact Reads.fail
  | case5 skipping m hskip hquote ih =>
    rw [fill, parseBasicStr, if_neg hskip, if_neg hquote, if_pos rfl]
    exact ih
  | case6 => exact Reads.fail
  | case7 skipping c m hskip hquote hslash hlegal ih =>
    rw [fill, parseBasicStr, if_neg hskip, if_neg hquote, if_neg hslash, if_neg hlegal]
    exact ih.prepend
  | case8 c m hspace ih =>
    rw [fill, parseBasicStr, if_pos hspace]
    exact ih
  | case9 c m hspace hline ih =>
    rw [fill, parseBasicStr, if_neg hspace, if_pos hline]
    exact ih
  | case10 m hspace hline ih =>
    rw [fill, parseBasicStr, if_neg hspace, if_neg hline, if_pos rfl]
    exact ih
  | case11 m hspace hline hshort ih =>
    rw [fill, parseBasicStr, if_neg hspace, if_neg hline, if_neg hshort, if_pos rfl]
    exact ih
  | case12 c m hspace hline hshort hlong ih =>
    rw [fill, parseBasicStr, if_neg hspace, if_neg hline, if_neg hshort, if_neg hlong]
    exact Reads.option fun e _ => ih.prepend
  | case13 digits c m ih =>
    rw [fill, parseBasicStr, if_pos rfl]
    exact Reads.option fun e _ => ih.prepend
  | case14 missing digits c m hmissing ih =>
    rw [fill, parseBasicStr, if_neg hmissing]
    exact ih
  | case15 c m hspace ih =>
    rw [fill, parseBasicStr, if_pos hspace]
    exact ih
  | case16 m hspace ih =>
    rw [fill, parseBasicStr, if_neg hspace, if_pos rfl]
    exact ih
  | case17 => exact Reads.fail
  | case18 => exact Reads.fail

theorem closeMultiline_fill {r : Reading α (List Char)} {r' : Reading β (List Char)}
    (h : Reads f id r r') :
    Reads f id (closeMultiline c r) (closeMultiline c r') := by
  refine h.bind fun s m => ?_
  match m with
  | [] => exact Reads.done
  | .mark a :: m => exact Reads.fail
  | .char d :: [] => exact Reads.ite Iff.rfl (fun _ => Reads.done) fun _ => Reads.done
  | .char d :: .mark a :: m => exact Reads.ite Iff.rfl (fun _ => Reads.fail) fun _ => Reads.done
  | .char d :: .char e :: m =>
    exact Reads.ite Iff.rfl (fun _ => Reads.ite Iff.rfl (fun _ => Reads.done) fun _ => Reads.done)
      fun _ => Reads.done

theorem parseMultilineStr_fill {literal : Bool} :
    Reads f id (parseMultilineStr literal m)
      (parseMultilineStr literal (fill f m : List (Sym β))) := by
  have hstart :
      (if isNext '\n' (fill f m : List (Sym β)) = true then (fill f m).tail else fill f m) =
      (fill f (if isNext '\n' m = true then m.tail else m) : List (Sym β)) := by
    rw [isNext_fill (by decide)]
    split_ifs with hline
    · exact tail_fill hline
    · rfl
  unfold parseMultilineStr
  simp only [hstart]
  cases literal with
  | true => exact closeMultiline_fill parseMultilineLiteral_fill
  | false => exact closeMultiline_fill parseBasicStr_fill

/-! ## Keys -/

theorem takeWhile_leading_fill (hp : p '"' = false) :
    (leading (fill f m : List (Sym β))).takeWhile p = (leading m).takeWhile p := by
  obtain ⟨s, hs, rfl | ⟨t, rfl⟩⟩ := leading_fill (β := β) (f := f) m
  · rw [hs, List.append_nil]
  · rw [hs, List.takeWhile_append]
    split_ifs with hall
    · rw [List.takeWhile_cons_of_neg (by rw [hp]; decide), List.append_nil]
      exact (List.IsPrefix.eq_of_length (List.takeWhile_prefix p) hall).symm
    · rfl

theorem parseKeyPart_fill :
    Reads f id (parseKeyPart m) (parseKeyPart (fill f m : List (Sym β))) := by
  match m with
  | [] => exact Reads.fail
  | .mark a :: m => exact Reads.fail
  | .char c :: m =>
    have htake :=
      takeWhile_leading_fill (β := β) (f := f) (m := .char c :: m) (p := isBareKeyChar) (by decide)
    have hskip :=
      skipChars_fill (β := β) (f := f) (m := .char c :: m) (p := isBareKeyChar) (by decide)
    rw [fill] at htake hskip
    rw [fill, parseKeyPart, parseKeyPart, htake, hskip]
    exact Reads.ite Iff.rfl (fun _ => Reads.done) fun _ =>
      Reads.ite Iff.rfl (fun _ => parseLiteralStr_fill) fun _ =>
        Reads.ite Iff.rfl (fun _ => parseBasicStr_fill) fun _ => Reads.fail

theorem parseKey_fill {n n' : ℕ} (hn : n ≤ n') :
    Reads f id (parseKey n m) (parseKey n' (fill f m : List (Sym β))) := by
  induction n generalizing n' m with
  | zero => exact Reads.fail
  | succ n ih =>
    obtain ⟨n', rfl⟩ := Nat.exists_eq_add_of_le' (Nat.lt_of_lt_of_le (Nat.succ_pos n) hn)
    rw [parseKey, parseKey]
    refine parseKeyPart_fill.bind fun part m => ?_
    simp only [skipChars_fill (β := β) (f := f) (m := m) (p := isWs) (by decide),
      isNext_fill (β := β) (f := f) (m := skipChars isWs m) (c := '.') (by decide)]
    refine Reads.ite Iff.rfl (fun hdot => ?_) fun _ => Reads.done
    rw [tail_fill hdot, skipChars_fill (by decide)]
    exact (ih (Nat.le_of_succ_le_succ hn)).map fun _ => rfl

/-! ## Values -/

theorem isPrefixOf_quote {word s t : List Char} (h : '"' ∉ word) :
    word.isPrefixOf (s ++ '"' :: t) = word.isPrefixOf s := by
  induction word generalizing s with
  | nil => rfl
  | cons c word ih =>
    have hc : (c == '"') = false := beq_false_of_ne fun heq => h (heq ▸ List.mem_cons_self ..)
    cases s with
    | nil => simp [List.isPrefixOf, hc]
    | cons d s =>
      rw [List.cons_append, List.isPrefixOf, List.isPrefixOf,
      ih fun hmem => h (List.mem_cons_of_mem _ hmem)]

theorem find_word_quote {words : List (List Char)} {s t : List Char}
    (h : ∀ word ∈ words, '"' ∉ word) :
    words.find? (·.isPrefixOf (s ++ '"' :: t)) = words.find? (·.isPrefixOf s) :=
  List.find?_congr fun word hword => isPrefixOf_quote (h word hword)

/-- A scalar ends before a quote. -/
theorem parseScalar_quote {s t : List Char} : parseScalar (s ++ '"' :: t) = parseScalar s := by
  unfold parseScalar
  rw [find_word_quote (by decide), find_word_quote (by decide), Regex.match?_rejects (by decide),
    Regex.match?_rejects (by decide), Regex.match?_rejects (by decide)]
  cases RE_DATETIME.match? s with
  | some m => rfl
  | none =>
    cases RE_LOCALTIME.match? s with
    | some m => rfl
    | none => cases RE_NUMBER.match? s <;> rfl

theorem match?_length {r : Regex} {s : List Char} {n : Regex.Match} (h : r.match? s = some n) :
    n.text.length ≤ s.length := by
  rw [← Regex.run_text (List.mem_of_head? h), List.length_append]
  exact Nat.le_add_right ..

theorem find_word_length {words : List (List Char)} {s word : List Char}
    (h : words.find? (·.isPrefixOf s) = some word) : word.length ≤ s.length := by
  have hstarts := List.find?_some h
  exact (List.isPrefixOf_iff_prefix.1 hstarts).length_le

theorem parseScalar_length {s t : List Char} (h : parseScalar s = some t) :
    t.length ≤ s.length := by
  unfold parseScalar at h
  split at h
  · rename_i word hword
    cases h
    exact find_word_length hword
  · split at h
    · rename_i n hdate
      split_ifs at h
      cases h
      exact match?_length hdate
    · split at h
      · rename_i n htime
        cases h
        exact match?_length htime
      · split at h
        · rename_i n hnumber
          cases h
          exact match?_length hnumber
        · exact find_word_length h

theorem parseScalar_fill : parseScalar (leading (fill f m : List (Sym β))) =
    parseScalar (leading m) := by
  obtain ⟨s, hs, rfl | ⟨t, rfl⟩⟩ := leading_fill (β := β) (f := f) m
  · rw [hs, List.append_nil]
  · rw [hs, parseScalar_quote]

/-! ## Tables -/

section
variable {t t' : Table α} {k : List Char} {v : Value α}

theorem get?_fill : Table.get? (fillEntries f t : Table β) k = (t.get? k).map (Value.fill f) := by
  induction t with
  | nil => rfl
  | cons e t ih =>
    rw [fillEntries, Table.get?, Table.get?, List.lookup_cons, List.lookup_cons]
    cases k == e.1 with
    | true => rfl
    | false => exact ih

theorem set_fill : Table.set (fillEntries f t : Table β) k (v.fill f) =
    fillEntries f (t.set k v) := by
  induction t with
  | nil => rfl
  | cons e t ih =>
    rw [fillEntries, Table.set, Table.set]
    split_ifs with hk
    · rfl
    · rw [ih, fillEntries]

theorem isNest_fill : (v.fill f : Value β).isNest = v.isNest := by cases v <;> rfl

theorem getLast?_fillItems {items : List (Value α)} :
    (fillItems f items : List (Value β)).getLast? = items.getLast?.map (Value.fill f) := by
  rw [fillItems_eq, List.getLast?_map]

theorem fillItems_dropLast {items : List (Value α)} :
    (fillItems f items : List (Value β)).dropLast = fillItems f items.dropLast := by
  rw [fillItems_eq, fillItems_eq, List.map_dropLast]

theorem fillItems_append {items items' : List (Value α)} :
    (fillItems f (items ++ items') : List (Value β)) = fillItems f items ++ fillItems f items' := by
  rw [fillItems_eq, fillItems_eq, fillItems_eq, List.map_append]

theorem atNest_fill {accessLists : Bool} {h : Table α → Option (Table α)}
    {h' : Table β → Option (Table β)}
    (hh : ∀ t t', h t = some t' → h' (fillEntries f t) = some (fillEntries f t')) {key : Key}
    (ht : t.atNest accessLists h key = some t') :
    Table.atNest accessLists h' key (fillEntries f t) = some (fillEntries f t') := by
  induction key generalizing t t' with
  | nil => exact hh t t' ht
  | cons k key ih =>
    have hget : ((Table.get? (fillEntries f t : Table β) k).getD (.table [])) =
        ((t.get? k).getD (.table [])).fill f := by
      rw [get?_fill]
      cases t.get? k <;> rfl
    rw [Table.atNest] at ht ⊢
    rw [hget]
    cases hv : (t.get? k).getD (.table []) with
    | string s => rw [hv] at ht; cases ht
    | mark a => rw [hv] at ht; cases ht
    | scalar s => rw [hv] at ht; cases ht
    | table inner =>
      rw [hv] at ht
      obtain ⟨inner', hinner, rfl⟩ := Option.map_eq_some_iff.1 ht
      simp only [Value.fill, ih hinner, Option.map_some]
      exact congrArg some (set_fill (v := .table inner'))
    | array items =>
      rw [hv] at ht
      simp only [Value.fill, getLast?_fillItems]
      cases accessLists with
      | false => cases ht
      | true =>
        cases hlast : items.getLast? with
        | none => simp only [hlast] at ht; cases ht
        | some last =>
          cases last with
          | string s => simp only [hlast] at ht; cases ht
          | mark a => simp only [hlast] at ht; cases ht
          | scalar s => simp only [hlast] at ht; cases ht
          | array s => simp only [hlast] at ht; cases ht
          | table inner =>
            simp only [hlast] at ht
            obtain ⟨inner', hinner, rfl⟩ := Option.map_eq_some_iff.1 ht
            simp only [Option.map_some, Value.fill, ih hinner, fillItems_dropLast]
            have hitems : (fillItems f (items.dropLast ++ [.table inner']) : List (Value β)) =
                fillItems f items.dropLast ++ [.table (fillEntries f inner')] := fillItems_append
            rw [← hitems]
            exact congrArg some (set_fill (v := .array (items.dropLast ++ [.table inner'])))

theorem add_fill (h : Table.add k v t = some t') :
    Table.add k (v.fill f) (fillEntries f t : Table β) = some (fillEntries f t') := by
  unfold Table.add at h ⊢
  rw [get?_fill, Option.isSome_map]
  split_ifs at h ⊢
  cases h
  rw [set_fill]

theorem appendNest_fill (h : Table.appendNest k t = some t') :
    Table.appendNest k (fillEntries f t : Table β) = some (fillEntries f t') := by
  unfold Table.appendNest at h ⊢
  rw [get?_fill]
  cases hv : t.get? k with
  | none =>
    rw [hv] at h
    cases h
    exact congrArg some (set_fill (v := .array [.table []]))
  | some v =>
    rw [hv] at h
    cases v with
    | array items =>
      cases h
      have hitems : (fillItems f (items ++ [.table []]) : List (Value β)) =
          fillItems f items ++ [.table []] :=
        fillItems_append
      simp only [Option.map_some, Value.fill, ← hitems]
      exact congrArg some (set_fill (v := .array (items ++ [.table []])))
    | string s => cases h
    | mark a => cases h
    | scalar s => cases h
    | table inner => cases h

end

/-! ## Arrays and inline tables -/

/-- What follows the white space and the comments of an array is the same. -/
theorem skipped_bind {g : ρ → σ} {k : List (Sym α) → Reading α ρ} {k' : List (Sym β) → Reading β σ}
    (hk : ∀ m', Reads f g (k m') (k' (fill f m'))) :
    Reads f g ((skipCommentsAndArrayWs false m).bind k)
      ((skipCommentsAndArrayWs false (fill f m)).bind k') := by
  intro x m' hx
  obtain ⟨m₁, hm₁, hx⟩ := Option.bind_eq_some_iff.1 hx
  rw [skipCommentsAndArrayWs_fill hm₁]
  exact hk m₁ x m' hx

section
variable {value : List (Sym α) → Reading α (Value α)} {value' : List (Sym β) → Reading β (Value β)}
  (hvalue : ∀ m, Reads f (Value.fill f) (value m) (value' (fill f m)))
include hvalue

theorem parseKeyValuePair_fill :
    Reads f (Prod.map id (Value.fill f)) (parseKeyValuePair value m)
      (parseKeyValuePair value' (fill f m)) := by
  unfold parseKeyValuePair
  refine (parseKey_fill length_le_fill).bind fun key m => ?_
  simp only [isNext_fill (β := β) (f := f) (m := m) (c := '=') (by decide)]
  refine Reads.ite Iff.rfl (fun heq => ?_) fun _ => Reads.fail
  rw [tail_fill heq, skipChars_fill (by decide)]
  exact (hvalue _).map fun _ => rfl

theorem parseItems_fill {n n' : ℕ} (hn : n ≤ n') :
    Reads f (fillItems f) (parseItems value n m) (parseItems value' n' (fill f m)) := by
  induction n generalizing n' m with
  | zero => exact Reads.fail
  | succ n ih =>
    obtain ⟨n', rfl⟩ := Nat.exists_eq_add_of_le' (Nat.lt_of_lt_of_le (Nat.succ_pos n) hn)
    rw [parseItems, parseItems]
    refine (hvalue m).bind fun v m => skipped_bind fun m => ?_
    simp only [isNext_fill (β := β) (f := f) (m := m) (c := ']') (by decide),
      isNext_fill (β := β) (f := f) (m := m) (c := ',') (by decide)]
    refine Reads.ite Iff.rfl (fun hend => ?_) fun _ => Reads.ite Iff.rfl (fun hcomma => ?_) fun _ =>
      Reads.fail
    · rw [tail_fill hend]
      exact Reads.done
    · rw [tail_fill hcomma]
      refine skipped_bind fun m => ?_
      simp only [isNext_fill (β := β) (f := f) (m := m) (c := ']') (by decide)]
      refine Reads.ite Iff.rfl (fun hend => ?_) fun _ => ?_
      · rw [tail_fill hend]
        exact Reads.done
      · exact (ih (Nat.le_of_succ_le_succ hn)).map fun _ => rfl

theorem parseArray_fill :
    Reads f (Value.fill f) (parseArray value m) (parseArray value' (fill f m)) := by
  unfold parseArray
  refine skipped_bind fun m => ?_
  simp only [isNext_fill (β := β) (f := f) (m := m) (c := ']') (by decide)]
  refine Reads.ite Iff.rfl (fun hend => ?_) fun _ => ?_
  · rw [tail_fill hend]
    exact Reads.done
  · exact (parseItems_fill hvalue length_le_fill).map fun _ => rfl

theorem parsePairs_fill {n n' : ℕ} (hn : n ≤ n') {t : Table α} {flags : Flags} :
    Reads f (fillEntries f) (parsePairs value n t flags m)
      (parsePairs value' n' (fillEntries f t) flags (fill f m)) := by
  induction n generalizing n' m t flags with
  | zero => exact Reads.fail
  | succ n ih =>
    obtain ⟨n', rfl⟩ := Nat.exists_eq_add_of_le' (Nat.lt_of_lt_of_le (Nat.succ_pos n) hn)
    rw [parsePairs, parsePairs]
    refine (parseKeyValuePair_fill hvalue).bind fun (key, v) m => ?_
    refine Reads.ite Iff.rfl (fun _ => Reads.fail) fun _ => ?_
    intro x m' hx
    obtain ⟨t', ht', hx⟩ := Option.bind_eq_some_iff.1 hx
    have hfilled : Table.atNest false (Table.add (key.getLastD []) (v.fill f)) key.dropLast
        (fillEntries f t) = some (fillEntries f t' : Table β) :=
      atNest_fill (fun _ _ => add_fill) ht'
    simp only [id, hfilled, Option.bind_some, isNest_fill,
      skipChars_fill (β := β) (f := f) (m := m) (p := isWs) (by decide)]
    refine Reads.ite (g := fillEntries f) ?_ (fun hend => ?_)
      (fun _ => Reads.ite ?_ (fun hcomma => ?_) fun _ => Reads.fail)
      x m' hx
    · rw [isNext_fill (by decide)]
    · rw [tail_fill hend]
      exact Reads.done
    · rw [isNext_fill (by decide)]
    · rw [tail_fill hcomma, skipChars_fill (by decide)]
      exact ih (Nat.le_of_succ_le_succ hn)

theorem parseInlineTable_fill :
    Reads f (Value.fill f) (parseInlineTable value m) (parseInlineTable value' (fill f m)) := by
  unfold parseInlineTable
  simp only [skipChars_fill (β := β) (f := f) (m := m) (p := isWs) (by decide),
    isNext_fill (β := β) (f := f) (m := skipChars isWs m) (c := '}') (by decide)]
  refine Reads.ite Iff.rfl (fun hend => ?_) fun _ => ?_
  · rw [tail_fill hend]
    exact Reads.done
  · exact (parsePairs_fill hvalue length_le_fill (t := [])).map fun _ => rfl

end

/-! ## Marked values -/

theorem parseBasicStr_plain {multiline : Bool} {s : List Char} {m : List (Sym β)}
    (hs : ∀ c ∈ s, c ≠ '"' ∧ c ≠ '\\' ∧ isIllegal multiline c = false) :
    parseBasicStr multiline (.text false) (chars s ++ m) =
    prepend s (parseBasicStr multiline (.text false) m) := by
  induction s with
  | nil =>
    rw [prepend]
    exact Option.map_id'.symm
  | cons c s ih =>
    obtain ⟨hquote, hslash, hlegal⟩ := hs c (List.mem_cons_self ..)
    rw [chars_cons, List.cons_append, parseBasicStr, if_neg (by simp), if_neg hquote, if_neg hslash,
      if_neg (by rw [hlegal]; decide), ih fun d hd => hs d (List.mem_cons_of_mem _ hd), prepend,
      prepend, prepend,
      Option.map_map]
    rfl

/-- The string is read as what stands between its quotes. -/
theorem parseValue_token {t : Token} {n : ℕ} {m : List (Sym β)} (hm : quoteNext m = false) :
    parseValue (n + 1) (chars t.text ++ m) = some (.string t.content, m) := by
  obtain ⟨c, s, hcontent⟩ := List.exists_cons_of_ne_nil t.nonempty
  have hc : (c == '"') = false :=
    beq_false_of_ne (t.plain c (by rw [hcontent]; exact List.mem_cons_self ..)).1
  have hnext : ∀ m' : List (Sym β), isNext '"' (chars t.content ++ m') = false := by
    intro m'
    rw [hcontent]
    exact hc
  unfold Token.text quotes
  by_cases htriple : t.triple = true
  · rw [if_pos htriple]
    have hplain := t.plain
    rw [htriple] at hplain
    have hstart : isNext '\n' (chars t.content ++ (chars ['"', '"', '"'] ++ m)) = false := by
      have hline := t.start
      rw [hcontent] at hline ⊢
      exact beq_false_of_ne fun heq => hline (congrArg some heq)
    have hread : parseMultilineStr false (chars t.content ++ (chars ['"', '"', '"'] ++ m)) = some
        (t.content, m) := by
      have hbody :
          parseBasicStr true (.text false) (chars t.content ++ (chars ['"', '"', '"'] ++ m)) =
          some (t.content, m) := by
        rw [parseBasicStr_plain hplain]
        simp [chars, parseBasicStr, isNext, prepend]
      rw [parseMultilineStr, if_neg (by decide), if_neg (by rw [hstart]; decide), hbody,
        closeMultiline,
        Option.bind_some]
      match m with
      | [] => rfl
      | .mark a :: m => cases hm
      | .char d :: m => exact if_neg fun heq => by rw [heq] at hm; cases hm
    have htext : (chars (['"', '"', '"'] ++ t.content ++ ['"', '"', '"']) ++ m : List (Sym β)) =
        .char '"' :: .char '"' :: .char '"' ::
        (chars t.content ++ (chars ['"', '"', '"'] ++ m)) := by
      simp [chars]
    rw [htext, parseValue, if_pos rfl, if_pos ⟨rfl, rfl⟩, if_pos (by rfl)]
    exact congrArg (Option.map _) hread
  · rw [if_neg htriple]
    have hplain := t.plain
    rw [eq_false_of_ne_true htriple] at hplain
    have htext : (chars (['"'] ++ t.content ++ ['"']) ++ m : List (Sym β)) =
        .char '"' :: (chars t.content ++ .char '"' :: m) := by
      simp [chars]
    rw [htext, parseValue, if_pos rfl, if_neg (by rw [hnext]; exact fun h => by cases h.1),
      parseBasicStr_plain hplain]
    simp [parseBasicStr, prepend]

theorem parseValue_fill {n n' : ℕ} (hn : n ≤ n') :
    Reads f (Value.fill f) (parseValue n m) (parseValue n' (fill f m : List (Sym β))) := by
  induction n generalizing n' m with
  | zero => exact Reads.fail
  | succ n ih =>
    obtain ⟨n', rfl⟩ := Nat.exists_eq_add_of_le' (Nat.lt_of_lt_of_le (Nat.succ_pos n) hn)
    have hvalue :
        ∀ m, Reads f (Value.fill f) (parseValue n m) (parseValue n' (fill f m : List (Sym β))) :=
      fun m => ih (Nat.le_of_succ_le_succ hn)
    match m with
    | [] => exact Reads.fail
    | .mark a :: m =>
      rw [parseValue, fill]
      cases hm : quoteNext m with
      | true => exact Reads.fail
      | false =>
        rw [parseValue_token (by rw [quoteNext_fill, hm])]
        exact Reads.done
    | .char c :: m =>
      rw [fill, parseValue, parseValue]
      refine Reads.ite Iff.rfl (fun hc => ?_) fun hquote => ?_
      · match m with
        | [] => exact Reads.fail
        | .mark a :: m => exact Reads.fail
        | .char d :: m =>
          rw [fill]
          refine Reads.ite ?_ (fun h => ?_) fun _ => ?_
          · exact and_congr_right fun _ => by rw [List.tail_cons, List.tail_cons, quoteNext_fill]
          · by_cases hd : isNext '"' m = true
            · have hfilled : isNext '"' (fill f m : List (Sym β)) = true := isNext_fill_of hd
              rw [List.tail_cons, List.tail_cons, if_pos hd, if_pos hfilled, tail_fill hd]
              exact parseMultilineStr_fill.map fun _ => rfl
            · rw [List.tail_cons, if_neg hd]
              exact Reads.fail
          · have hread : Reads f id (parseBasicStr false (.text false) (.char d :: m))
                (parseBasicStr false (.text false) (.char d :: fill f m : List (Sym β))) :=
              parseBasicStr_fill
            exact hread.map fun _ => rfl
      · refine Reads.ite Iff.rfl (fun _ => ?_) fun _ => ?_
        · refine Reads.ite (isNext_twice (by decide)).symm (fun h => ?_) fun _ => ?_
          · rw [tail_twice h]
            exact parseMultilineStr_fill.map fun _ => rfl
          · exact parseLiteralStr_fill.map fun _ => rfl
        · refine Reads.ite Iff.rfl (fun _ => parseArray_fill hvalue) fun _ =>
            Reads.ite Iff.rfl (fun _ => parseInlineTable_fill hvalue) fun _ => ?_
          have hscalar := parseScalar_fill (β := β) (f := f) (m := .char c :: m)
          rw [fill] at hscalar
          rw [hscalar]
          intro x m' hx
          obtain ⟨s, hs, hx⟩ := Option.map_eq_some_iff.1 hx
          cases hx
          have hdrop := drop_fill (β := β) (f := f) (parseScalar_length hs)
          rw [fill] at hdrop
          rw [hs, Option.map_some, hdrop]
          rfl

/-! ## Statements -/

/-- What has been read, with its marks filled. -/
def Output.fill (f : α → Token) (out : Output α) : Output β :=
  ⟨fillEntries f out.data, out.flags, out.pending, out.header⟩

section
variable {out : Output α}

/-- The change of a nest is the same, once it is filled. -/
theorem atNest_bind {accessLists : Bool} {h : Table α → Option (Table α)}
    {h' : Table β → Option (Table β)}
    (hh : ∀ t t', h t = some t' → h' (fillEntries f t) = some (fillEntries f t')) {key : Key}
      {t : Table α}
    {g : ρ → σ} {k : Table α → Reading α ρ} {k' : Table β → Reading β σ}
    (hk : ∀ t, Reads f g (k t) (k' (fillEntries f t))) :
    Reads f g ((t.atNest accessLists h key).bind k)
      ((Table.atNest accessLists h' key (fillEntries f t)).bind k') := by
  intro x m hx
  obtain ⟨t', ht', hx⟩ := Option.bind_eq_some_iff.1 hx
  rw [atNest_fill hh ht']
  exact hk t' x m hx

theorem createDictRule_fill (hm : isNext '[' m = true) :
    Reads f (Output.fill f) (createDictRule out m)
      (createDictRule (out.fill f) (fill f m : List (Sym β))) := by
  unfold createDictRule
  rw [tail_fill hm, skipChars_fill (by decide)]
  refine (parseKey_fill ?_).bind fun key m => Reads.ite Iff.rfl (fun _ => Reads.fail) fun _ => ?_
  · exact length_le_fill
  · refine atNest_bind (fun t t' h => ?_) fun data => ?_
    · cases h
      rfl
    · refine Reads.ite ?_ (fun hend => ?_) fun _ => Reads.fail
      · rw [isNext_fill (by decide)]
      · rw [tail_fill hend]
        exact Reads.done

theorem createListRule_fill (hm : isNext '[' m = true ∧ isNext '[' m.tail = true) :
    Reads f (Output.fill f) (createListRule out m)
      (createListRule (out.fill f) (fill f m : List (Sym β))) := by
  unfold createListRule
  rw [tail_twice hm, skipChars_fill (by decide)]
  refine (parseKey_fill ?_).bind fun key m => Reads.ite Iff.rfl (fun _ => Reads.fail) fun _ => ?_
  · exact length_le_fill
  · refine atNest_bind (fun t t' => appendNest_fill) fun data => ?_
    refine Reads.ite (isNext_twice (by decide)).symm (fun hend => ?_) fun _ => Reads.fail
    rw [tail_twice hend]
    exact Reads.done

theorem keyValueRule_fill :
    Reads f (Output.fill f) (keyValueRule out m)
      (keyValueRule (out.fill f) (fill f m : List (Sym β))) := by
  unfold keyValueRule
  refine (parseKeyValuePair_fill fun m => parseValue_fill length_le_fill).bind fun (key, v) m => ?_
  refine Reads.ite Iff.rfl (fun _ => Reads.fail) fun _ => ?_
  intro x m' hx
  obtain ⟨data, hdata, hx⟩ := Option.map_eq_some_iff.1 hx
  cases hx
  have hfilled : Table.atNest true (Table.add (key.getLastD []) (v.fill f))
      (out.header ++ key.dropLast)
      (fillEntries f out.data) = some (fillEntries f data : Table β) :=
    atNest_fill (fun _ _ => add_fill) hdata
  simp only [id, Output.fill, hfilled, Option.map_some, isNest_fill]

theorem statement_fill :
    Reads f (Output.fill f) (statement out m)
      (statement (out.fill f) (fill f m : List (Sym β))) := by
  unfold statement
  rw [isNext_fill (by decide), isNext_fill (by decide)]
  refine Reads.ite Iff.rfl (fun hheader => ?_) fun _ =>
    Reads.ite Iff.rfl (fun _ => Reads.done) fun _ => keyValueRule_fill
  have hlist : isNext '[' (fill f m : List (Sym β)).tail = isNext '[' m.tail := by
    rw [tail_fill hheader, isNext_fill (by decide)]
  rw [hlist]
  exact Reads.ite Iff.rfl (fun hlist => createListRule_fill ⟨hheader, hlist⟩) fun _ =>
    createDictRule_fill hheader

theorem statements_fill {n n' : ℕ} (hn : n ≤ n') {t : Table α} (h : statements n out m = some t) :
    statements n' (out.fill f) (fill f m : List (Sym β)) = some (fillEntries f t) := by
  induction n generalizing n' out m with
  | zero => cases h
  | succ n ih =>
    obtain ⟨n', rfl⟩ := Nat.exists_eq_add_of_le' (Nat.lt_of_lt_of_le (Nat.succ_pos n) hn)
    have hn : n ≤ n' := Nat.le_of_succ_le_succ hn
    rw [statements] at h ⊢
    simp only [skipChars_fill (β := β) (f := f) (m := m) (p := isWs) (by decide), isEmpty_fill,
      isNext_fill (β := β) (f := f) (m := skipChars isWs m) (c := '\n') (by decide)]
    dsimp only at h
    split_ifs at h ⊢ with hend hline
    · cases h
      rfl
    · rw [tail_fill hline]
      exact ih hn h
    · obtain ⟨⟨out', m₁⟩, hstatement, h⟩ := Option.bind_eq_some_iff.1 h
      obtain ⟨m₂, hcomment, h⟩ := Option.bind_eq_some_iff.1 h
      rw [statement_fill _ _ hstatement]
      simp only [Option.bind_some, skipChars_fill (β := β) (f := f) (m := m₁) (p :=
        isWs) (by decide),
        skipComment_fill hcomment, isEmpty_fill, isNext_fill (β := β) (f := f) (m := m₂) (c :=
        '\n') (by decide)]
      split_ifs at h ⊢ with hend hline
      · cases h
        rfl
      · rw [tail_fill hline]
        exact ih hn h

end

theorem dropReturns_chars {s : List Char} {m : List (Sym β)} (hs : ∀ c ∈ s, c ≠ '\r') :
    dropReturns (chars s ++ m) = chars s ++ dropReturns m := by
  induction s with
  | nil => rfl
  | cons c s ih =>
    rw [chars_cons, List.cons_append, List.cons_append, dropReturns,
      if_neg fun h => hs c (List.mem_cons_self ..) h.1, ih fun d hd =>
      hs d (List.mem_cons_of_mem _ hd)]

theorem Token.no_return (t : Token) : ∀ c ∈ t.text, c ≠ '\r' := by
  have hquotes : ∀ c ∈ quotes t.triple, c ≠ '\r' := by
    unfold quotes
    split <;> decide
  intro c hc
  rcases List.mem_append.1 hc with hc | hc
  · rcases List.mem_append.1 hc with hc | hc
    · exact hquotes c hc
    · rintro rfl
      have hillegal := (t.plain _ hc).2.2
      revert hillegal
      cases t.triple <;> decide
  · exact hquotes c hc

theorem dropReturns_fill : dropReturns (fill f m : List (Sym β)) = fill f (dropReturns m) := by
  induction m with
  | nil => rfl
  | cons s m ih =>
    cases s with
    | char c =>
      rw [fill, dropReturns, dropReturns, isNext_fill (by decide), ih]
      split_ifs
      · rfl
      · rfl
    | mark a => rw [fill, dropReturns, fill, dropReturns_chars (f a).no_return, ih]

/-- **A text with a reading** has it with its marks filled too; a marked value is then the string
    that the mark is filled with. -/
theorem loads_fill {t : Table α} (h : loads m = some t) :
    loads (fill f m : List (Sym β)) = some (fillEntries f t) := by
  unfold loads at h ⊢
  rw [dropReturns_fill]
  exact statements_fill (Nat.succ_le_succ length_le_fill) h

end Toml
