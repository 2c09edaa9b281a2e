/-
  Tags with the time of a release, `RELEASE.<date>T<time>Z<suffix>`: the search
  for a compatible tag never takes a later one (`never_kept_current`), as the
  month, the day and the time are part of what it takes for the variant.
-/
import FastapiTemplate.Proof.Releases
import FastapiTemplate.Proof.TagVariants

namespace FastapiTemplate.Management

/-- The parts of a tag with the time of a release. -/
structure StampedTag where
  year : List Char
  month : List Char
  day : List Char
  hour : List Char
  minute : List Char
  second : List Char
  suffix : List Char
  year_length : year.length = 4
  lengths : ∀ p ∈ [month, day, hour, minute, second], p.length = 2
  decimals : ∀ p ∈ [year, month, day, hour, minute, second], ∀ c ∈ p, Text.isDecimal c = true

namespace StampedTag

/-- What these tags begin with. -/
def mark : List Char := "RELEASE.".toList

theorem mark_length : mark.length = 8 := by decide

variable (t u : StampedTag)

/-- The month, the day and the time as they are written. -/
def clock : List Char :=
  '-' :: (t.month ++
    '-' :: (t.day ++ 'T' :: (t.hour ++ '-' :: (t.minute ++ '-' :: (t.second ++ ['Z'])))))

/-- The tag as it is written. -/
def text : List Char := mark ++ (t.year ++ (t.clock ++ t.suffix))

/-- The time by which tags are compared. -/
def time : List ℕ := [t.year, t.month, t.day, t.hour, t.minute, t.second].map Text.int

theorem clock_length : t.clock.length = 16 := by
  have hlengths := t.lengths
  simp only [List.forall_mem_cons] at hlengths
  obtain ⟨hmonth, hday, hhour, hminute, hsecond, -⟩ := hlengths
  simp [clock, hmonth, hday, hhour, hminute, hsecond]

/-- All tags with a time and the same suffix are of the same length. -/
theorem text_length : t.text.length = 28 + t.suffix.length := by
  simp only [text, List.length_append, mark_length, t.clock_length, t.year_length]
  omega

/-- The clock tells the month, the day and the time. -/
theorem time_of_clock (hyear : Text.int t.year = Text.int u.year) (h : t.clock = u.clock) :
    t.time = u.time := by
  have hlengths := t.lengths
  have hlengths' := u.lengths
  simp only [List.forall_mem_cons] at hlengths hlengths'
  obtain ⟨hmonth, hday, hhour, hminute, hsecond, -⟩ := hlengths
  obtain ⟨hmonth', hday', hhour', hminute', hsecond', -⟩ := hlengths'
  obtain ⟨hm, h⟩ := List.append_inj (List.cons.inj h).2 (hmonth.trans hmonth'.symm)
  obtain ⟨hd, h⟩ := List.append_inj (List.cons.inj h).2 (hday.trans hday'.symm)
  obtain ⟨hh, h⟩ := List.append_inj (List.cons.inj h).2 (hhour.trans hhour'.symm)
  obtain ⟨hmi, h⟩ := List.append_inj (List.cons.inj h).2 (hminute.trans hminute'.symm)
  obtain ⟨hs, -⟩ := List.append_inj (List.cons.inj h).2 (hsecond.trans hsecond'.symm)
  simp only [time, List.map_cons, hyear, hm, hd, hh, hmi, hs]

theorem clock_line : ∀ c ∈ t.clock, (c != '\n') = true := by
  have hdecimal : ∀ c, Text.isDecimal c = true → (c != '\n') = true := by
    intro c hc
    rw [bne_iff_ne]
    rintro rfl
    revert hc
    decide
  have hparts := t.decimals
  simp only [List.forall_mem_cons] at hparts
  obtain ⟨-, hmonth, hday, hhour, hminute, hsecond, -⟩ := hparts
  intro c hc
  simp only [clock, List.mem_cons, List.mem_append, List.not_mem_nil, or_false] at hc
  rcases hc with rfl | hc | rfl | hc | rfl | hc | rfl | hc | rfl | hc | rfl
  · rfl
  · exact hdecimal c (hmonth c hc)
  · rfl
  · exact hdecimal c (hday c hc)
  · rfl
  · exact hdecimal c (hhour c hc)
  · rfl
  · exact hdecimal c (hminute c hc)
  · rfl
  · exact hdecimal c (hsecond c hc)
  · rfl

/-- The year alone is the version of the tag. -/
theorem tagVersion : containerTagVersion t.text =
    some ⟨mark, [Text.int t.year], t.clock ++ t.suffix.takeWhile (· != '\n')⟩ := by
  have hyear : IsNumeral t.year := by
    refine ⟨fun hnil => ?_, t.decimals t.year (by simp)⟩
    have hlength := t.year_length
    rw [hnil] at hlength
    cases hlength
  let w : Dotted := ⟨false, [t.year], by simp, by simpa using hyear⟩
  have hw : w.text = t.year := by simp [w, Dotted.text]
  have h := @containerTagVersion_text w mark (t.clock ++ t.suffix) (by decide)
    (.inr ⟨'-', _, .inl rfl, rfl⟩)
  rw [List.takeWhile_append_of_pos t.clock_line, hw] at h
  exact h

/-- The search takes no tag with the same suffix and a later time. -/
theorem not_taken {t u : StampedTag} {repository : List Char} {tags : List (List Char)}
    (hsuffix : u.suffix = t.suffix) (hlater : t.time < u.time) :
    bestCompatibleContainerTag repository t.text tags ≠ some u.text := by
  intro h
  rcases bestCompatible_iff.1 h with ⟨hbest, -⟩ | ⟨-, hbest⟩
  · -- of the same variant are only tags with the same year and the same clock
    obtain ⟨-, current, hcurrent, v, hv, -, hv', hversion⟩ := mem_variantTags.1 hbest.mem
    rw [t.tagVersion, Option.some.injEq] at hcurrent
    rw [u.tagVersion, Option.some.injEq] at hv
    subst hcurrent hv
    simp only [hsuffix] at hv'
    have hclock : t.clock = u.clock := (List.append_cancel_right hv').symm
    have hyear : Text.int t.year = Text.int u.year := by
      have hrequired : requiredContainerVersionPrefix repository t.text [Text.int t.year] =
          [Text.int t.year] := by
        simp [requiredContainerVersionPrefix, PYTHON_VERSION_PREFIX_LENGTH]
      rw [hrequired] at hversion
      simpa using hversion
    rw [t.time_of_clock u hyear hclock] at hlater
    exact lt_irrefl _ hlater
  · obtain ⟨-, w, hw⟩ := mem_pinnedTags.1 hbest.mem
    have hlength := congrArg List.length hw
    rw [List.length_append, List.length_cons, u.text_length, t.text_length, hsuffix] at hlength
    omega

/-- **A tag with the time of a release is never kept current**: where the registry has a later one
    with the same suffix, the search does not take the latest. -/
theorem never_kept_current {t : StampedTag} {repository : List Char} {tags : List (List Char)}
    (hlater : ∃ u : StampedTag, u.text ∈ tags ∧ u.suffix = t.suffix ∧ t.time < u.time) :
    ¬∃ u : StampedTag, u.suffix = t.suffix ∧
      (∀ v : StampedTag, v.text ∈ tags → v.suffix = t.suffix → v.time ≤ u.time) ∧
        bestCompatibleContainerTag repository t.text tags = some u.text := by
  rintro ⟨u, hsuffix, hlatest, hbest⟩
  obtain ⟨v, hv, hsuffix', hlt⟩ := hlater
  exact not_taken hsuffix (hlt.trans_le (hlatest v hv hsuffix')) hbest

/-- A release in January of the year. -/
def january (year : List Char) (h : year.length = 4 ∧ ∀ c ∈ year, Text.isDecimal c = true) :
    StampedTag where
  year := year
  month := "01".toList
  day := "02".toList
  hour := "03".toList
  minute := "04".toList
  second := "05".toList
  suffix := []
  year_length := h.1
  lengths := by decide
  decimals := by
    have hrest : ∀ p ∈ ["01".toList, "02".toList, "03".toList, "04".toList, "05".toList], ∀ c ∈ p,
        Text.isDecimal c = true := by decide
    exact List.forall_mem_cons.2 ⟨h.2, hrest⟩

theorem never_kept_current_minio :
    ¬∃ u : StampedTag, u.suffix = (january "2024".toList (by decide)).suffix ∧
      (∀ v : StampedTag, v.text ∈ ["RELEASE.2025-01-02T03-04-05Z".toList] →
        v.suffix = (january "2024".toList (by decide)).suffix → v.time ≤ u.time) ∧
        bestCompatibleContainerTag "minio/minio".toList
          (january "2024".toList (by decide)).text
          ["RELEASE.2025-01-02T03-04-05Z".toList] = some u.text :=
  never_kept_current ⟨january "2025".toList (by decide), by decide, rfl, by decide⟩

/-- The later tag is not even considered. -/
theorem keeps_old_release : ¬∀ (t : StampedTag) (repository : List Char) (tags : List (List Char)),
    (∃ u : StampedTag, u.text ∈ tags ∧ u.suffix = t.suffix ∧ t.time < u.time) →
      ∃ u : StampedTag, u.suffix = t.suffix ∧
        (∀ v : StampedTag, v.text ∈ tags → v.suffix = t.suffix → v.time ≤ u.time) ∧
          bestCompatibleContainerTag repository t.text tags = some u.text := by
  intro h
  obtain ⟨u, -, -, hbest⟩ := h (january "2024".toList (by decide)) "minio/minio".toList
    ["RELEASE.2025-01-02T03-04-05Z".toList]
    ⟨january "2025".toList (by decide), by decide, rfl, by decide⟩
  have hnone : bestCompatibleContainerTag "minio/minio".toList
      (january "2024".toList (by decide)).text ["RELEASE.2025-01-02T03-04-05Z".toList] = none := by
    decide
  rw [hnone] at hbest
  cases hbest

end StampedTag

end FastapiTemplate.Management
