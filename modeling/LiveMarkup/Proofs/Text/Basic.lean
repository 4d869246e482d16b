import LiveMarkup.Text.Blank
import LiveMarkup.Text.Casing
import LiveMarkup.Text.Search
/-!
# Letters, blanks and marks

What making letters small does to single characters, and where marks are found: at the place where they stand
(`cutAt?_append`), and not in what is in front of it (`not_infix_cutAt`).
-/

namespace LiveMarkup.Text

/-! ### Letters and blanks -/

section Letters

variable {s : List Char} {c : Char}

theorem isUpper_iff : c.isUpper = true ↔ 65 ≤ c.toNat ∧ c.toNat ≤ 90 :=
  decide_eq_true_iff

theorem isLower_iff : c.isLower = true ↔ 97 ≤ c.toNat ∧ c.toNat ≤ 122 :=
  Bool.and_eq_true_iff.trans (and_congr decide_eq_true_iff decide_eq_true_iff)

theorem isLetter_iff : isLetter c = true ↔ c.isUpper = true ∨ c.isLower = true :=
  Bool.or_eq_true_iff

theorem isLetter_of_isLower (h : c.isLower = true) : isLetter c = true :=
  isLetter_iff.2 (.inr h)

theorem toLower_eq_self (h : c.toNat < 65 ∨ 90 < c.toNat) : c.toLower = c := by
  refine dif_neg fun hupper => ?_
  have hbounds : 65 ≤ c.toNat ∧ c.toNat ≤ 90 := hupper
  omega

/-- A capital is made a small letter. -/
theorem toLower_capital (h : 65 ≤ c.toNat) (h' : c.toNat ≤ 90) : c.toLower.isLower = true := by
  have hall : ∀ n ∈ List.range' 65 26, (Char.ofNat n).toLower.isLower = true := by decide
  have hc := hall c.toNat (List.mem_range'_1.2 ⟨h, Nat.lt_succ_of_le h'⟩)
  rwa [Char.ofNat_toNat] at hc

/-- Only letters are changed, and into letters. -/
theorem toLower_cases (c : Char) :
    c.toLower = c ∨ isLetter c = true ∧ c.toLower.isLower = true := by
  by_cases h : 65 ≤ c.toNat ∧ c.toNat ≤ 90
  · exact .inr ⟨isLetter_iff.2 (.inl (isUpper_iff.2 h)), toLower_capital h.1 h.2⟩
  · exact .inl (toLower_eq_self (by omega))

theorem lower_eq_self (h : ∀ c ∈ s, c.toLower = c) : lower s = s :=
  (List.map_congr_left h).trans (List.map_id' s)

@[simp] theorem toLower_toLower (c : Char) : c.toLower.toLower = c.toLower := by
  rcases toLower_cases c with h | ⟨-, h⟩
  · rw [h, h]
  · exact toLower_eq_self (.inr (by have := isLower_iff.1 h; omega))

@[simp] theorem lower_lower (s : List Char) : lower (lower s) = lower s :=
  lower_eq_self fun c hc => by
    obtain ⟨d, -, rfl⟩ := List.mem_map.1 hc
    exact toLower_toLower d

theorem sameLetters_lower (s t : List Char) : sameLetters (lower s) t = sameLetters s t := by
  rw [sameLetters, lower_lower, sameLetters]

theorem isBlank_eq_false (h : 32 < c.toNat) (h' : c.toNat < 127) : isBlank c = false := by
  simp only [isBlank, Bool.or_eq_false_iff, Bool.and_eq_false_iff, decide_eq_false_iff_not,
    beq_eq_false_iff_ne]
  omega

theorem isBlank_of_isLetter (h : isLetter c = true) : isBlank c = false := by
  have hbounds : 65 ≤ c.toNat ∧ c.toNat ≤ 122 := by
    rw [isLetter_iff, isUpper_iff, isLower_iff] at h
    omega
  exact isBlank_eq_false (by omega) (by omega)

theorem isBlank_of_isDigit (h : c.isDigit = true) : isBlank c = false := by
  obtain ⟨hlow, hhigh⟩ := Char.isDigit_iff_toNat.1 h
  exact isBlank_eq_false (Nat.lt_of_lt_of_le (by decide) hlow) (Nat.lt_of_le_of_lt hhigh (by decide))

/-- What is no small letter does not come from a capital. -/
theorem eq_of_toLower_eq {d : Char} (h : c.toLower = d) (hd : d.isLower = false) : c = d := by
  rcases toLower_cases c with hc | ⟨-, hc⟩
  · exact hc.symm.trans h
  · rw [h, hd] at hc
    cases hc

end Letters

/-! ### Marks in a text -/

section Marks

variable {s rest front mark back : List Char} {c : Char}

theorem isPrefixOf_cons_of_ne {d : Char} (h : d ≠ c) : (c :: mark).isPrefixOf (d :: s) = false := by
  simp [List.isPrefixOf, Ne.symm h]

theorem not_infix_of_notMem (front : List Char) (h : c ∉ s) : ¬front ++ [c] <:+: s :=
  fun hin => h (hin.subset (by simp))

/-- A mark that ends in a character of its own does not begin in front of the place where it stands. -/
theorem not_isPrefixOf_append {d : Char} (hs : ¬front ++ [c] <:+: d :: s) (hfront : c ∉ front)
    (rest : List Char) : (front ++ [c]).isPrefixOf (d :: (s ++ (front ++ [c]) ++ rest)) = false := by
  rw [Bool.eq_false_iff]
  intro h
  have hprefix : front ++ [c] <+: (d :: s) ++ front :=
    List.prefix_of_prefix_length_le (List.isPrefixOf_iff_prefix.1 h) ⟨[c] ++ rest, by simp⟩ (by simp)
  obtain ⟨t, ht⟩ := hprefix
  rcases List.append_eq_append_iff.1 ht with ⟨a, ha, -⟩ | ⟨a, ha, hfront'⟩
  · exact hs ⟨[], a, ha.symm⟩
  · rcases List.eq_nil_or_concat a with rfl | ⟨a, e, rfl⟩
    · exact hs ⟨[], [], by simpa using ha⟩
    · -- the last character of the mark would stand in front of it
      rw [List.concat_eq_append, ← List.append_assoc] at ha
      have hce : c = e := by simpa using (List.append_inj' ha rfl).2
      exact hfront (by rw [hfront', hce]; simp)

/-- A mark is found where it stands, if the text in front does not hold it. -/
theorem cutAt?_append (hs : ¬front ++ [c] <:+: s) (hfront : c ∉ front) (rest : List Char) :
    cutAt? (front ++ [c]) (s ++ (front ++ [c]) ++ rest) = some (s, rest) := by
  induction s with
  | nil =>
    obtain ⟨d, t, hd⟩ := List.exists_cons_of_ne_nil (List.append_ne_nil_of_right_ne_nil front
      (List.cons_ne_nil c []))
    have hprefix : (d :: t).isPrefixOf (d :: (t ++ rest)) = true :=
      List.isPrefixOf_iff_prefix.2 ⟨rest, rfl⟩
    rw [hd, List.nil_append, List.cons_append, cutAt?, if_pos hprefix]
    simp
  | cons d s ih =>
    have hlater : ¬front ++ [c] <:+: s := fun h => hs (h.trans (List.suffix_cons d s).isInfix)
    rw [List.cons_append, List.cons_append, cutAt?, not_isPrefixOf_append hs hfront rest,
      if_neg Bool.false_ne_true, ih hlater]
    rfl

theorem cutAt_append (hs : ¬front ++ [c] <:+: s) (hfront : c ∉ front) (rest : List Char) :
    cutAt (front ++ [c]) (s ++ (front ++ [c]) ++ rest) = (s, rest) := by
  rw [cutAt, cutAt?_append hs hfront]
  rfl

theorem cutAt?_single (hs : c ∉ s) (rest : List Char) : cutAt? [c] (s ++ c :: rest) = some (s, rest) := by
  have := cutAt?_append (not_infix_of_notMem [] hs) List.not_mem_nil rest
  simpa using this

theorem cutAt_single (hs : c ∉ s) (rest : List Char) : cutAt [c] (s ++ c :: rest) = (s, rest) := by
  rw [cutAt, cutAt?_single hs]
  rfl

/-- The part in front of the first mark does not hold the mark. -/
theorem not_infix_of_cutAt? (hmark : mark ≠ []) (h : cutAt? mark s = some (front, back)) :
    ¬mark <:+: front := by
  induction s generalizing front with
  | nil =>
    rw [cutAt?, if_neg (by simpa using hmark)] at h
    cases h
  | cons c s ih =>
    rw [cutAt?] at h
    split at h
    · cases h
      exact fun hin => hmark (List.infix_nil.1 hin)
    · rename_i hprefix
      obtain ⟨⟨front', back'⟩, hcut, heq⟩ := Option.map_eq_some_iff.1 h
      cases heq
      intro hin
      rcases List.infix_cons_iff.1 hin with hp | hp
      · refine hprefix (List.isPrefixOf_iff_prefix.2 (hp.trans ?_))
        rw [eq_append_of_cutAt? hcut, List.append_assoc]
        exact List.prefix_append (c :: front') _
      · exact ih hcut hp

theorem not_infix_of_cutAt?_none (hmark : mark ≠ []) (h : cutAt? mark s = none) : ¬mark <:+: s := by
  induction s with
  | nil => exact fun hin => hmark (List.infix_nil.1 hin)
  | cons c s ih =>
    rw [cutAt?] at h
    split at h
    · cases h
    · rename_i hprefix
      intro hin
      rcases List.infix_cons_iff.1 hin with hp | hp
      · exact hprefix (List.isPrefixOf_iff_prefix.2 hp)
      · exact ih (Option.map_eq_none_iff.1 h) hp

theorem not_infix_cutAt (hmark : mark ≠ []) (s : List Char) : ¬mark <:+: (cutAt mark s).1 := by
  rw [cutAt]
  cases h : cutAt? mark s with
  | none => exact not_infix_of_cutAt?_none hmark h
  | some cut => exact not_infix_of_cutAt? hmark h

theorem eq_false_of_mem_head?_dropWhile {p : Char → Bool} (h : c ∈ (s.dropWhile p).head?) :
    p c = false := by
  have hhead := List.head?_dropWhile_not p s
  rw [Option.mem_def.1 h] at hhead
  simpa using hhead

/-- What is left behind a mark is an end of the text. -/
theorem cutAt_suffix (mark s : List Char) : (cutAt mark s).2 <:+ s := by
  rw [cutAt]
  cases h : cutAt? mark s with
  | none => exact List.nil_suffix
  | some cut => exact ⟨cut.1 ++ mark, (eq_append_of_cutAt? h).symm⟩

end Marks

end LiveMarkup.Text
