import LiveMarkup.Proofs.Template.Reading
import Mathlib.Data.List.TakeWhile
/-!
# Text that marks nothing itself

If neither `µ` nor the ampersand of a reference is in the segments of a template, each `µ` in the joined text
is that of a marker, and the number of a hole stands behind it. That stays so when the text is trimmed and
tags that close themselves are written out (`IsClear`, `isClear_joined`, `IsClear.expandSelfClosing`). Clear
text may be cut in front of every character that belongs to no number, so it is cut nowhere between a `µ`
and the end of its number.
-/

namespace LiveMarkup.Template

open Text (isBlank trimStart)

/-- A text goes on with the number of a hole below `n` and with what stands behind a marker, the equals sign
of an attribute or the end of a comment. -/
def IsNumbered (n : Nat) (s : List Char) : Prop :=
  ∃ i < n, ∃ d, (d = '=' ∨ d = '-') ∧ Nat.toDigits 10 i ++ [d] <+: s

/-- Each `µ` in a text is that of the marker of a hole below `n`, and there is no reference. -/
def IsClear (n : Nat) : List Char → Prop
  | [] => True
  | c :: s => (c = 'µ' → IsNumbered n s) ∧ c ≠ '&' ∧ IsClear n s

/-- A character that stands neither in the number of a marker nor behind it. -/
def EndsNumber (c : Char) : Prop :=
  c.isDigit = false ∧ c ≠ '=' ∧ c ≠ '-'

instance (c : Char) : Decidable (EndsNumber c) :=
  inferInstanceAs (Decidable (_ ∧ _))

variable {n i : Nat} {s t : List Char} {c : Char}

/-! ### Clear text -/

theorem isDigit_of_mem_toDigits (h : c ∈ Nat.toDigits 10 i) : c.isDigit = true :=
  Nat.isDigit_of_mem_toDigits (by decide) (by decide) h

theorem notMem_toDigits (hc : c.isDigit = false) (i : Nat) : c ∉ Nat.toDigits 10 i := by
  intro hmem
  rw [isDigit_of_mem_toDigits hmem] at hc
  cases hc

theorem IsNumbered.append (h : IsNumbered n s) (t : List Char) : IsNumbered n (s ++ t) := by
  obtain ⟨i, hi, d, hd, hprefix⟩ := h
  exact ⟨i, hi, d, hd, hprefix.trans (List.prefix_append s t)⟩

/-- A number is not cut by what does not belong to it. -/
theorem IsNumbered.front (h : IsNumbered n (s ++ t)) (ht : ∀ c ∈ t.head?, EndsNumber c) :
    IsNumbered n s := by
  obtain ⟨i, hi, d, hd, back, hback⟩ := h
  refine ⟨i, hi, d, hd, ?_⟩
  rcases List.append_eq_append_iff.1 hback with ⟨a, ha, -⟩ | ⟨a, ha, hfront⟩
  · exact ⟨a, ha.symm⟩
  · cases a with
    | nil => exact ⟨[], by simpa using ha⟩
    | cons e a =>
      obtain ⟨hdigit, hequals, hdash⟩ := ht e (by rw [hfront]; rfl)
      have hmem : e ∈ Nat.toDigits 10 i ++ [d] := by rw [ha]; simp
      rcases List.mem_append.1 hmem with hmem | hmem
      · exact absurd hmem (notMem_toDigits hdigit i)
      · obtain rfl := List.mem_singleton.1 hmem
        exact (hd.elim hequals hdash).elim

/-- The number `n` is none below `n`. -/
theorem not_isNumbered (ht : ∀ c ∈ t.head?, c.isDigit = false) :
    ¬IsNumbered n (Nat.toDigits 10 n ++ t) := by
  rintro ⟨i, hi, d, hd, back, hback⟩
  -- what comes behind each of the two numbers is no digit, so they end at the same place
  have htake : ∀ (j : Nat) (u : List Char), (∀ c ∈ u.head?, c.isDigit = false) →
      (Nat.toDigits 10 j ++ u).takeWhile Char.isDigit = Nat.toDigits 10 j := by
    intro j u hu
    rw [List.takeWhile_append_of_pos fun c hc => isDigit_of_mem_toDigits hc]
    cases u with
    | nil => exact List.append_nil _
    | cons c u =>
      rw [List.takeWhile_cons_of_neg (by simp [hu c rfl]), List.append_nil]
  have hdigit : d.isDigit = false := by
    rcases hd with rfl | rfl <;> decide
  have hsame := congrArg (List.takeWhile Char.isDigit) hback
  rw [List.append_assoc, htake n t ht, htake i _ (by simpa using hdigit)] at hsame
  have := toDigits_injective hsame
  omega

theorem IsClear.cons (hs : IsClear n s) (hmark : c ≠ 'µ') (hreference : c ≠ '&') :
    IsClear n (c :: s) :=
  ⟨fun hc => absurd hc hmark, hreference, hs⟩

theorem isClear_of_notMem (hmark : 'µ' ∉ s) (hreference : '&' ∉ s) : IsClear n s := by
  induction s with
  | nil => trivial
  | cons c s ih =>
    rw [List.mem_cons, not_or] at hmark hreference
    exact (ih hmark.2 hreference.2).cons (Ne.symm hmark.1) (Ne.symm hreference.1)

theorem IsClear.notMem (h : IsClear n s) : '&' ∉ s := by
  induction s with
  | nil => exact List.not_mem_nil
  | cons c s ih =>
    rw [List.mem_cons, not_or]
    exact ⟨Ne.symm h.2.1, ih h.2.2⟩

theorem IsClear.append (hs : IsClear n s) (ht : IsClear n t) : IsClear n (s ++ t) := by
  induction s with
  | nil => exact ht
  | cons c s ih => exact ⟨fun hc => (hs.1 hc).append t, hs.2.1, ih hs.2.2⟩

theorem IsClear.back (h : IsClear n (s ++ t)) : IsClear n t := by
  induction s with
  | nil => exact h
  | cons c s ih => exact ih h.2.2

theorem IsClear.suffix (h : IsClear n s) (ht : t <:+ s) : IsClear n t := by
  obtain ⟨front, rfl⟩ := ht
  exact h.back

/-- Clear text may be cut in front of a character that belongs to no number. -/
theorem IsClear.front (h : IsClear n (s ++ t)) (ht : ∀ c ∈ t.head?, EndsNumber c) : IsClear n s := by
  induction s with
  | nil => trivial
  | cons c s ih => exact ⟨fun hc => (h.1 hc).front ht, h.2.1, ih h.2.2⟩

/-- The number of hole `n` does not stand behind a `µ` in clear text. -/
theorem not_isClear_number (ht : ∀ c ∈ t.head?, c.isDigit = false) (front : List Char) :
    ¬IsClear n (front ++ 'µ' :: (Nat.toDigits 10 n ++ t)) :=
  fun h => not_isNumbered ht (h.back.1 rfl)

theorem isClear_marker (hi : i < n) (hc : c = '=' ∨ c = '-') (hs : IsClear n s) :
    IsClear n ((marker i).toList ++ c :: s) := by
  have hdigits : IsClear n (Nat.toDigits 10 i) :=
    isClear_of_notMem (notMem_toDigits (by decide) i) (notMem_toDigits (by decide) i)
  have hcons : IsClear n (c :: s) := by
    rcases hc with rfl | rfl <;> exact hs.cons (by decide) (by decide)
  have hnumbered : IsNumbered n (Nat.toDigits 10 i ++ c :: s) := by
    refine ⟨i, hi, c, hc, s, ?_⟩
    rw [List.append_assoc]
    rfl
  have hmark : IsClear n ('µ' :: (Nat.toDigits 10 i ++ c :: s)) :=
    ⟨fun _ => hnumbered, by decide, hdigits.append hcons⟩
  rw [toList_marker]
  exact (hmark.cons (by decide) (by decide)).cons (by decide) (by decide)

/-! ### The marked text -/

theorem closingQuote_subset (s : List Char) :
    (closingQuote s).1.toList ⊆ s ∧ (closingQuote s).2 ⊆ s := by
  cases s with
  | nil => exact ⟨List.nil_subset _, List.nil_subset _⟩
  | cons c s =>
    rw [closingQuote]
    split
    · exact ⟨by simp, List.subset_cons_self c s⟩
    · exact ⟨List.nil_subset _, List.Subset.refl _⟩

/-- What a segment with an open attribute is cut into stands in it. -/
theorem openAttribute?_subset {segment : List Char} {tail : OpenAttribute}
    (h : openAttribute? segment = some tail) :
    tail.front ⊆ segment ∧ tail.name ⊆ segment ∧ tail.quote.toList ⊆ segment := by
  have hending : (closingQuote segment.reverse).1.toList ⊆ segment ∧
      (closingQuote segment.reverse).2 ⊆ segment := by
    have hquote := closingQuote_subset segment.reverse
    have hreverse : segment.reverse ⊆ segment := fun c hc => List.mem_reverse.1 hc
    exact ⟨List.Subset.trans hquote.1 hreverse, List.Subset.trans hquote.2 hreverse⟩
  unfold openAttribute? at h
  dsimp only at h
  split at h
  · rename_i rest heq
    split at h
    · cases h
    · cases h
      have hrest : trimStart rest ⊆ segment := by
        have hbehind : rest ⊆ trimStart (closingQuote segment.reverse).2 := by
          rw [heq]
          exact List.subset_cons_self _ _
        have hinner := List.Subset.trans hbehind (List.dropWhile_sublist isBlank).subset
        exact List.Subset.trans (List.dropWhile_sublist isBlank).subset
          (List.Subset.trans hinner hending.2)
      refine ⟨fun c hc => hrest ?_, fun c hc => hrest ?_, hending.1⟩
      · exact (List.dropWhile_sublist isHoleNamePart).subset (List.mem_reverse.1 hc)
      · exact (List.takeWhile_sublist isHoleNamePart).subset (List.mem_reverse.1 hc)
  · cases h

theorem isClear_marked {segment : List Char} {tail : OpenAttribute}
    (h : openAttribute? segment = some tail) (hmark : 'µ' ∉ segment) (hreference : '&' ∉ segment)
    (hi : i < n) : IsClear n (tail.marked i) := by
  obtain ⟨hfront, hname, hquote⟩ := openAttribute?_subset h
  have hbehind : ∀ d : Char, d ∉ segment → d ≠ '"' →
      d ∉ tail.quote.getD '"' :: (tail.name ++ if tail.quote.isNone then ['"'] else []) := by
    intro d hd hne hmem
    rcases List.mem_cons.1 hmem with hmem | hmem
    · cases hq : tail.quote with
      | none => exact hne (by rw [hmem, hq]; rfl)
      | some q => exact hd (hquote (by rw [hmem, hq]; exact List.mem_singleton_self q))
    · rcases List.mem_append.1 hmem with hmem | hmem
      · exact hd (hname hmem)
      · split at hmem
        · exact hne (List.mem_singleton.1 hmem)
        · cases hmem
  have hmarked : tail.marked i = tail.front ++ ((marker i).toList ++ '=' ::
      (tail.quote.getD '"' :: (tail.name ++ if tail.quote.isNone then ['"'] else []))) := by
    simp [OpenAttribute.marked]
  rw [hmarked]
  apply (isClear_of_notMem (mt (@hfront _) hmark) (mt (@hfront _) hreference)).append
  apply isClear_marker hi (.inl rfl)
  exact isClear_of_notMem (hbehind _ hmark (by decide)) (hbehind _ hreference (by decide))

theorem isClear_markerComment (hi : i < n) : IsClear n (markerComment i) := by
  have hfront : IsClear n ['<', '!', '-', '-'] := isClear_of_notMem (by decide) (by decide)
  have hback : IsClear n ['-', '>'] := isClear_of_notMem (by decide) (by decide)
  rw [markerComment, List.append_assoc]
  exact hfront.append (isClear_marker hi (.inr rfl) hback)

/-- No hole is marked behind the last segment: it does not end in an attribute without its value, or not
inside of a start tag. -/
def EndsUnmarked (before : List (List Char)) (segments : List (List Char)) : Prop :=
  ∀ front last, segments = front ++ [last] →
    openAttribute? last = none ∨ leavesTagOpen (last :: (front.reverse ++ before)) = false

theorem endsUnmarked_of_getLast? {before segments : List (List Char)}
    (h : segments.getLast?.bind openAttribute? = none) : EndsUnmarked before segments := by
  intro front last heq
  left
  rwa [heq, List.getLast?_concat] at h

/-- Segments are joined to a clear text. -/
theorem isClear_joined {segments before : List (List Char)}
    (hclear : ∀ segment ∈ segments, 'µ' ∉ segment ∧ '&' ∉ segment)
    (hlast : EndsUnmarked before segments) (hn : i + segments.length ≤ n + 1) :
    IsClear n (joined before i segments) := by
  induction segments generalizing before i with
  | nil => trivial
  | cons segment rest ih =>
    obtain ⟨⟨hmark, hreference⟩, hrest⟩ := List.forall_mem_cons.1 hclear
    rw [List.length_cons] at hn
    have hothers : IsClear n (joined (segment :: before) (i + 1) rest) := by
      refine ih hrest (fun front last heq => ?_) (by omega)
      have := hlast (segment :: front) last (by rw [heq]; rfl)
      rwa [List.reverse_cons, List.append_assoc] at this
    rw [joined]
    refine IsClear.append ?_ hothers
    cases rest with
    | nil =>
      have hsegment : IsClear n segment := isClear_of_notMem hmark hreference
      cases htail : openAttribute? segment with
      | none => exact hsegment
      | some tail =>
        rcases hlast [] segment rfl with h | h
        · rw [htail] at h
          cases h
        · rw [List.reverse_nil, List.nil_append] at h
          dsimp only
          rw [h]
          exact hsegment
    | cons next rest =>
      rw [List.length_cons] at hn
      have hsegment : IsClear n (segment ++ markerComment i) :=
        (isClear_of_notMem hmark hreference).append (isClear_markerComment (by omega))
      cases htail : openAttribute? segment with
      | none => exact hsegment
      | some tail =>
        dsimp only
        split
        · exact isClear_marked htail hmark hreference (by omega)
        · exact hsegment

theorem endsNumber_of_isBlank (h : isBlank c = true) : EndsNumber c := by
  have hnot : ∀ d : Char, isBlank d = false → c ≠ d := by
    rintro d hd rfl
    rw [h] at hd
    cases hd
  refine ⟨?_, hnot '=' (by decide), hnot '-' (by decide)⟩
  by_contra hdigit
  rw [Text.isBlank_of_isDigit (by simpa using hdigit)] at h
  cases h

theorem IsClear.trim (h : IsClear n s) : IsClear n (Text.trim s) := by
  have hstart : IsClear n (trimStart s) := h.suffix (List.dropWhile_suffix _)
  have hsplit : ∀ t : List Char, t = Text.trimEnd t ++ (t.reverse.takeWhile isBlank).reverse := by
    intro t
    rw [Text.trimEnd, trimStart, ← List.reverse_append, List.takeWhile_append_dropWhile,
      List.reverse_reverse]
  rw [hsplit (trimStart s)] at hstart
  refine hstart.front fun c hc => endsNumber_of_isBlank ?_
  exact List.mem_takeWhile_imp (List.mem_reverse.1 (List.mem_of_mem_head? hc))

/-- A tag that closes itself is its name, what stands behind that, a slash and a bracket. -/
theorem selfClosing?_spec {tag : SelfClosing} (h : selfClosing? s = some tag) :
    s = tag.name ++ (tag.inner ++ '/' :: '>' :: tag.rest) ∧
      ∀ c ∈ tag.name, isSelfClosingNamePart c = true := by
  unfold selfClosing? at h
  split at h
  · dsimp only at h
    split at h
    · cases h
    · rename_i c rest heq
      split at h
      · rename_i hslash
        cases h
        have hc : c = '>' := by
          simpa using Text.eq_false_of_mem_head?_dropWhile (p := (· != '>')) (by rw [heq]; rfl)
        have hinner := List.takeWhile_append_dropWhile (p := (· != '>'))
          (l := s.dropWhile isSelfClosingNamePart)
        rw [heq, hc, ← List.dropLast_append_getLast? '/' hslash, List.append_assoc] at hinner
        refine ⟨?_, fun d hd => List.mem_takeWhile_imp hd⟩
        dsimp only
        rw [List.singleton_append] at hinner
        rw [hinner, List.takeWhile_append_dropWhile]
      · cases h
  · cases h

theorem IsNumbered.expandSelfClosing (h : IsNumbered n s) :
    IsNumbered n (Template.expandSelfClosing s) := by
  obtain ⟨i, hi, d, hd, back, rfl⟩ := h
  have hcalm : IsCalm (Nat.toDigits 10 i ++ [d]) := by
    apply isCalm_of_notMem
    intro hmem
    rcases List.mem_append.1 hmem with hmem | hmem
    · exact notMem_toDigits (by decide) i hmem
    · obtain rfl := List.mem_singleton.1 hmem
      rcases hd with hd | hd <;> cases hd
  rw [hcalm]
  exact ⟨i, hi, d, hd, List.prefix_append _ _⟩

theorem isClear_expanded {tag : SelfClosing} (hname : ∀ c ∈ tag.name, isSelfClosingNamePart c = true)
    (hinner : IsClear n tag.inner) : IsClear n tag.expanded := by
  have hnot : ∀ d : Char, isSelfClosingNamePart d = false → d ∉ tag.name := by
    intro d hd hmem
    rw [hname d hmem] at hd
    cases hd
  have hclear : IsClear n tag.name := isClear_of_notMem (hnot _ (by decide)) (hnot _ (by decide))
  have hopen : IsClear n ('<' :: tag.name ++ tag.inner) :=
    (hclear.cons (by decide) (by decide)).append hinner
  rw [SelfClosing.expanded]
  split
  · exact hopen.append (isClear_of_notMem (by decide) (by decide))
  · have hend := hopen.append (t := ['>', '<', '/']) (isClear_of_notMem (by decide) (by decide))
    exact (hend.append hclear).append (isClear_of_notMem (by decide) (by decide))

/-- Writing tags out leaves a text clear. -/
theorem IsClear.expandSelfClosing (h : IsClear n s) : IsClear n (Template.expandSelfClosing s) := by
  fun_induction Template.expandSelfClosing s with
  | case1 => trivial
  | case2 rest tag htag ih =>
    obtain ⟨hrest, hname⟩ := selfClosing?_spec htag
    have hclear := h.2.2
    rw [hrest] at hclear
    have hinner := hclear.back
    have hbehind : IsClear n tag.rest := hinner.back.2.2.2.2
    refine (isClear_expanded hname (hinner.front fun c hc => ?_)).append (ih hbehind)
    rw [List.head?_cons, Option.mem_some_iff] at hc
    rw [← hc]
    decide
  | case3 rest htag ih => exact (ih h.2.2).cons (by decide) (by decide)
  | case4 c rest hc ih => exact ⟨fun he => (h.1 he).expandSelfClosing, h.2.1, ih h.2.2⟩

end LiveMarkup.Template
