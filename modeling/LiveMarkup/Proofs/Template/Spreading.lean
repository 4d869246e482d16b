import LiveMarkup.Proofs.Template.Clarity
/-!
# What writing tags out does to a text

A tag that closes itself is written out by putting an end tag into the place of its slash, and nothing else
in the text is changed (`spread_expandSelfClosing`). Which slashes in front of a bracket end such a tag is
decided without regard to quotes, so it may also be one in an attribute value. `Spread` says nothing about
that: any of them may have been written out. What can be told without it is that a text falls into the same
parts as before, wherever it is not cut between a slash and a bracket (`Spread.of_append`), and that a part
without a slash in front of a bracket stays as it is (`Spread.eq_self`).

What is written out in a part does not depend on what is behind it, if the first closing bracket there does
not come right behind a slash (`expandSelfClosing_append`).
-/

namespace LiveMarkup.Template

/-- Some slashes in front of a bracket have been replaced, each by a bracket and the beginning of an end tag.
-/
inductive Spread : List Char → List Char → Prop where
  | nil : Spread [] []
  | cons {s t : List Char} (c : Char) (h : Spread s t) : Spread (c :: s) (c :: t)
  | slash {name s t : List Char} (hname : ∀ c ∈ name, isSelfClosingNamePart c = true) (h : Spread s t) :
      Spread ('/' :: '>' :: s) ('>' :: '<' :: '/' :: (name ++ '>' :: t))

namespace Spread

variable {s s' t : List Char} {c : Char}

theorem append_left (front : List Char) (h : Spread s t) : Spread (front ++ s) (front ++ t) := by
  induction front with
  | nil => exact h
  | cons c front ih => exact .cons c ih

/-- Nothing is taken away. -/
theorem length_le (h : Spread s t) : s.length ≤ t.length := by
  induction h with
  | nil => exact Nat.le_refl _
  | cons c h ih => exact Nat.succ_le_succ ih
  | slash hname h ih =>
    simp only [List.length_cons, List.length_append]
    omega

/-- A text without a slash in front of a bracket stays as it is. -/
theorem eq_self (h : Spread s t) (hs : ¬['/', '>'] <:+: s) : t = s := by
  induction h with
  | nil => rfl
  | cons c h ih => rw [ih fun hin => hs (hin.trans (List.suffix_cons c _).isInfix)]
  | slash hname h ih => exact absurd (List.prefix_append ['/', '>'] _).isInfix hs

theorem eq_self_of_notMem (h : Spread s t) (hs : '/' ∉ s) : t = s :=
  h.eq_self fun hin => hs (hin.subset (List.mem_cons_self ..))

/-- A text that is not cut between a slash and a bracket falls into the same parts. -/
theorem of_append {w : List Char} (h : Spread (s ++ s') w)
    (hcut : s.getLast? = some '/' → s'.head? ≠ some '>') :
    ∃ t t', w = t ++ t' ∧ Spread s t ∧ Spread s' t' := by
  have hlast : ∀ {c : Char} {l : List Char}, l.getLast? = some '/' → (c :: l).getLast? = some '/' := by
    intro c l hl
    rw [List.getLast?_cons, hl, Option.getD_some]
  generalize hall : s ++ s' = all at h
  induction h generalizing s with
  | nil =>
    obtain ⟨rfl, rfl⟩ := List.append_eq_nil_iff.1 hall
    exact ⟨[], [], rfl, .nil, .nil⟩
  | @cons u v c h ih =>
    cases s with
    | nil =>
      obtain rfl : s' = c :: u := hall
      exact ⟨[], c :: v, rfl, .nil, .cons c h⟩
    | cons d s =>
      obtain ⟨rfl, hrest⟩ := List.cons.inj hall
      obtain ⟨t, t', rfl, ht, ht'⟩ := ih (fun hl => hcut (hlast hl)) hrest
      exact ⟨d :: t, t', rfl, .cons d ht, ht'⟩
  | @slash name u v hname h ih =>
    cases s with
    | nil =>
      obtain rfl : s' = '/' :: '>' :: u := hall
      exact ⟨[], _, rfl, .nil, .slash hname h⟩
    | cons d s =>
      cases s with
      | nil =>
        obtain ⟨rfl, rfl⟩ := List.cons.inj hall
        exact absurd rfl (hcut rfl)
      | cons e s =>
        simp only [List.cons_append, List.cons.injEq] at hall
        obtain ⟨rfl, rfl, hrest⟩ := hall
        obtain ⟨t, t', rfl, ht, ht'⟩ := ih (fun hl => hcut (hlast (hlast hl))) hrest
        exact ⟨'>' :: '<' :: '/' :: (name ++ '>' :: t), t', by simp, .slash hname ht, ht'⟩

/-- No quotes come in. -/
theorem quote_notMem (h : Spread s t) (hs : '"' ∉ s) : '"' ∉ t := by
  induction h with
  | nil => exact hs
  | cons c h ih =>
    rw [List.mem_cons, not_or] at hs ⊢
    exact ⟨hs.1, ih hs.2⟩
  | @slash name u v hname h ih =>
    have hnamed : '"' ∉ name := fun hmem => by
      have hpart := hname _ hmem
      revert hpart
      decide
    simp only [List.mem_cons, not_or] at hs
    simp [hnamed, ih hs.2.2]

end Spread

theorem spread_expanded {tag : SelfClosing} (hname : ∀ c ∈ tag.name, isSelfClosingNamePart c = true)
    {s t : List Char} (h : Spread s t) :
    Spread ('<' :: (tag.name ++ (tag.inner ++ '/' :: '>' :: s))) (tag.expanded ++ t) := by
  have hfront := fun {u v : List Char} (hback : Spread u v) =>
    hback.append_left ('<' :: tag.name ++ tag.inner)
  rw [SelfClosing.expanded]
  split
  · have := hfront ((Spread.cons '/' (.cons '>' h)))
    simpa using this
  · have := hfront (Spread.slash hname h)
    simpa using this

/-- All that writing tags out does is to replace some slashes by end tags. -/
theorem spread_expandSelfClosing (s : List Char) : Spread s (expandSelfClosing s) := by
  fun_induction expandSelfClosing s with
  | case1 => exact .nil
  | case2 rest tag htag ih =>
    obtain ⟨hrest, hname⟩ := selfClosing?_spec htag
    rw [hrest]
    exact spread_expanded hname ih
  | case3 rest htag ih => exact .cons '<' ih
  | case4 c rest hc ih => exact .cons c ih

/-! ### Parts that are written out on their own -/

section Parts

variable {s t u : List Char}

/-- Whether a tag closes itself does not depend on what is behind its closing bracket. -/
theorem selfClosing?_append (hs : '>' ∈ s) (t : List Char) :
    selfClosing? (s ++ t)
      = (selfClosing? s).map fun tag => { tag with rest := tag.rest ++ t } := by
  obtain ⟨front, rest, rfl, hfront⟩ := List.eq_append_cons_of_mem hs
  rw [List.append_assoc, List.cons_append, selfClosing?_upTo hfront, selfClosing?_upTo hfront]
  dsimp only
  split
  · split
    · rfl
    · rfl
  · rfl

/-- A part is written out on its own if no tag that is still open where it ends closes itself behind that. -/
theorem expandSelfClosing_append_of_apart
    (h : ∀ u, '<' :: u <:+ s → '>' ∉ u → selfClosing? (u ++ t) = none) :
    expandSelfClosing (s ++ t) = expandSelfClosing s ++ expandSelfClosing t := by
  fun_induction expandSelfClosing s with
  | case1 => rfl
  | case2 s tag htag ih =>
    have hspec := (selfClosing?_spec htag).1
    have hmem : '>' ∈ s := by simp [hspec]
    have hsuffix : tag.rest <:+ '<' :: s := by
      rw [hspec]
      exact ⟨'<' :: (tag.name ++ (tag.inner ++ ['/', '>'])), by simp⟩
    have happend := selfClosing?_append hmem t
    rw [htag, Option.map_some] at happend
    rw [List.cons_append, expandSelfClosing_of_some happend, List.append_assoc,
      ← ih fun u hu => h u (hu.trans hsuffix)]
    rfl
  | case3 s htag ih =>
    have hnone : selfClosing? (s ++ t) = none := by
      by_cases hmem : '>' ∈ s
      · rw [selfClosing?_append hmem, htag, Option.map_none]
      · exact h s (List.suffix_refl _) hmem
    rw [List.cons_append, expandSelfClosing_of_none hnone, ih fun u hu => h u (hu.trans (List.suffix_cons '<' s))]
    rfl
  | case4 c s hc ih =>
    rw [List.cons_append, expandSelfClosing, if_neg hc, ih fun u hu => h u (hu.trans (List.suffix_cons c s))]
    rfl

/-- A part is written out on its own if no slash comes in front of the first closing bracket behind it. -/
theorem expandSelfClosing_append (hs : s.getLast? ≠ some '/') (hu : '>' ∉ u)
    (hlast : u.getLast? ≠ some '/') (rest : List Char) :
    expandSelfClosing (s ++ (u ++ '>' :: rest))
      = expandSelfClosing s ++ expandSelfClosing (u ++ '>' :: rest) := by
  refine expandSelfClosing_append_of_apart fun t ht hmem => ?_
  have ht' := getLast?_ne_of_suffix ((List.suffix_cons '<' t).trans ht) hs
  rw [← List.append_assoc]
  exact selfClosing?_eq_none (by simp [hmem, hu]) (getLast?_append_ne ht' hlast) rest

/-- A part that ends in a closing bracket is written out on its own. -/
theorem expandSelfClosing_append_of_bracket (hs : s.getLast? = some '>') (t : List Char) :
    expandSelfClosing (s ++ t) = expandSelfClosing s ++ expandSelfClosing t := by
  refine expandSelfClosing_append_of_apart fun u hu hmem => absurd ?_ hmem
  obtain ⟨front, rfl⟩ := hu
  rw [List.getLast?_append, List.getLast?_cons] at hs
  cases u with
  | nil => cases hs
  | cons d u => exact List.mem_of_getLast? hs

end Parts

end LiveMarkup.Template
