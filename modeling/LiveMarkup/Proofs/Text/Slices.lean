import LiveMarkup.Proofs.Text.Basic
import Mathlib.Data.List.TakeWhile
import Mathlib.Data.String.Basic
/-!
# Byte positions

A character takes one to four bytes, so a byte position of a text need not be at the boundary of a character.
What is cut at a position that is no boundary is nothing at all (`isSome_splitAt?_iff`). Positions that are found
by looking for a character or for a mark are boundaries, and cutting there gives the parts that
`List.takeWhile`, `List.dropWhile` and `cutAt` give.
-/

namespace LiveMarkup.Text

open String (utf8Len)

variable {s t front back mark : List Char} {c : Char} {i j : Nat} {p : Char → Bool}

/-- A text cut at a byte position; nothing if the position is inside of a character or behind the end. -/
def splitAt? : Nat → List Char → Option (List Char × List Char)
  | 0, s => some ([], s)
  | _ + 1, [] => none
  | i + 1, c :: s =>
    if i + 1 < c.utf8Size then none
    else (splitAt? (i + 1 - c.utf8Size) s).map fun cut => (c :: cut.1, cut.2)

/-- A text from a byte position on. -/
def from? (i : Nat) (s : List Char) : Option (List Char) :=
  (splitAt? i s).map (·.2)

/-- A text up to a byte position. -/
def upTo? (i : Nat) (s : List Char) : Option (List Char) :=
  (splitAt? i s).map (·.1)

/-- The part of a text from one byte position up to another one. -/
def between? (i j : Nat) (s : List Char) : Option (List Char) :=
  if i ≤ j then upTo? j s >>= from? i else none

/-- The byte position of the first character of a kind. -/
def findChar? (p : Char → Bool) (s : List Char) : Option Nat :=
  if s.any p then some (utf8Len (s.takeWhile (!p ·))) else none

/-- The byte position of the first place where a mark stands. -/
def findMark? (mark s : List Char) : Option Nat :=
  (cutAt? mark s).map fun cut => utf8Len cut.1

/-! ### Cutting -/

theorem splitAt?_eq_some_iff :
    splitAt? i s = some (front, back) ↔ s = front ++ back ∧ i = utf8Len front := by
  fun_induction splitAt? i s generalizing front with
  | case1 s =>
    constructor
    · intro h
      cases h
      exact ⟨rfl, rfl⟩
    · rintro ⟨rfl, hi⟩
      rw [String.utf8Len_eq_zero.1 hi.symm, List.nil_append]
  | case2 i =>
    constructor
    · rintro ⟨⟩
    · rintro ⟨hs, hi⟩
      rw [(List.append_eq_nil_iff.1 hs.symm).1, String.utf8Len_nil] at hi
      cases hi
  | case3 i c s hlt =>
    constructor
    · rintro ⟨⟩
    · rintro ⟨hs, hi⟩
      cases front with
      | nil => cases hi
      | cons d front =>
        obtain ⟨rfl, -⟩ := List.cons.inj hs
        rw [String.utf8Len_cons] at hi
        omega
  | case4 i c s hle ih =>
    rw [Option.map_eq_some_iff]
    constructor
    · rintro ⟨⟨front', back'⟩, hcut, heq⟩
      cases heq
      obtain ⟨rfl, hi⟩ := ih.1 hcut
      refine ⟨rfl, ?_⟩
      rw [String.utf8Len_cons, ← hi]
      omega
    · rintro ⟨hs, hi⟩
      cases front with
      | nil => cases hi
      | cons d front =>
        obtain ⟨rfl, rfl⟩ := List.cons.inj hs
        rw [String.utf8Len_cons] at hi
        exact ⟨(front, back), ih.2 ⟨rfl, by omega⟩, rfl⟩

/-- A text can be cut at the boundaries of its characters, and only there. -/
theorem isSome_splitAt?_iff (s : String) (i : Nat) :
    (splitAt? i s.toList).isSome = true ↔ String.Pos.Raw.IsValid s ⟨i⟩ := by
  rw [String.Pos.Raw.isValid_iff_exists_append, Option.isSome_iff_exists]
  constructor
  · rintro ⟨⟨front, back⟩, hcut⟩
    obtain ⟨hs, hi⟩ := splitAt?_eq_some_iff.1 hcut
    refine ⟨String.ofList front, String.ofList back, ?_, ?_⟩
    · rw [← String.ofList_append, ← hs, String.ofList_toList]
    · rw [String.rawEndPos_ofList, hi]
  · rintro ⟨front, back, rfl, hi⟩
    refine ⟨(front.toList, back.toList), splitAt?_eq_some_iff.2 ⟨String.toList_append, ?_⟩⟩
    rw [String.utf8Len_toList]
    exact congrArg String.Pos.Raw.byteIdx hi

theorem from?_eq_some_iff : from? i s = some back ↔ ∃ front, s = front ++ back ∧ i = utf8Len front := by
  rw [from?, Option.map_eq_some_iff]
  constructor
  · rintro ⟨⟨front, back'⟩, hcut, rfl⟩
    exact ⟨front, splitAt?_eq_some_iff.1 hcut⟩
  · rintro ⟨front, h⟩
    exact ⟨(front, back), splitAt?_eq_some_iff.2 h, rfl⟩

@[simp] theorem from?_append (front back : List Char) : from? (utf8Len front) (front ++ back) = some back :=
  from?_eq_some_iff.2 ⟨front, rfl, rfl⟩

@[simp] theorem upTo?_append (front back : List Char) : upTo? (utf8Len front) (front ++ back) = some front := by
  rw [upTo?, splitAt?_eq_some_iff.2 ⟨rfl, rfl⟩]
  rfl

@[simp] theorem from?_zero (s : List Char) : from? 0 s = some s := from?_append [] s

@[simp] theorem from?_utf8Len (s : List Char) : from? (utf8Len s) s = some [] := by
  have := from?_append s []
  rwa [List.append_nil] at this

@[simp] theorem upTo?_utf8Len (s : List Char) : upTo? (utf8Len s) s = some s := by
  have := upTo?_append s []
  rwa [List.append_nil] at this

theorem between?_append (front middle back : List Char) :
    between? (utf8Len front) (utf8Len (front ++ middle)) (front ++ middle ++ back) = some middle := by
  rw [between?, if_pos (by rw [String.utf8Len_append]; omega), upTo?_append]
  exact from?_append front middle

/-- What is left from a position on, and the position, make up the text. -/
theorem from?_length (h : from? i s = some back) : i + utf8Len back = utf8Len s := by
  obtain ⟨front, rfl, rfl⟩ := from?_eq_some_iff.1 h
  exact (String.utf8Len_append front back).symm

/-- Before the end of a text there is something left. -/
theorem exists_cons_of_from? (h : from? i s = some back) (hlt : i < utf8Len s) : ∃ c rest, back = c :: rest := by
  have hlength := from?_length h
  refine List.exists_cons_of_ne_nil fun hnil => ?_
  rw [hnil, String.utf8Len_nil, Nat.add_zero] at hlength
  exact absurd hlength hlt.ne

theorem from?_add (front : List Char) (h : from? i s = some (front ++ back)) : from? (i + utf8Len front) s = some back := by
  obtain ⟨before, rfl, rfl⟩ := from?_eq_some_iff.1 h
  rw [← List.append_assoc, ← String.utf8Len_append]
  exact from?_append (before ++ front) back

/-- A position further on is behind the first character that has not been read at the other one. -/
theorem from?_advance (h : from? i s = some back) (h' : from? j s = some t) (hsuffix : t <:+ back)
    (hshort : t.length < back.length) : ∃ c rest, back = c :: rest ∧ i + c.utf8Size ≤ j ∧ j ≤ utf8Len s := by
  cases back with
  | nil => cases hshort
  | cons c rest =>
    have hrest : t <:+ rest := by
      rcases List.suffix_cons_iff.1 hsuffix with rfl | hrest
      · exact absurd hshort (Nat.lt_irrefl _)
      · exact hrest
    have hlength := from?_length h
    have hlength' := from?_length h'
    have hle := String.utf8Len_le_of_suffix hrest
    rw [String.utf8Len_cons] at hlength
    exact ⟨c, rest, rfl, by omega, by omega⟩

/-! ### Looking for characters and marks -/

theorem findChar?_append (hfront : ∀ d ∈ front, p d = false) (hc : p c = true) (back : List Char) :
    findChar? p (front ++ c :: back) = some (utf8Len front) := by
  have hany : (front ++ c :: back).any p = true := List.any_eq_true.2 ⟨c, by simp, hc⟩
  rw [findChar?, if_pos hany, List.takeWhile_append_of_pos (by simpa using hfront),
    List.takeWhile_cons_of_neg (by simpa using hc), List.append_nil]

theorem findChar?_cons_of_pos (hc : p c = true) (s : List Char) : findChar? p (c :: s) = some 0 := by
  show findChar? p ([] ++ c :: s) = some (utf8Len [])
  exact findChar?_append (fun d hd => by cases hd) hc s

theorem findChar?_eq_none (h : ∀ d ∈ s, p d = false) : findChar? p s = none := by
  rw [findChar?, if_neg (by simpa using h)]

theorem findChar?_getD (p : Char → Bool) (s : List Char) :
    (findChar? p s).getD (utf8Len s) = utf8Len (s.takeWhile (!p ·)) := by
  by_cases h : s.any p = true
  · rw [findChar?, if_pos h]
    rfl
  · have hall : ∀ c ∈ s, p c = false := by simpa using h
    rw [findChar?_eq_none hall, List.takeWhile_eq_self_iff.2 (by simpa using hall)]
    rfl

theorem findChar?_not_getD (p : Char → Bool) (s : List Char) :
    (findChar? (!p ·) s).getD (utf8Len s) = utf8Len (s.takeWhile p) := by
  simp only [findChar?_getD, Bool.not_not]

theorem upTo?_takeWhile (p : Char → Bool) (s : List Char) :
    upTo? (utf8Len (s.takeWhile p)) s = some (s.takeWhile p) := by
  have := upTo?_append (s.takeWhile p) (s.dropWhile p)
  rwa [List.takeWhile_append_dropWhile] at this

theorem from?_takeWhile (h : from? i s = some back) (p : Char → Bool) :
    from? (i + utf8Len (back.takeWhile p)) s = some (back.dropWhile p) :=
  from?_add _ ((List.takeWhile_append_dropWhile (p := p)).symm ▸ h)

theorem findMark?_eq_none (h : cutAt? mark s = none) : findMark? mark s = none := by
  rw [findMark?, h]
  rfl

theorem findMark?_eq_some (h : cutAt? mark s = some (front, back)) : findMark? mark s = some (utf8Len front) := by
  rw [findMark?, h]
  rfl

/-- Looking for a single character cuts a text where the character as a mark does. -/
theorem findChar?_eq_cases (c : Char) (s : List Char) :
    (∃ front back, s = front ++ c :: back ∧ findChar? (· == c) s = some (utf8Len front) ∧
      cutAt [c] s = (front, back)) ∨ findChar? (· == c) s = none ∧ cutAt [c] s = (s, []) := by
  by_cases hmem : c ∈ s
  · obtain ⟨front, back, rfl, hfront⟩ := List.eq_append_cons_of_mem hmem
    have hother : ∀ d ∈ front, (d == c) = false := by simpa using fun d hd (he : d = c) => hfront (he ▸ hd)
    exact .inl ⟨front, back, rfl, findChar?_append (p := (· == c)) hother (by simp) back, cutAt_single hfront back⟩
  · refine .inr ⟨findChar?_eq_none (by simpa using fun d hd (he : d = c) => hmem (he ▸ hd)), ?_⟩
    rw [cutAt]
    cases hcut : cutAt? [c] s with
    | none => rfl
    | some cut => exact absurd (by rw [eq_append_of_cutAt? hcut]; simp) hmem

end LiveMarkup.Text
