/-!
# Cutting a text at a mark

`cutAt mark s` is the part of `s` in front of the first occurrence of `mark` and the part behind it.
-/

namespace LiveMarkup.Text

/-- The part in front of the first place where `mark` stands, and the part from there on with the
mark taken off; nothing if it stands nowhere. -/
def cutAt? (mark : List Char) : List Char → Option (List Char × List Char)
  | [] => if mark.isEmpty then some ([], []) else none
  | c :: rest =>
    if mark.isPrefixOf (c :: rest) then some ([], (c :: rest).drop mark.length)
    else (cutAt? mark rest).map fun (front, back) => (c :: front, back)

/-- Like `cutAt?`, where a mark that is missing stands at the end. -/
def cutAt (mark s : List Char) : List Char × List Char :=
  (cutAt? mark s).getD (s, [])

theorem eq_append_of_cutAt? {mark s front back : List Char}
    (h : cutAt? mark s = some (front, back)) : s = front ++ mark ++ back := by
  induction s generalizing front with
  | nil =>
    rw [cutAt?] at h
    split at h
    · simp_all
    · simp at h
  | cons c rest ih =>
    rw [cutAt?] at h
    split at h
    · rename_i hp
      obtain ⟨tail, ht⟩ := List.isPrefixOf_iff_prefix.1 hp
      simp only [Option.some.injEq, Prod.mk.injEq] at h
      obtain ⟨rfl, rfl⟩ := h
      simp [← ht]
    · obtain ⟨⟨f, b⟩, hc, he⟩ := Option.map_eq_some_iff.1 h
      simp only [Prod.mk.injEq] at he
      obtain ⟨rfl, rfl⟩ := he
      simp [ih hc]

theorem length_cutAt_le (mark s : List Char) : (cutAt mark s).2.length ≤ s.length := by
  unfold cutAt
  cases h : cutAt? mark s with
  | none => simp
  | some p =>
    have hs : s = p.1 ++ mark ++ p.2 := eq_append_of_cutAt? h
    have := congrArg List.length hs
    simp only [List.length_append] at this
    simp only [Option.getD_some]
    omega

end LiveMarkup.Text
