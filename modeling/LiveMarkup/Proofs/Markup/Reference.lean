import LiveMarkup.Markup.Reference
import LiveMarkup.Proofs.Text.Basic
/-!
# Writing references and reading them

What has been written with references is decoded to what it was, whatever follows it
(`decode_encode_append`), and the characters that would end it do not occur in it.
-/

namespace LiveMarkup.Markup.Reference

variable {s rest name : List Char} {c : Char} {place : Place}

/-! ### Reading -/

theorem decode_cons_of_ne (h : c ≠ '&') (rest : List Char) : decode (c :: rest) = c :: decode rest := by
  rw [decode, if_neg h]

theorem decode_append_of_notMem (h : '&' ∉ s) (rest : List Char) : decode (s ++ rest) = s ++ decode rest := by
  induction s with
  | nil => rfl
  | cons c s ih =>
    rw [List.mem_cons, not_or] at h
    rw [List.cons_append, decode_cons_of_ne (Ne.symm h.1), ih h.2]
    rfl

theorem decode_of_notMem (h : '&' ∉ s) : decode s = s := by
  have := decode_append_of_notMem h []
  rwa [List.append_nil, decode, List.append_nil] at this

theorem decode_ne_nil (h : s ≠ []) : decode s ≠ [] := by
  obtain ⟨d, t, rfl⟩ := List.exists_cons_of_ne_nil h
  rw [decode]
  split
  · split <;> exact List.cons_ne_nil _ _
  · exact List.cons_ne_nil _ _

/-- The name of a reference ends at the first semicolon, which is one of the next twelve characters. -/
theorem name?_append (hname : ';' ∉ name) (rest : List Char) :
    name? (name ++ ';' :: rest) = if name.length < 12 then some name else none := by
  rw [name?, List.take_append]
  split
  · rename_i hlength
    rw [List.take_of_length_le (Nat.le_of_lt hlength), show 12 - name.length = 11 - name.length + 1 by omega,
      List.take_succ_cons, Text.cutAt?_single hname]
    rfl
  · rename_i hlength
    rw [show 12 - name.length = 0 by omega, List.take_zero, List.append_nil]
    cases hcut : Text.cutAt? [';'] (name.take 12) with
    | none => rfl
    | some cut =>
      have hmem : ';' ∈ name.take 12 := by
        rw [Text.eq_append_of_cutAt? hcut]
        simp
      exact absurd (List.mem_of_mem_take hmem) hname

/-- A reference is read up to its semicolon. -/
theorem decode_reference (hname : ';' ∉ name) (hlength : name.length < 12) (hvalue : value? name = some c)
    (rest : List Char) : decode ('&' :: (name ++ ';' :: rest)) = c :: decode rest := by
  have hstart : start? (name ++ ';' :: rest) = some (c, name.length) := by
    simp [start?, name?_append hname, hlength, hvalue]
  have hdrop : (name ++ ';' :: rest).drop (name.length + 1) = rest := by simp
  rw [decode, if_pos rfl, hstart]
  dsimp only
  rw [hdrop]

/-! ### Writing -/

theorem decode_encodeChar (place : Place) (c : Char) (rest : List Char) :
    decode (encodeChar place c ++ rest) = c :: decode rest := by
  rw [encodeChar]
  split
  · rename_i h
    exact h ▸ decode_reference (show ';' ∉ ['a', 'm', 'p'] by decide) (by decide) rfl rest
  rename_i hand
  split
  · rename_i h
    exact h ▸ decode_reference (show ';' ∉ ['n', 'b', 's', 'p'] by decide) (by decide) rfl rest
  split
  · rename_i h
    exact h.1 ▸ decode_reference (show ';' ∉ ['q', 'u', 'o', 't'] by decide) (by decide) rfl rest
  split
  · rename_i h
    exact h.1 ▸ decode_reference (show ';' ∉ ['l', 't'] by decide) (by decide) rfl rest
  split
  · rename_i h
    exact h.1 ▸ decode_reference (show ';' ∉ ['g', 't'] by decide) (by decide) rfl rest
  · exact decode_cons_of_ne hand rest

/-- What was written is read back, and what follows it is read as if it stood alone. -/
theorem decode_encode_append (place : Place) (s rest : List Char) :
    decode (encode place s ++ rest) = s ++ decode rest := by
  induction s with
  | nil => rfl
  | cons c s ih =>
    rw [encode, List.flatMap_cons, List.append_assoc, decode_encodeChar]
    exact congrArg (c :: ·) ih

theorem decode_encode (place : Place) (s : List Char) : decode (encode place s) = s := by
  have := decode_encode_append place s []
  rwa [List.append_nil, decode, List.append_nil] at this

theorem encodeChar_ne_nil (place : Place) (c : Char) : encodeChar place c ≠ [] := by
  unfold encodeChar
  repeat' split
  all_goals exact List.cons_ne_nil _ _

theorem encode_ne_nil (h : s ≠ []) : encode place s ≠ [] := by
  obtain ⟨c, t, rfl⟩ := List.exists_cons_of_ne_nil h
  exact List.append_ne_nil_of_left_ne_nil (encodeChar_ne_nil place c) _

/-- A character that is written as a reference in a place, and occurs in no reference, does not occur in what
is written there. -/
theorem notMem_encode {d : Char} (hd : encodeChar place d ≠ [d])
    (hletter : d ∉ ['&', 'a', 'm', 'p', 'n', 'b', 's', 'q', 'u', 'o', 't', 'l', 'g', ';']) (s : List Char) :
    d ∉ encode place s := by
  intro hmem
  obtain ⟨c, -, hc⟩ := List.mem_flatMap.1 hmem
  have hwritten : encodeChar place c = [c] ∨ ∀ e ∈ encodeChar place c,
      e ∈ ['&', 'a', 'm', 'p', 'n', 'b', 's', 'q', 'u', 'o', 't', 'l', 'g', ';'] := by
    unfold encodeChar
    repeat' split
    any_goals exact .inl rfl
    all_goals exact .inr (by simp)
  rcases hwritten with hself | hreference
  · rw [hself, List.mem_singleton] at hc
    exact hd (hc ▸ hself)
  · exact hletter (hreference d hc)

theorem bracket_notMem_encode (s : List Char) : '<' ∉ encode .content s :=
  notMem_encode (by decide) (by decide) s

theorem closing_notMem_encode (s : List Char) : '>' ∉ encode .content s :=
  notMem_encode (by decide) (by decide) s

theorem quote_notMem_encode (s : List Char) : '"' ∉ encode .quoted s :=
  notMem_encode (by decide) (by decide) s

end LiveMarkup.Markup.Reference
