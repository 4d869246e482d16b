import LiveMarkup.Proofs.Text.Basic
import Mathlib.Data.String.Basic
/-!
# The bytes of a text

ASCII characters are single bytes below 128, and all bytes of other characters are above. So letters can be made
small and compared byte by byte: a word of ASCII characters is found among bytes where it is found among
characters (`map_lowerByte_take_utf8`).
-/

namespace LiveMarkup.Text

open String (utf8Len)

variable {s word : List Char} {a c : Char} {b : UInt8}

/-- The bytes of a text. -/
def utf8 (s : List Char) : List UInt8 :=
  s.flatMap String.utf8EncodeChar

/-- A byte with an ASCII capital made small. -/
def lowerByte (b : UInt8) : UInt8 :=
  if 65 ≤ b ∧ b ≤ 90 then b + 32 else b

/-- Whether a text consists of ASCII characters. -/
def IsAscii (s : List Char) : Prop :=
  ∀ c ∈ s, c.utf8Size = 1

instance (s : List Char) : Decidable (IsAscii s) :=
  List.decidableBAll _ s

@[simp] theorem utf8_cons (c : Char) (s : List Char) : utf8 (c :: s) = String.utf8EncodeChar c ++ utf8 s := rfl

@[simp] theorem utf8_append (s t : List Char) : utf8 (s ++ t) = utf8 s ++ utf8 t :=
  List.flatMap_append

@[simp] theorem length_utf8 (s : List Char) : (utf8 s).length = utf8Len s := by
  induction s with
  | nil => rfl
  | cons c s ih => rw [utf8_cons, List.length_append, String.length_utf8EncodeChar, ih, String.utf8Len_cons, Nat.add_comm]

theorem IsAscii.utf8Len_eq (h : IsAscii s) : utf8Len s = s.length := by
  induction s with
  | nil => rfl
  | cons c s ih =>
    obtain ⟨hc, hs⟩ := List.forall_mem_cons.1 h
    rw [String.utf8Len_cons, hc, ih hs, List.length_cons]

/-! ### Single characters -/

theorem utf8EncodeChar_of_ascii (h : c.utf8Size = 1) : String.utf8EncodeChar c = [c.val.toUInt8] :=
  String.utf8EncodeChar_eq_singleton h

/-- An ASCII character has a number below 128. -/
theorem toNat_lt_of_ascii (h : c.utf8Size = 1) : c.toNat < 128 := by
  have hle : c.val ≤ 127 := Char.utf8Size_eq_one_iff.1 h
  exact Nat.lt_succ_of_le (UInt32.le_iff_toNat_le.1 hle)

theorem toNat_byte_of_ascii (h : c.utf8Size = 1) : c.val.toUInt8.toNat = c.toNat :=
  Nat.mod_eq_of_lt (Nat.lt_of_lt_of_le (toNat_lt_of_ascii h) (by decide))

/-- What has a bit above the lowest seven set. -/
theorem le_or_of_le {m : UInt8} (hm : 128 ≤ m) (x : UInt8) : 128 ≤ x ||| m := by
  rw [UInt8.le_iff_toNat_le] at hm ⊢
  rw [UInt8.toNat_or]
  exact Nat.le_trans hm Nat.right_le_or

/-- All bytes of a character outside ASCII are above the ASCII bytes. -/
theorem le_of_mem_utf8EncodeChar (h : c.utf8Size ≠ 1) (hb : b ∈ String.utf8EncodeChar c) : 128 ≤ b := by
  rcases Char.utf8Size_eq c with hsize | hsize | hsize | hsize
  · exact absurd hsize h
  · rw [String.utf8EncodeChar_eq_cons_cons hsize] at hb
    simp only [List.mem_cons, List.not_mem_nil, or_false] at hb
    rcases hb with rfl | rfl <;> exact le_or_of_le (by decide) _
  · rw [String.utf8EncodeChar_eq_cons_cons_cons hsize] at hb
    simp only [List.mem_cons, List.not_mem_nil, or_false] at hb
    rcases hb with rfl | rfl | rfl <;> exact le_or_of_le (by decide) _
  · rw [String.utf8EncodeChar_eq_cons_cons_cons_cons hsize] at hb
    simp only [List.mem_cons, List.not_mem_nil, or_false] at hb
    rcases hb with rfl | rfl | rfl | rfl <;> exact le_or_of_le (by decide) _

/-- Making an ASCII character small makes its byte small. -/
theorem lowerByte_ascii (h : c.utf8Size = 1) : lowerByte c.val.toUInt8 = UInt8.ofNat c.toLower.toNat := by
  by_cases hupper : 65 ≤ c.toNat ∧ c.toNat ≤ 90
  · have hall : ∀ n ∈ List.range' 65 26,
        lowerByte (Char.ofNat n).val.toUInt8 = UInt8.ofNat (Char.ofNat n).toLower.toNat := by decide
    have hc := hall c.toNat (List.mem_range'_1.2 ⟨hupper.1, Nat.lt_succ_of_le hupper.2⟩)
    rwa [Char.ofNat_toNat] at hc
  · rw [toLower_eq_self (by omega)]
    refine if_neg fun hletter => hupper ?_
    rw [UInt8.le_iff_toNat_le, UInt8.le_iff_toNat_le, toNat_byte_of_ascii h] at hletter
    exact hletter

theorem toNat_toLower_lt (h : c.utf8Size = 1) : c.toLower.toNat < 128 := by
  have hc := toNat_lt_of_ascii h
  rcases toLower_cases c with hself | ⟨-, hlower⟩
  · rwa [hself]
  · have := isLower_iff.1 hlower
    omega

theorem lowerByte_eq_iff (ha : a.utf8Size = 1) (hc : c.utf8Size = 1) :
    lowerByte c.val.toUInt8 = lowerByte a.val.toUInt8 ↔ c.toLower = a.toLower := by
  rw [lowerByte_ascii ha, lowerByte_ascii hc]
  constructor
  · intro h
    have hnat := congrArg UInt8.toNat h
    have := toNat_toLower_lt ha
    have := toNat_toLower_lt hc
    rw [UInt8.toNat_ofNat', UInt8.toNat_ofNat', Nat.mod_eq_of_lt (by omega), Nat.mod_eq_of_lt (by omega)] at hnat
    exact Char.toNat_inj.1 hnat
  · exact congrArg fun d : Char => UInt8.ofNat d.toNat

theorem exists_utf8EncodeChar (c : Char) : ∃ b bytes, String.utf8EncodeChar c = b :: bytes :=
  List.exists_cons_of_ne_nil (List.length_pos_iff.1 (by
    rw [String.length_utf8EncodeChar]
    exact c.utf8Size_pos))

/-- What does not begin with an ASCII character does not begin with its byte. -/
theorem head_utf8_ne (ha : a.utf8Size = 1) (hne : c ≠ a) (s : List Char) :
    ∃ b bytes, utf8 (c :: s) = b :: bytes ∧ b ≠ a.val.toUInt8 := by
  obtain ⟨b, bytes, hbytes⟩ := exists_utf8EncodeChar c
  refine ⟨b, bytes ++ utf8 s, by rw [utf8_cons, hbytes, List.cons_append], fun he => ?_⟩
  by_cases hc : c.utf8Size = 1
  · rw [utf8EncodeChar_of_ascii hc] at hbytes
    have hnat := congrArg UInt8.toNat ((List.cons.inj hbytes).1.trans he)
    rw [toNat_byte_of_ascii hc, toNat_byte_of_ascii ha] at hnat
    exact hne (Char.toNat_inj.1 hnat)
  · have hb : 128 ≤ b := le_of_mem_utf8EncodeChar hc (hbytes ▸ List.mem_cons_self)
    rw [he, UInt8.le_iff_toNat_le, toNat_byte_of_ascii ha] at hb
    exact absurd hb (Nat.not_le_of_lt (toNat_lt_of_ascii ha))

/-- A character outside ASCII begins with a byte that is no letter of ASCII, and it is none itself. -/
theorem not_ascii_cons (hc : c.utf8Size ≠ 1) (ha : a.utf8Size = 1) :
    c.toLower ≠ a.toLower ∧ ∃ b bytes, String.utf8EncodeChar c = b :: bytes ∧
      lowerByte b ≠ lowerByte a.val.toUInt8 := by
  have hlarge : 128 ≤ c.toNat := by
    by_contra hlt
    refine hc (Char.utf8Size_eq_one_iff.2 (UInt32.le_iff_toNat_le.2 ?_))
    exact Nat.le_of_lt_succ (Nat.lt_of_not_le hlt)
  have hsmall := toNat_toLower_lt ha
  refine ⟨fun he => ?_, ?_⟩
  · rw [toLower_eq_self (.inr (by omega))] at he
    rw [he] at hlarge
    omega
  · obtain ⟨b, bytes, hbytes⟩ := exists_utf8EncodeChar c
    have hb : 128 ≤ b := le_of_mem_utf8EncodeChar hc (hbytes ▸ List.mem_cons_self)
    refine ⟨b, bytes, hbytes, fun he => ?_⟩
    rw [lowerByte_ascii ha, lowerByte, if_neg fun hletter =>
      absurd (UInt8.le_trans hb hletter.2) (by decide)] at he
    rw [he, UInt8.le_iff_toNat_le, UInt8.toNat_ofNat', Nat.mod_eq_of_lt (by omega)] at hb
    exact absurd hb (Nat.not_le_of_lt hsmall)

/-! ### Words -/

/-- A word of ASCII characters stands at the front of the bytes of a text, in letters of any case, if it stands
at the front of the text. -/
theorem map_lowerByte_take_utf8 (hword : IsAscii word) (s : List Char) :
    ((utf8 s).take (utf8 word).length).map lowerByte = (utf8 word).map lowerByte ↔
      sameLetters (s.take word.length) word = true := by
  rw [sameLetters, beq_iff_eq]
  induction word generalizing s with
  | nil => simp [utf8, lower]
  | cons a word ih =>
    obtain ⟨ha, hword⟩ := List.forall_mem_cons.1 hword
    rw [utf8_cons, utf8EncodeChar_of_ascii ha, List.singleton_append, List.length_cons, List.length_cons,
      List.map_cons]
    cases s with
    | nil => simp [utf8, lower]
    | cons c s =>
      rw [List.take_succ_cons]
      by_cases hc : c.utf8Size = 1
      · rw [utf8_cons, utf8EncodeChar_of_ascii hc, List.singleton_append, List.take_succ_cons, List.map_cons,
          List.cons.injEq, lowerByte_eq_iff ha hc, ih hword]
        exact (List.cons.injEq ..).to_iff.symm
      · obtain ⟨hchar, b, bytes, hbytes, hbyte⟩ := not_ascii_cons hc ha
        rw [utf8_cons, hbytes, List.cons_append, List.take_succ_cons, List.map_cons]
        exact iff_of_false (fun h => hbyte (List.cons.inj h).1) fun h => hchar (List.cons.inj h).1

end LiveMarkup.Text
