import LiveMarkup.Markup.Token
import LiveMarkup.Proofs.Markup.Reference
import LiveMarkup.Proofs.Text.Bytes
import LiveMarkup.Proofs.Text.Slices
/-!
# References and end tags by byte positions

References are decoded, and the end tag of a raw text element is looked for, at positions that count bytes. The
text is cut at boundaries of characters only, and both come to what `Reference.decode` and `Token.rawText` say
of the characters (`Reference.decodeBytes?_eq`, `Token.findEndTag?_eq`). So what has been written with references
is read back, once, by either of the two (`Reference.decode_encode_once`).
-/

namespace LiveMarkup.Markup

open String (utf8Len)
open Text (IsAscii findChar? from? upTo? between? lowerByte utf8)

namespace Reference

variable {s rest name : List Char} {c : Char}

/-- The reference that a text begins with, if there is one: the character that it stands for and the position of
its semicolon, which is at most the twelfth. It is an error if the name cannot be cut out. -/
def referenceAt? (s : List Char) : Option (Option (Char × Nat)) :=
  match (findChar? (· == ';') s).filter (· ≤ 12) with
  | none => some none
  | some stop => do
    let name ← between? 1 stop s
    pure ((value? name).map fun c => (c, stop))

/-- A text with its references decoded. It is an error to cut it inside of a character and not to get on. -/
def decodeBytes? (s : List Char) : Option (List Char) :=
  match findChar? (· == '&') s with
  | none => some s
  | some start => do
    let front ← upTo? start s
    let back ← from? start s
    let reference ← referenceAt? back
    let taken := reference.elim ('&', 1) fun r => (r.1, r.2 + 1)
    let next ← from? taken.2 back
    if next.length < s.length then
      let decoded ← decodeBytes? next
      pure (front ++ taken.1 :: decoded)
    else none
termination_by s.length

/-! ### The names of references -/

theorem ascii_of_digit? {base : Nat} (h : (digit? base c).isSome = true) : c.utf8Size = 1 := by
  refine Char.utf8Size_eq_one_iff.2 (UInt32.le_iff_toNat_le.2 ?_)
  show c.toNat ≤ 127
  rw [digit?] at h
  split at h
  · exact Nat.le_trans (Char.isDigit_iff_toNat.1 ‹_›).2 (by decide)
  · split at h
    · rename_i hsmall
      exact Nat.le_trans (m := 'f'.toNat) hsmall.2 (by decide)
    · split at h
      · rename_i hcapital
        exact Nat.le_trans (m := 'F'.toNat) hcapital.2 (by decide)
      · rw [if_neg (Nat.lt_irrefl _)] at h
        cases h

theorem ascii_of_digits? {base n : Nat} (h : digits? base s = some n) : IsAscii s := by
  have hfold : ∀ (s : List Char) (sum : Option Nat) (n : Nat),
      s.foldl (fun sum c => do pure ((← sum) * base + (← digit? base c))) sum = some n →
        sum.isSome = true ∧ IsAscii s := by
    intro s
    induction s with
    | nil =>
      rintro sum n rfl
      exact ⟨rfl, fun c hc => by cases hc⟩
    | cons c s ih =>
      intro sum n h
      obtain ⟨hsum, hs⟩ := ih _ n h
      cases sum with
      | none => cases hsum
      | some m =>
        refine ⟨rfl, List.forall_mem_cons.2 ⟨@ascii_of_digit? c base ?_, hs⟩⟩
        cases hdigit : digit? base c with
        | none => simp [hdigit] at hsum
        | some _ => rfl
  exact (hfold s (some 0) n h).2

theorem ascii_of_number? {base n : Nat} (h : number? base s = some n) : IsAscii s := by
  unfold number? at h
  split at h
  · cases h
  · cases h
  · exact List.forall_mem_cons.2 ⟨rfl, ascii_of_digits? h⟩
  · exact ascii_of_digits? h

/-- The name of a reference that is known is in ASCII. -/
theorem ascii_of_value? (h : value? name = some c) : IsAscii name := by
  unfold value? at h
  split at h
  · obtain ⟨n, hn, -⟩ := Option.bind_eq_some_iff.1 h
    exact List.forall_mem_cons.2 ⟨rfl, List.forall_mem_cons.2 ⟨rfl, ascii_of_number? hn⟩⟩
  · obtain ⟨n, hn, -⟩ := Option.bind_eq_some_iff.1 h
    exact List.forall_mem_cons.2 ⟨rfl, List.forall_mem_cons.2 ⟨rfl, ascii_of_number? hn⟩⟩
  · obtain ⟨n, hn, -⟩ := Option.bind_eq_some_iff.1 h
    exact List.forall_mem_cons.2 ⟨rfl, ascii_of_number? hn⟩
  · unfold named? at h
    repeat' split at h
    all_goals cases h
    all_goals subst name; decide

/-! ### Decoding -/

theorem referenceAt?_append (hname : ';' ∉ name) (back : List Char) :
    referenceAt? ('&' :: (name ++ ';' :: back))
      = some (if utf8Len name < 12 then (value? name).map fun c => (c, utf8Len name + 1) else none) := by
  have hfind : findChar? (· == ';') ('&' :: name ++ ';' :: back) = some (utf8Len name + 1) :=
    Text.findChar?_append (by simpa using fun d hd (he : d = ';') => hname (he ▸ hd)) rfl back
  have hcut : between? 1 (utf8Len name + 1) ('&' :: name ++ ';' :: back) = some name :=
    Text.between?_append ['&'] name (';' :: back)
  rw [← List.cons_append, referenceAt?, hfind, Option.filter_some]
  by_cases hlimit : utf8Len name < 12
  · rw [if_pos (decide_eq_true (Nat.succ_le_of_lt hlimit)), if_pos hlimit]
    simp only [hcut, Option.bind_eq_bind, Option.bind_some, Option.pure_def]
  · rw [if_neg (by rw [decide_eq_true_iff]; omega), if_neg hlimit]

theorem start?_append (hname : ';' ∉ name) (back : List Char) :
    start? (name ++ ';' :: back)
      = if name.length < 12 then (value? name).map fun c => (c, name.length) else none := by
  rw [start?, name?_append hname]
  split
  · cases hvalue : value? name <;> simp [hvalue]
  · rfl

/-- The semicolon of a known reference is as far away in bytes as it is in characters, so it is within the limit
for both or for none. -/
theorem referenceAt?_eq (rest : List Char) :
    referenceAt? ('&' :: rest) = some ((start? rest).map fun r => (r.1, r.2 + 1)) := by
  by_cases hmem : ';' ∈ rest
  · obtain ⟨name, back, rfl, hname⟩ := List.eq_append_cons_of_mem hmem
    rw [referenceAt?_append hname, start?_append hname]
    cases hvalue : value? name with
    | none => simp
    | some c =>
      rw [(ascii_of_value? hvalue).utf8Len_eq]
      split <;> rfl
  · have hnone : name? rest = none := by
      rw [name?, Option.map_eq_none_iff]
      cases hcut : Text.cutAt? [';'] (rest.take 12) with
      | none => rfl
      | some cut =>
        refine absurd (List.mem_of_mem_take (i := 12) ?_) hmem
        rw [Text.eq_append_of_cutAt? hcut]
        simp
    rw [referenceAt?, Text.findChar?_eq_none (by simpa using fun d hd (he : d = ';') => hmem (he ▸ hd)), start?,
      hnone]
    rfl

/-- A reference that has been read stands at the front, in ASCII. -/
theorem eq_append_of_start? {n : Nat} (h : start? rest = some (c, n)) :
    ∃ name back, rest = name ++ ';' :: back ∧ IsAscii name ∧ name.length = n := by
  obtain ⟨name, hname, hvalue⟩ := Option.bind_eq_some_iff.1 h
  obtain ⟨d, hd, heq⟩ := Option.bind_eq_some_iff.1 hvalue
  cases heq
  obtain ⟨⟨front, back⟩, hcut, rfl⟩ := Option.map_eq_some_iff.1 hname
  refine ⟨front, back ++ rest.drop 12, ?_, ascii_of_value? hd, rfl⟩
  have htake := Text.eq_append_of_cutAt? hcut
  calc rest = rest.take 12 ++ rest.drop 12 := (List.take_append_drop 12 rest).symm
    _ = front ++ ';' :: (back ++ rest.drop 12) := by rw [htake]; simp

/-- Behind the reference that has been taken, or behind the ampersand, decoding goes on. -/
theorem exists_after_reference (rest : List Char) :
    let taken := ((start? rest).map fun r => (r.1, r.2 + 1)).elim ('&', 1) fun r => (r.1, r.2 + 1)
    ∃ next, from? taken.2 ('&' :: rest) = some next ∧ next.length ≤ rest.length ∧
      decode ('&' :: rest) = taken.1 :: decode next := by
  cases hstart : start? rest with
  | none =>
    refine ⟨rest, Text.from?_append ['&'] rest, Nat.le_refl _, ?_⟩
    rw [decode, if_pos rfl, hstart]
    rfl
  | some r =>
    obtain ⟨c, n⟩ := r
    obtain ⟨name, back, rfl, hascii, rfl⟩ := eq_append_of_start? hstart
    have hskip : utf8Len ('&' :: name ++ [';']) = name.length + 1 + 1 := by
      rw [List.cons_append, String.utf8Len_cons, String.utf8Len_append, hascii.utf8Len_eq]
      rfl
    refine ⟨back, ?_, by simp; omega, ?_⟩
    · have hfrom := Text.from?_append ('&' :: name ++ [';']) back
      rw [hskip] at hfrom
      simpa using hfrom
    · rw [decode, if_pos rfl, hstart]
      simp

/-- Decoding at byte positions never fails, and comes to the same. -/
theorem decodeBytes?_eq (s : List Char) : decodeBytes? s = some (decode s) := by
  induction hlength : s.length using Nat.strong_induction_on generalizing s with
  | _ n ih =>
    subst hlength
    rw [decodeBytes?]
    by_cases hmem : '&' ∈ s
    · obtain ⟨front, rest, rfl, hfront⟩ := List.eq_append_cons_of_mem hmem
      have hfind : findChar? (· == '&') (front ++ '&' :: rest) = some (utf8Len front) :=
        Text.findChar?_append (by simpa using fun d hd (he : d = '&') => hfront (he ▸ hd)) rfl rest
      obtain ⟨next, hnext, hle, hdecode⟩ := exists_after_reference rest
      have hlt : next.length < (front ++ '&' :: rest).length := by
        rw [List.length_append, List.length_cons]
        omega
      rw [hfind, decode_append_of_notMem hfront, hdecode]
      simp only [Text.upTo?_append, Text.from?_append, referenceAt?_eq, hnext, hlt, ih _ hlt next rfl, if_true,
        Option.bind_eq_bind, Option.bind_some, Option.pure_def]
    · rw [Text.findChar?_eq_none (by simpa using fun d hd (he : d = '&') => hmem (he ▸ hd)), decode_of_notMem hmem]

/-- What was written with references is decoded to what it was, and has none of the characters in it that would
end it where it stands. Text without ampersand is left alone by decoding, and so is what has been decoded:
whatever a reference stands for, decoding goes on behind the reference. Counting bytes comes to the same. -/
theorem decode_encode_once (place : Place) (s x y : List Char) (hx : '&' ∉ x) :
    decode (encode place s) = s ∧
    ('<' ∉ encode .content s ∧ '>' ∉ encode .content s ∧ '"' ∉ encode .quoted s) ∧
    decode (x ++ y) = x ++ decode y ∧
    decode (encode place s ++ y) = s ++ decode y ∧
    (∀ name c, ';' ∉ name → name.length < 12 → value? name = some c →
      decode (x ++ '&' :: (name ++ ';' :: y)) = x ++ c :: decode y) ∧
    decodeBytes? (encode place s) = some s ∧
    decodeBytes? (x ++ y) = some (x ++ decode y) ∧
    decodeBytes? (encode place s ++ y) = some (s ++ decode y) := by
  have hplain := decode_append_of_notMem hx y
  have hwritten := decode_encode_append place s y
  refine ⟨decode_encode place s, ⟨bracket_notMem_encode s, closing_notMem_encode s, quote_notMem_encode s⟩, hplain,
    hwritten, fun name c hname hlength hvalue => ?_, ?_, ?_, ?_⟩
  · rw [decode_append_of_notMem hx, decode_reference hname hlength hvalue]
  · rw [decodeBytes?_eq, decode_encode]
  · rw [decodeBytes?_eq, hplain]
  · rw [decodeBytes?_eq, hwritten]

/-- An ampersand that has been decoded does not begin a reference with the letters behind it, and neither does
the text in front become part of one. -/
theorem decode_ampersand_once :
    '&' ∉ ['é', ';'] ∧
    decode ['&', 'a', 'm', 'p', ';', 'l', 't', ';'] = ['&', 'l', 't', ';'] ∧
    decodeBytes? ['é', ';', '&', 'a', 'm', 'p', ';', 'l', 't', ';'] = some ['é', ';', '&', 'l', 't', ';'] := by
  have hx : '&' ∉ ['é', ';'] := by decide
  have hrest : decode ['l', 't', ';'] = ['l', 't', ';'] := decode_of_notMem (by decide)
  obtain ⟨-, -, -, hwritten, -⟩ := decode_encode_once .content ['&'] ['é', ';'] ['l', 't', ';'] hx
  have hampersand : decode ['&', 'a', 'm', 'p', ';', 'l', 't', ';'] = ['&', 'l', 't', ';'] := by
    rw [hrest] at hwritten
    exact hwritten
  obtain ⟨-, -, -, -, -, -, hbytes, -⟩ := decode_encode_once .content ['&'] ['é', ';']
    ['&', 'a', 'm', 'p', ';', 'l', 't', ';'] hx
  rw [hampersand] at hbytes
  exact ⟨hx, hampersand, hbytes⟩

end Reference

namespace Token

variable {name s front : List Char} {c : Char}

/-- Some bytes from one position up to another one; it is an error if there are not so many. -/
def bytesBetween? (i j : Nat) (bytes : List UInt8) : Option (List UInt8) :=
  if i ≤ j ∧ j ≤ bytes.length then some ((bytes.take j).drop i) else none

/-- Whether an end tag begins at a position. -/
def endTagAt? (name bytes : List UInt8) (i : Nat) : Option Bool := do
  let back ← bytesBetween? i bytes.length bytes
  if [60, 47].isPrefixOf back && i + 2 + name.length ≤ bytes.length then
    let word ← bytesBetween? (i + 2) (i + 2 + name.length) bytes
    pure (word.map lowerByte == name.map lowerByte)
  else pure false

/-- The first position at which the end tag of an element begins. All positions are tried, inside of characters
as well. -/
def findEndTag? (name s : List Char) : Option (Option Nat) :=
  (List.range (utf8 s).length).findM? (endTagAt? (utf8 name) (utf8 s))

/-- Whether some bytes begin with an end tag. -/
def beginsWithEndTag (name bytes : List UInt8) : Bool :=
  [60, 47].isPrefixOf bytes && ((bytes.drop 2).take name.length).map lowerByte == name.map lowerByte

theorem bytesBetween?_append (front back : List UInt8) {i j : Nat} (hij : i ≤ j) (hj : j ≤ back.length) :
    bytesBetween? (front.length + i) (front.length + j) (front ++ back) = some ((back.take j).drop i) := by
  rw [bytesBetween?, if_pos ⟨by omega, by rw [List.length_append]; omega⟩, List.take_length_add_append,
    List.drop_length_add_append]

theorem endTagAt?_append (name front back : List UInt8) :
    endTagAt? name (front ++ back) front.length = some (beginsWithEndTag name back) := by
  have hback : bytesBetween? front.length (front ++ back).length (front ++ back) = some back := by
    have := bytesBetween?_append front back (Nat.zero_le back.length) (Nat.le_refl _)
    rwa [List.take_length, List.drop_zero, Nat.add_zero, ← List.length_append] at this
  rw [endTagAt?, hback, beginsWithEndTag]
  by_cases hmark : [60, 47].isPrefixOf back = true
  · by_cases hlong : front.length + 2 + name.length ≤ (front ++ back).length
    · have hword : bytesBetween? (front.length + 2) (front.length + 2 + name.length) (front ++ back)
          = some ((back.drop 2).take name.length) := by
        rw [List.length_append] at hlong
        rw [Nat.add_assoc, bytesBetween?_append front back (by omega) (by omega), List.drop_take,
          Nat.add_sub_cancel_left]
      simp only [hmark, hlong, hword, decide_true, Bool.true_and, if_true, Option.bind_eq_bind, Option.bind_some,
        Option.pure_def]
    · have hshort : ((back.drop 2).take name.length).map lowerByte ≠ name.map lowerByte := by
        intro he
        have hlength := congrArg List.length he
        have htwo : 2 ≤ back.length := (List.isPrefixOf_iff_prefix.1 hmark).length_le
        rw [List.length_append] at hlong
        simp only [List.length_map, List.length_take, List.length_drop] at hlength
        omega
      simp only [hmark, hlong, decide_false, Bool.and_false, Bool.false_eq_true, if_false,
        Option.bind_eq_bind, Option.bind_some, Option.pure_def, beq_eq_false_iff_ne.2 hshort]
  · simp only [hmark, Bool.false_and, Bool.false_eq_true, if_false, Option.bind_eq_bind, Option.bind_some,
      Option.pure_def]

/-- Only the characters of a mark have its bytes. -/
theorem isPrefixOf_utf8 (hmark : ∀ rest, s = '<' :: '/' :: rest → False) : [60, 47].isPrefixOf (utf8 s) = false := by
  cases s with
  | nil => rfl
  | cons c s =>
    by_cases hc : c = '<'
    · subst hc
      cases s with
      | nil => rfl
      | cons c s =>
        obtain ⟨b, bytes, hbytes, hne⟩ := Text.head_utf8_ne (a := '/') rfl (fun he => hmark s (he ▸ rfl)) s
        have hcons : utf8 ('<' :: c :: s) = 60 :: b :: bytes := by
          rw [Text.utf8_cons, hbytes]
          rfl
        have hbyte : ((47 : UInt8) == b) = false := beq_eq_false_iff_ne.2 (Ne.symm hne)
        rw [hcons, List.isPrefixOf_cons_cons, List.isPrefixOf_cons_cons, hbyte, Bool.false_and, Bool.and_false]
    · obtain ⟨b, bytes, hbytes, hne⟩ := Text.head_utf8_ne (a := '<') rfl hc s
      have hbyte : ((60 : UInt8) == b) = false := beq_eq_false_iff_ne.2 (Ne.symm hne)
      rw [hbytes, List.isPrefixOf_cons_cons, hbyte, Bool.false_and]

/-- In a text the bytes of an end tag are those of its characters. -/
theorem beginsWithEndTag_utf8 (hname : IsAscii name) (s : List Char) :
    beginsWithEndTag (utf8 name) (utf8 s) = beginsEndTag name s := by
  rw [beginsWithEndTag, beginsEndTag.eq_def]
  split
  · rename_i rest
    have hmark : [60, 47].isPrefixOf (utf8 ('<' :: '/' :: rest)) = true := rfl
    have hdrop : (utf8 ('<' :: '/' :: rest)).drop 2 = utf8 rest := rfl
    rw [hmark, hdrop, Bool.true_and, Bool.eq_iff_iff, beq_iff_eq, Text.map_lowerByte_take_utf8 hname]
  · rename_i hmark
    rw [isPrefixOf_utf8 hmark, Bool.false_and]

/-- No end tag begins inside of a character. -/
theorem beginsWithEndTag_inside {name bytes rest : List UInt8} (hbytes : ∀ b ∈ bytes, 128 ≤ b) (hne : bytes ≠ []) :
    beginsWithEndTag name (bytes ++ rest) = false := by
  obtain ⟨b, bytes, rfl⟩ := List.exists_cons_of_ne_nil hne
  have hb : (60 : UInt8) ≠ b := fun he => absurd (hbytes b List.mem_cons_self) (by rw [← he]; decide)
  rw [beginsWithEndTag, List.cons_append, List.isPrefixOf_cons_cons, beq_eq_false_iff_ne.2 hb, Bool.false_and,
    Bool.false_and]

theorem findM?_append {α : Type} {test : α → Option Bool} {as : List α} (h : ∀ a ∈ as, test a = some false)
    (bs : List α) : (as ++ bs).findM? test = bs.findM? test := by
  induction as with
  | nil => rfl
  | cons a as ih =>
    obtain ⟨ha, has⟩ := List.forall_mem_cons.1 h
    rw [List.cons_append, List.findM?, ha]
    exact ih has

/-- At a boundary the bytes say what the characters say. -/
theorem endTagAt?_boundary (hname : IsAscii name) (front s : List Char) :
    endTagAt? (utf8 name) (utf8 (front ++ s)) (utf8Len front) = some (beginsEndTag name s) := by
  rw [Text.utf8_append, ← Text.length_utf8, endTagAt?_append, beginsWithEndTag_utf8 hname]

theorem endTagAt?_inside (name front s : List Char) {m : Nat} (hm : 0 < m) (hsize : m < c.utf8Size) :
    endTagAt? (utf8 name) (utf8 (front ++ c :: s)) (utf8Len front + m) = some false := by
  have hsplit : utf8 (front ++ c :: s) = (utf8 front ++ (String.utf8EncodeChar c).take m)
      ++ ((String.utf8EncodeChar c).drop m ++ utf8 s) := by
    rw [Text.utf8_append, Text.utf8_cons, List.append_assoc, ← List.append_assoc (List.take m _),
      List.take_append_drop]
  have hlength : (utf8 front ++ (String.utf8EncodeChar c).take m).length = utf8Len front + m := by
    rw [List.length_append, Text.length_utf8, List.length_take, String.length_utf8EncodeChar,
      Nat.min_eq_left (Nat.le_of_lt hsize)]
  rw [hsplit, ← hlength, endTagAt?_append, beginsWithEndTag_inside]
  · exact fun b hb => Text.le_of_mem_utf8EncodeChar (by omega) (List.mem_of_mem_drop hb)
  · rw [Ne, List.drop_eq_nil_iff, String.length_utf8EncodeChar]
    omega

/-- Looking on from a boundary finds the end tag where the raw text ends. -/
theorem findEndTag?_from (hname : IsAscii name) (front s : List Char) :
    ∃ found, (List.range' (utf8Len front) (utf8Len s)).findM? (endTagAt? (utf8 name) (utf8 (front ++ s)))
        = some found ∧ found.getD (utf8Len (front ++ s)) = utf8Len front + utf8Len (rawText name s).1 := by
  induction s generalizing front with
  | nil => exact ⟨none, rfl, by rw [List.append_nil]; rfl⟩
  | cons c s ih =>
    obtain ⟨k, hk⟩ : ∃ k, c.utf8Size = k + 1 := ⟨c.utf8Size - 1, by have := c.utf8Size_pos; omega⟩
    have hrange : List.range' (utf8Len front) (utf8Len (c :: s))
        = utf8Len front :: (List.range' (utf8Len front + 1) k ++ List.range' (utf8Len (front ++ [c])) (utf8Len s)) := by
      rw [String.utf8Len_append, String.utf8Len_cons, String.utf8Len_cons, String.utf8Len_nil, hk,
        show utf8Len s + (k + 1) = k + utf8Len s + 1 by omega, List.range'_succ,
        show utf8Len front + (0 + (k + 1)) = utf8Len front + 1 + k by omega, List.range'_append_1]
    have hinside : ∀ i ∈ List.range' (utf8Len front + 1) k,
        endTagAt? (utf8 name) (utf8 (front ++ c :: s)) i = some false := by
      intro i hi
      obtain ⟨hlow, hhigh⟩ := List.mem_range'_1.1 hi
      obtain ⟨m, rfl⟩ := Nat.exists_eq_add_of_le (Nat.le_of_lt hlow)
      exact endTagAt?_inside name front s (by omega) (by omega)
    rw [hrange, List.findM?, endTagAt?_boundary hname, rawText]
    cases beginsEndTag name (c :: s) with
    | true => exact ⟨some (utf8Len front), rfl, rfl⟩
    | false =>
      obtain ⟨found, hfound, hget⟩ := ih (front ++ [c])
      rw [List.append_assoc, List.singleton_append] at hfound hget
      refine ⟨found, (findM?_append hinside _).trans hfound, ?_⟩
      rw [hget, String.utf8Len_append]
      show _ = utf8Len front + utf8Len (c :: (rawText name s).1)
      rw [String.utf8Len_cons, String.utf8Len_cons, String.utf8Len_nil]
      omega

/-- Looking for an end tag never fails, and finds it where the raw text ends. -/
theorem findEndTag?_eq (hname : IsAscii name) (s : List Char) :
    ∃ found, findEndTag? name s = some found ∧ found.getD (utf8Len s) = utf8Len (rawText name s).1 := by
  obtain ⟨found, hfound, hget⟩ := findEndTag?_from hname [] s
  refine ⟨found, ?_, hget.trans (Nat.zero_add _)⟩
  rw [findEndTag?, List.range_eq_range', Text.length_utf8]
  exact hfound

end Token

end LiveMarkup.Markup
