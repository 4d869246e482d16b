import LiveMarkup.Proofs.Document.Passes
import Mathlib.Logic.Relation
/-!
# All of a text is read

Reading in place comes to an end for every text, with all of it read and the document that `Document.parse`
makes. No cut is made inside of a character on the way, every pass gets on by a character at least, and the
nodes that are open stay nested, the fragment outermost (`Scanner.run_reads_all`).
-/

namespace LiveMarkup.Scanner

open Markup (Builder Namespace Tag Token)
open Markup.Reference (decode decodeBytes? decodeBytes?_eq)
open Markup.Token (findEndTag?)
open String (utf8Len)
open Text (from?)

/-- A position is behind the character at another one, there or further on, and is a boundary too. -/
def Advances (s : String) (i j : Nat) : Prop :=
  ∃ c rest, from? i s.toList = some (c :: rest) ∧ i + c.utf8Size ≤ j ∧ String.Pos.Raw.IsValid s ⟨j⟩

/-- One pass of reading, where the text has not ended. -/
def Step (s : String) (r next : Scanner) : Prop :=
  r.position < s.utf8ByteSize ∧ pass s.toList r = some next

/-- Reading a text into a document has come as far as this. -/
def Reached (d : Document) (space : Namespace) (s : String) : Scanner → Prop :=
  Relation.ReflTransGen (Step s) (start d space)

/-- What holds between two passes. -/
structure Sane (d : Document) (space : Namespace) (s : String) (r : Scanner) : Prop where
  boundary : String.Pos.Raw.IsValid s ⟨r.position⟩
  bounded : r.position ≤ s.utf8ByteSize
  fragment : r.stack.head? = some ((d.parse space s).1, space) ∧ r.document.kind (d.parse space s).1 = .fragment
  nested : r.stack.IsChain fun outer inner => r.document.lastChild? outer.1 = some inner.1

variable {d : Document} {space : Namespace} {b : Builder} {r : Scanner} {input rest : List Char} {s : String} {i : Nat}

/-- What can be cut off in front of some rest ends at a boundary. -/
theorem isValid_of_from? (h : from? i s.toList = some rest) : String.Pos.Raw.IsValid s ⟨i⟩ := by
  rw [← Text.isSome_splitAt?_iff, ← Option.isSome_map, ← from?, h]
  rfl

/-- Behind a boundary there is some rest. -/
theorem exists_from? (h : String.Pos.Raw.IsValid s ⟨i⟩) : ∃ rest, from? i s.toList = some rest := by
  rw [← Text.isSome_splitAt?_iff] at h
  exact Option.isSome_iff_exists.1 (Option.isSome_map.trans h)

/-! ### The run -/

/-- Behind a pass there is less to read than in front of it. -/
theorem accept_next_shrinks (b : Builder) (c : Char) (rest : List Char) :
    (b.accept (Token.next c rest).1 (Token.next c rest).2).2 <:+ c :: rest ∧
      (b.accept (Token.next c rest).1 (Token.next c rest).2).2.length < (c :: rest).length := by
  have hsuffix := (b.accept_suffix (Token.next c rest).1 (Token.next c rest).2).trans (Token.next_suffix c rest)
  exact ⟨hsuffix.trans (List.suffix_cons c rest), Nat.lt_succ_of_le hsuffix.length_le⟩

/-- Reading goes on to the end of the text, whatever is left of it, and takes all of it in. -/
theorem run_eq (h : Mirrors d space b r) (hfrom : from? r.position input = some rest) :
    ∃ last, run input r = some last ∧ Mirrors d space (b.run rest) last ∧ last.position = utf8Len input := by
  induction hlength : rest.length using Nat.strong_induction_on generalizing rest b r with
  | _ n ih =>
    subst hlength
    have hend := Text.from?_length hfrom
    cases rest with
    | nil =>
      rw [Builder.run]
      exact ⟨r, by rw [run, if_neg (by simp at hend; omega)], h, by simpa using hend⟩
    | cons c rest =>
      obtain ⟨next, hpass, hmirrors, hbehind⟩ := pass_eq h hfrom
      obtain ⟨hsuffix, hshort⟩ := accept_next_shrinks b c rest
      obtain ⟨_, _, heq, hforward, hbound⟩ := Text.from?_advance hfrom hbehind hsuffix hshort
      cases heq
      have hsize := c.utf8Size_pos
      obtain ⟨last, hrun, hlast, hposition⟩ := ih _ hshort hmirrors hbehind rfl
      refine ⟨last, ?_, ?_, hposition⟩
      · rw [run, if_pos (by omega), hpass]
        dsimp only
        rw [if_pos ⟨by omega, hbound⟩, hrun]
      · rw [Builder.run]
        exact hlast

/-- Whatever has been read, some beginning of the text has been taken in. -/
theorem Reached.mirrors (h : Reached d space s r) :
    ∃ b rest, Mirrors d space b r ∧ from? r.position s.toList = some rest := by
  induction h with
  | refl => exact ⟨_, _, mirrors_start d space, Text.from?_zero _⟩
  | tail _ hstep ih =>
    obtain ⟨hlt, hpass⟩ := hstep
    obtain ⟨b, rest, hmirrors, hfrom⟩ := ih
    obtain ⟨c, t, rfl⟩ := Text.exists_cons_of_from? hfrom (hlt.trans_eq (String.utf8Len_toList s).symm)
    obtain ⟨next, hpass', hnext, hbehind⟩ := pass_eq hmirrors hfrom
    cases hpass.symm.trans hpass'
    exact ⟨_, _, hnext, hbehind⟩

/-- The outermost open node is the fragment that reading has begun with. -/
theorem Mirrors.fragment (h : Mirrors d space b r) :
    r.stack.head? = some (d.next, space) ∧ r.document.kind d.next = .fragment := by
  have houter : [(d.next, space)] <:+ r.stack.reverse := by
    rw [h.stack, List.reverse_reverse]
    have hdrop := (root d space).nodes_enterAll_drop (Nat.le_refl b.frames.length)
    rw [List.drop_length] at hdrop
    rw [show [(d.next, space)] = _ from hdrop]
    exact List.drop_suffix _ _
  obtain ⟨inner, hinner⟩ := houter
  have hstack : r.stack.head? = some (d.next, space) := by
    rw [← List.getLast?_reverse, ← hinner, List.getLast?_concat]
  refine ⟨hstack, ?_⟩
  have hkind := congrArg List.getLast? h.kinds
  rw [List.getLast?_concat, List.map_reverse, List.getLast?_reverse, List.head?_map, hstack] at hkind
  exact Option.some.inj hkind

theorem Mirrors.sane (h : Mirrors d space b r) (hfrom : from? r.position s.toList = some rest) :
    Sane d space s r where
  boundary := isValid_of_from? hfrom
  bounded := by
    have := Text.from?_length hfrom
    rw [String.utf8Len_toList] at this
    omega
  fragment := h.fragment
  nested := List.isChain_reverse.1 h.nested.chain

/-- Some rest of a text that is shorter than the rest at a position begins further on. -/
theorem advances_of_from? {back : List Char} {j : Nat} (h : from? i s.toList = some rest)
    (h' : from? j s.toList = some back) (hsuffix : back <:+ rest) (hshort : back.length < rest.length) :
    Advances s i j := by
  obtain ⟨c, t, rfl, hforward, -⟩ := Text.from?_advance h h' hsuffix hshort
  exact ⟨c, t, h, hforward, isValid_of_from? h'⟩

/-- A text is read to its end, and comes to what parsing makes of it. -/
theorem run_start (d : Document) (space : Namespace) (s : String) :
    ∃ last, run s.toList (start d space) = some last ∧ last.position = s.utf8ByteSize ∧
      last.document = (d.parse space s).2 := by
  obtain ⟨last, hrun, hmirrors, hposition⟩ := run_eq (mirrors_start d space) (Text.from?_zero s.toList)
  refine ⟨last, hrun, hposition.trans (String.utf8Len_toList s), ?_⟩
  rw [hmirrors.document, Builder.laid_finish]
  rfl

/-- Every pass that is to be made gets on. -/
theorem Reached.advances (h : Reached d space s r) (hlt : r.position < s.utf8ByteSize) :
    ∃ next, pass s.toList r = some next ∧ Advances s r.position next.position := by
  obtain ⟨b, rest, hmirrors, hfrom⟩ := h.mirrors
  obtain ⟨c, t, rfl⟩ := Text.exists_cons_of_from? hfrom (hlt.trans_eq (String.utf8Len_toList s).symm)
  obtain ⟨next, hpass, -, hbehind⟩ := pass_eq hmirrors hfrom
  obtain ⟨hsuffix, hshort⟩ := accept_next_shrinks b c t
  exact ⟨next, hpass, advances_of_from? hfrom hbehind hsuffix hshort⟩

/-- A pass through the attributes of a start tag leaves them or gets on. -/
theorem attributePass_advances (hvalid : String.Pos.Raw.IsValid s ⟨r.position⟩) (n : NodeId) (inside : Namespace) :
    (∃ closed next, attributePass s.toList n inside r = some (.leave closed next) ∧
      String.Pos.Raw.IsValid s ⟨next.position⟩) ∨
    ∃ next, attributePass s.toList n inside r = some (.stay next) ∧ Advances s r.position next.position := by
  obtain ⟨rest, hfrom⟩ := exists_from? hvalid
  obtain ⟨turn, hturn, hfollows⟩ := attributePass_eq hfrom n inside
  cases turn with
  | leave closed next =>
    obtain ⟨back, -, hbehind, -⟩ := hfollows
    exact .inl ⟨closed, next, hturn, isValid_of_from? hbehind⟩
  | stay next =>
    obtain ⟨back, given, -, hbehind, hsuffix, hshort, -⟩ := hfollows
    exact .inr ⟨next, hturn, advances_of_from? hfrom hbehind hsuffix hshort⟩

/-- Where the end tag of an element that is not read as markup is found, there is a boundary. -/
theorem findEndTag?_boundary {tag : Tag} (htag : tag.rawText?.isSome = true) (s : String) :
    ∃ found, findEndTag? tag.name.toList s.toList = some found ∧
      ∀ i ∈ found, String.Pos.Raw.IsValid s ⟨i⟩ := by
  obtain ⟨kind, hkind⟩ := Option.isSome_iff_exists.1 htag
  obtain ⟨found, hfound, hget⟩ := Token.findEndTag?_eq (isAscii_of_rawText? hkind) s.toList
  refine ⟨found, hfound, fun i hi => ?_⟩
  obtain rfl : found = some i := hi
  have hsplit := Token.append_rawText tag.name.toList s.toList
  rw [Option.getD_some] at hget
  subst hget
  exact isValid_of_from? (Text.from?_eq_some_iff.2 ⟨_, hsplit.symm, rfl⟩)

/-- A text of any kind is read to its end, and comes to what parsing makes. Between two passes the position is a
boundary, the fragment is open, and each open node is the last child of the one around it; every pass that is
still to be made gets on. So does every pass through the attributes of a start tag that does not leave them.
References are decoded in every text, and the end of a raw text is looked for in every text. The bytes compared
there need not begin at a boundary, but what is found does. -/
theorem run_reads_all (d : Document) (space : Namespace) (s : String) :
    (∃ last, run s.toList (start d space) = some last ∧ last.position = s.utf8ByteSize ∧
      last.document = (d.parse space s).2) ∧
    (∀ r, Reached d space s r → Sane d space s r ∧
      (r.position < s.utf8ByteSize →
        ∃ next, pass s.toList r = some next ∧ Advances s r.position next.position)) ∧
    (∀ r n inside, String.Pos.Raw.IsValid s ⟨r.position⟩ →
      (∃ closed next, attributePass s.toList n inside r = some (.leave closed next) ∧
        String.Pos.Raw.IsValid s ⟨next.position⟩) ∨
      ∃ next, attributePass s.toList n inside r = some (.stay next) ∧ Advances s r.position next.position) ∧
    decodeBytes? s.toList = some (decode s.toList) ∧
    ∀ tag : Tag, tag.rawText?.isSome = true →
      ∃ found, findEndTag? tag.name.toList s.toList = some found ∧
        ∀ i ∈ found, String.Pos.Raw.IsValid s ⟨i⟩ := by
  refine ⟨run_start d space s, fun r hr => ⟨?_, hr.advances⟩, fun r n inside hvalid => ?_, decodeBytes?_eq _,
    fun tag htag => findEndTag?_boundary htag s⟩
  · obtain ⟨b, rest, hmirrors, hfrom⟩ := hr.mirrors
    exact hmirrors.sane hfrom
  · exact attributePass_advances hvalid n inside

end LiveMarkup.Scanner
