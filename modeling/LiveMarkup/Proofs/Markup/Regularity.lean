import LiveMarkup.Proofs.Markup.Canonical
import LiveMarkup.Proofs.Text.Basic
import Mathlib.Data.List.TakeWhile
/-!
# What has been read is regular

However malformed a text is, the tokens that it is cut into have proper names and comments that end where
they should (`Token.isProper_next`). Elements are opened by proper tags only and everything is closed in the
end, so the markup that has been read in part stays regular with each token (`Builder.IsRegular.accept`), and
the trees at the end are regular (`areRegular_parse`).
-/

namespace LiveMarkup.Markup

open Text (isLetter lower trimStart)

/-! ### Tokens -/

namespace Token

variable {name s : List Char} {c : Char}

theorem isTagNamePart_of_isLetter (h : isLetter c = true) : isTagNamePart c = true := by
  have hne : ∀ d : Char, isLetter d = false → c ≠ d := by
    rintro d hd rfl
    rw [h] at hd
    cases hd
  simp [isTagNamePart, Text.isBlank_of_isLetter h, hne '/' (by decide), hne '>' (by decide)]

theorem isAttributeNamePart_of_isLetter (h : isLetter c = true) : isAttributeNamePart c = true := by
  have hne : c ≠ '=' := by
    rintro rfl
    cases h
  simp [isAttributeNamePart, isTagNamePart_of_isLetter h, hne]

theorem IsTagName.lower (h : IsTagName name) : IsTagName (lower name) := by
  refine ⟨?_, fun c hc => ?_⟩
  · obtain ⟨c, t, rfl, hc⟩ := h.exists_eq_cons
    rcases Text.toLower_cases c with he | ⟨-, hlower⟩
    · simpa [Text.lower, he] using hc
    · simpa [Text.lower] using Text.isLetter_of_isLower hlower
  · obtain ⟨d, hd, rfl⟩ := List.mem_map.1 hc
    rcases Text.toLower_cases d with he | ⟨-, hlower⟩
    · rw [he]
      exact h.parts d hd
    · exact isTagNamePart_of_isLetter (Text.isLetter_of_isLower hlower)

theorem IsAttributeName.lower (h : IsAttributeName name) : IsAttributeName (lower name) := by
  rcases h with rfl | ⟨hne, hparts⟩
  · exact .inl (by decide)
  · refine .inr ⟨by simpa [Text.lower] using hne, fun c hc => ?_⟩
    obtain ⟨d, hd, rfl⟩ := List.mem_map.1 hc
    rcases Text.toLower_cases d with he | ⟨-, hlower⟩
    · rw [he]
      exact hparts d hd
    · exact isAttributeNamePart_of_isLetter (Text.isLetter_of_isLower hlower)

/-- A token with proper names, and with data that its mark ends. -/
def IsProper : Token → Prop
  | startTag name attributes _ => IsTagName name ∧ ∀ a ∈ attributes, IsAttributeName a.1
  | endTag _ => True
  | comment data => ¬['-', '-', '>'] <:+: data
  | text _ => True

theorem isAttributeName_attributeName (hblank : Text.isBlank c = false) (hslash : c ≠ '/') (hclose : c ≠ '>')
    (rest : List Char) : IsAttributeName (attributeName c rest).1 := by
  rw [attributeName]
  split
  · exact .inl rfl
  · rename_i hequals
    have hc : isAttributeNamePart c = true := by
      simp [isAttributeNamePart, isTagNamePart, hblank, hslash, hclose, hequals]
    exact .inr ⟨List.cons_ne_nil _ _, List.forall_mem_cons.2 ⟨hc, fun d hd => List.mem_takeWhile_imp hd⟩⟩

theorem isBlank_of_trimStart {rest : List Char} (h : trimStart s = c :: rest) : Text.isBlank c = false :=
  Text.eq_false_of_mem_head?_dropWhile (s := s) (Option.mem_def.2 (congrArg List.head? h))

/-- Each attribute in a tag has a proper name. -/
theorem isAttributeName_tagTail (s : List Char) : ∀ a ∈ (tagTail s).attributes, IsAttributeName a.1 := by
  fun_induction tagTail s with
  | case1 | case2 | case3 => exact fun a ha => absurd ha List.not_mem_nil
  | case4 s rest _ h ih => exact ih
  | case5 s c rest hclosed hclose hslash h name value tail ih =>
    refine List.forall_mem_cons.2 ⟨?_, ih⟩
    exact isAttributeName_attributeName (isBlank_of_trimStart h) hslash hclose rest

theorem isProper_commentUpTo (front : List Char) (h : front ++ ['>'] <:+ ['-', '-', '>']) (s : List Char) :
    (commentUpTo (front ++ ['>']) s).1.IsProper := by
  intro hin
  exact Text.not_infix_cutAt (by simp) s (h.isInfix.trans hin)

theorem isProper_startTagFrom (h : s.head?.any isLetter = true) : (startTagFrom s).1.IsProper := by
  refine ⟨⟨?_, fun c hc => List.mem_takeWhile_imp hc⟩, isAttributeName_tagTail _⟩
  cases s with
  | nil => cases h
  | cons c s =>
    have hc : isLetter c = true := by simpa using h
    rw [List.takeWhile_cons_of_pos (isTagNamePart_of_isLetter hc)]
    exact h

theorem isProper_afterBracket (s : List Char) : (afterBracket s).1.IsProper := by
  unfold afterBracket
  split
  · exact isProper_commentUpTo ['-', '-'] (List.suffix_refl _) _
  · exact isProper_commentUpTo [] (by decide) _
  · exact isProper_commentUpTo [] (by decide) _
  · split
    · trivial
    · exact isProper_commentUpTo [] (by decide) _
  · split
    · rename_i h
      exact isProper_startTagFrom h
    · trivial

theorem isProper_next (c : Char) (rest : List Char) : (next c rest).1.IsProper := by
  rw [next]
  split
  · exact isProper_afterBracket rest
  · trivial

end Token

/-! ### Tags -/

/-- Of the attributes of one name the first is kept. -/
theorem firstOfEachName_spec (attributes : List (String × String)) :
    ((firstOfEachName attributes).map Prod.fst).Nodup ∧ firstOfEachName attributes ⊆ attributes := by
  have hfold : ∀ (rest kept : List (String × String)), (kept.map Prod.fst).Nodup →
      ((rest.foldl (fun kept a => if kept.any (·.1 == a.1) then kept else kept ++ [a]) kept).map
          Prod.fst).Nodup ∧
        rest.foldl (fun kept a => if kept.any (·.1 == a.1) then kept else kept ++ [a]) kept
          ⊆ kept ++ rest := by
    intro rest
    induction rest with
    | nil => intro kept hkept; exact ⟨hkept, by simp⟩
    | cons a rest ih =>
      intro kept hkept
      rw [List.foldl_cons]
      split
      · obtain ⟨hnodup, hsub⟩ := ih kept hkept
        refine ⟨hnodup, fun b hb => ?_⟩
        rcases List.mem_append.1 (hsub hb) with h | h
        · exact List.mem_append_left _ h
        · exact List.mem_append_right _ (List.mem_cons_of_mem a h)
      · rename_i hnew
        have hnodup : ((kept ++ [a]).map Prod.fst).Nodup := by
          rw [List.map_append, List.nodup_append]
          refine ⟨hkept, by simp, fun n hn m hm => ?_⟩
          obtain ⟨b, hb, rfl⟩ := List.mem_map.1 hn
          rw [List.map_singleton, List.mem_singleton] at hm
          rintro he
          exact hnew (List.any_eq_true.2 ⟨b, hb, by simp [he, hm]⟩)
        have := ih (kept ++ [a]) hnodup
        rwa [List.append_assoc, List.singleton_append] at this
  simpa [firstOfEachName] using hfold attributes [] (by simp)

namespace Tag

variable {outer : Namespace} {name : List Char}

theorem toList_spelling (space : Namespace) (name : List Char) :
    (spelling space name).toList = if space = .html then lower name else name := by
  cases space <;> simp [spelling]

theorem isTagName_spelling (h : Token.IsTagName name) (space : Namespace) :
    Token.IsTagName (spelling space name).toList := by
  rw [toList_spelling]
  split
  · exact h.lower
  · exact h

theorem isAttributeName_spelling (h : Token.IsAttributeName name) (space : Namespace) :
    Token.IsAttributeName (spelling space name).toList := by
  rw [toList_spelling]
  split
  · exact h.lower
  · exact h

theorem spaceOf_spelling (outer space : Namespace) (name : List Char) :
    spaceOf outer (spelling space name).toList = spaceOf outer name := by
  rw [toList_spelling]
  split
  · rw [spaceOf, Text.sameLetters_lower, spaceOf]
  · rfl

theorem lower_spelling {space : Namespace} (h : space = .html) (name : List Char) :
    lower (spelling space name).toList = (spelling space name).toList := by
  rw [toList_spelling, if_pos h, Text.lower_lower]

/-- A start tag with proper names stands for a regular tag. -/
theorem isRegular_ofStart (hname : Token.IsTagName name) {attributes : List (List Char × List Char)}
    (hattributes : ∀ a ∈ attributes, Token.IsAttributeName a.1) (outer : Namespace) :
    (ofStart outer name attributes).IsRegular outer := by
  obtain ⟨hnodup, hsub⟩ := firstOfEachName_spec
    (attributes.map fun a => (spelling (spaceOf outer name) a.1, String.ofList a.2))
  have horigin : ∀ a ∈ (ofStart outer name attributes).attributes,
      ∃ b ∈ attributes, a.1 = spelling (spaceOf outer name) b.1 := by
    intro a ha
    obtain ⟨b, hb, rfl⟩ := List.mem_map.1 (hsub ha)
    exact ⟨b, hb, rfl⟩
  refine ⟨isTagName_spelling hname _, ?_, fun a ha => ?_, hnodup, fun hspace =>
    ⟨lower_spelling hspace name, fun a ha => ?_⟩⟩
  · exact (spaceOf_spelling outer _ name).symm
  · obtain ⟨b, hb, he⟩ := horigin a ha
    rw [he]
    exact isAttributeName_spelling (hattributes b hb) _
  · obtain ⟨b, -, he⟩ := horigin a ha
    rw [he]
    exact lower_spelling hspace b.1

end Tag

/-! ### Content -/

variable {space : Namespace} {content : List Tree} {tree : Tree}

theorem areRegular_nil (space : Namespace) : AreRegular space [] :=
  ⟨List.isChain_nil, trivial⟩

theorem areRegular_reverse : AreRegular space content.reverse ↔ AreRegular space content := by
  have hseparate : AreSeparate content.reverse ↔ AreSeparate content := by
    rw [AreSeparate, List.isChain_reverse, AreSeparate]
    simp only [And.comm]
  have heach : EachIsRegular space content.reverse ↔ EachIsRegular space content := by
    simp [eachIsRegular_iff]
  exact ⟨fun h => ⟨hseparate.1 h.separate, heach.1 h.each⟩,
    fun h => ⟨hseparate.2 h.separate, heach.2 h.each⟩⟩

theorem AreRegular.cons (h : AreRegular space content) (htree : tree.IsRegular space)
    (htext : tree.isText = true → content.head?.any Tree.isText = false) :
    AreRegular space (tree :: content) := by
  refine ⟨List.isChain_cons.2 ⟨fun next hnext => ?_, h.separate⟩, htree, h.each⟩
  rintro ⟨ht, hn⟩
  have := htext ht
  rw [hnext] at this
  rw [Option.any_some, hn] at this
  cases this

/-- Text can be continued. -/
theorem AreRegular.replaceText {data data' : String} (h : AreRegular space (.text data :: content))
    (hne : data' ≠ "") : AreRegular space (.text data' :: content) :=
  ⟨List.isChain_cons.2 (List.isChain_cons.1 h.separate), hne, h.each.2⟩

/-! ### Markup that has been read in part -/

namespace Builder

/-- What has been read is regular, inside and in front of each open element, and each of these has been
opened by a regular tag and may have content. -/
inductive IsRegular (outer : Namespace) : Builder → Prop
  | outside {content : List Tree} (h : AreRegular outer content) : IsRegular outer ⟨outer, [], content⟩
  | inside {b : Builder} {tag : Tag} {content : List Tree} (hb : IsRegular outer b)
      (htag : tag.IsRegular b.space) (hvoid : tag.isVoid = false)
      (h : AreRegular tag.contentSpace content) : IsRegular outer { b.push tag with content }

namespace IsRegular

variable {outer : Namespace} {b : Builder} {tag : Tag}

theorem areRegular (h : b.IsRegular outer) : AreRegular b.space b.content := by
  cases h with
  | outside h => exact h
  | inside _ _ _ h => exact h

theorem withContent (h : b.IsRegular outer) (hcontent : AreRegular b.space content) :
    IsRegular outer { b with content } := by
  cases h with
  | outside _ => exact .outside hcontent
  | inside hb htag hvoid _ => exact .inside hb htag hvoid hcontent

theorem add (h : b.IsRegular outer) (htree : tree.IsRegular b.space) (htext : tree.isText = false) :
    (b.add tree).IsRegular outer :=
  h.withContent (h.areRegular.cons htree fun ht => absurd ht (by simp [htext]))

theorem addText (h : b.IsRegular outer) (s : List Char) : (b.addText s).IsRegular outer := by
  rw [Builder.addText]
  split
  · exact h
  · rename_i hne
    have hnonempty : String.ofList s ≠ "" := by simpa using hne
    have hcontent := h.areRegular
    split
    · rename_i data before heq
      rw [heq] at hcontent
      refine h.withContent (hcontent.replaceText fun he => hnonempty ?_)
      exact (String.append_eq_empty_iff.1 he).2
    · rename_i hnot
      refine h.withContent (hcontent.cons hnonempty fun _ => ?_)
      -- what is in front is no text, or it would have been continued
      cases hhead : b.content with
      | nil => rfl
      | cons first before =>
        cases first with
        | text data => exact absurd hhead (hnot data before)
        | element | comment => rfl

theorem push (h : b.IsRegular outer) (htag : tag.IsRegular b.space) (hvoid : tag.isVoid = false) :
    (b.push tag).IsRegular outer :=
  .inside h htag hvoid (areRegular_nil _)

theorem pop (h : b.IsRegular outer) : b.pop.IsRegular outer := by
  cases h with
  | outside h => exact .outside h
  | @inside b tag content hb htag hvoid h =>
    have hcontent := areRegular_reverse.2 h
    exact hb.add ⟨htag, fun hv => absurd hv (by simp [hvoid]), hcontent.separate, hcontent.each⟩ rfl

theorem popMany (h : b.IsRegular outer) (n : Nat) : (popMany n b).IsRegular outer := by
  induction n generalizing b with
  | zero => exact h
  | succ n ih => exact ih h.pop

theorem close (h : b.IsRegular outer) (name : List Char) : (b.close name).IsRegular outer := by
  rw [Builder.close]
  split
  · exact h.popMany _
  · exact h

theorem start (h : b.IsRegular outer) (htag : tag.IsRegular b.space) (closed : Bool) :
    (b.start tag closed).IsRegular outer := by
  rw [Builder.start]
  split
  · exact h.add ⟨htag, fun _ => rfl, List.isChain_nil, trivial⟩ rfl
  · rename_i hopen
    exact h.push htag (by simp_all)

theorem takeRawText (h : b.IsRegular outer) (tag : Tag) (s : List Char) :
    (b.takeRawText tag s).1.IsRegular outer := by
  rw [Builder.takeRawText]
  split
  · exact h
  · exact h.addText _

/-- Taking in a proper token keeps what has been read regular. -/
theorem accept (h : b.IsRegular outer) {token : Token} (htoken : token.IsProper) (rest : List Char) :
    (b.accept token rest).1.IsRegular outer := by
  cases token with
  | startTag name attributes closed =>
    exact (h.start (Tag.isRegular_ofStart htoken.1 htoken.2 b.space) closed).takeRawText _ rest
  | endTag name => exact h.close name
  | comment data =>
    refine h.add ?_ rfl
    rw [Tree.IsRegular, String.toList_ofList]
    exact htoken
  | text data => exact h.addText _

/-- Taking in a whole text keeps what has been read regular. -/
theorem run (h : b.IsRegular outer) (s : List Char) : (b.run s).IsRegular outer := by
  fun_induction Builder.run b s with
  | case1 => exact h
  | case2 b c rest token taken ih => exact ih (h.accept (Token.isProper_next c rest) _)

end IsRegular

theorem frames_popMany (b : Builder) (n : Nat) : (popMany n b).frames = b.frames.drop n := by
  induction n generalizing b with
  | zero => rfl
  | succ n ih =>
    obtain ⟨outer, frames, content⟩ := b
    cases frames with
    | nil => exact (ih ⟨outer, [], content⟩).trans List.drop_nil
    | cons frame frames => exact ih _

theorem frames_popMany_length (b : Builder) : (popMany b.frames.length b).frames = [] := by
  rw [frames_popMany, List.drop_length]

/-- When everything has been closed, all is outside of elements. -/
theorem IsRegular.finish {outer : Namespace} {b : Builder} (h : b.IsRegular outer) :
    AreRegular outer b.finish := by
  have hframes := b.frames_popMany_length
  have hclosed := h.popMany b.frames.length
  rw [Builder.finish, areRegular_reverse]
  generalize Builder.popMany b.frames.length b = closed at hframes hclosed
  cases hclosed with
  | outside h => exact h
  | inside => cases hframes

end Builder

/-- Whatever a text is, the trees that are read from it are regular. -/
theorem areRegular_parse (space : Namespace) (s : String) : AreRegular space (parse space s) :=
  ((Builder.IsRegular.outside (areRegular_nil space)).run s.toList).finish

end LiveMarkup.Markup
