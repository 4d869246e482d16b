import LiveMarkup.Proofs.Markup.Pieces
import LiveMarkup.Proofs.Rendering.Planning
import LiveMarkup.Proofs.Template.Spreading
import Mathlib.Algebra.Order.BigOperators.Group.List
import Mathlib.Algebra.Order.Group.Nat
/-!
# What looks like a tag that closes itself

Tags that close themselves are written out with no regard to where they stand: whatever begins with a bracket and
a letter and has a slash in front of its first closing bracket is taken for one (`closedNames_ne_nil_iff`). Each
piece of the text is written out on its own, and text is left as it is (`expandSelfClosing_pieces`). A comment, an
attribute, an end tag or raw text is not: what looks like a tag in there gets an end tag as well. Only if there is
none does a template that has no holes compile to what is read of it as it stands (`compile_single`).
-/

namespace LiveMarkup

namespace Template

open Markup (Builder IsBehindBracket Namespace Piece Token)
open Text (isLetter)

variable {s t name : List Char} {c : Char} {b : Builder} {space : Namespace}

/-- The names of the tags that are found to close themselves. -/
def closedNames : List Char → List (List Char)
  | [] => []
  | c :: rest =>
    if c = '<' then
      match _h : selfClosing? rest with
      | some tag => tag.name :: closedNames tag.rest
      | none => closedNames rest
    else closedNames rest
termination_by s => s.length
decreasing_by
  all_goals simp only [List.length_cons]
  · have := length_selfClosing?_le _h
    omega
  all_goals omega

/-- A tag closes itself if it begins with a letter and its first closing bracket comes behind a slash. -/
theorem selfClosing?_isSome_iff (s : List Char) :
    (selfClosing? s).isSome = true ↔
      ∃ c inner back, s = c :: (inner ++ '/' :: '>' :: back) ∧ isLetter c = true ∧ '>' ∉ inner := by
  constructor
  · intro h
    obtain ⟨tag, htag⟩ := Option.isSome_iff_exists.1 h
    have hmem : '>' ∈ s := by simp [(selfClosing?_spec htag).1]
    obtain ⟨front, back, rfl, hfront⟩ := List.eq_append_cons_of_mem hmem
    rw [selfClosing?_upTo hfront] at htag
    dsimp only at htag
    split_ifs at htag with hletter hslash
    obtain ⟨name, hname⟩ := List.dropWhile_suffix (l := front) isSelfClosingNamePart
    have hlast : front.getLast? = some '/' := by
      rw [← hname, List.getLast?_append, hslash]
      rfl
    obtain ⟨word, rfl⟩ := List.getLast?_eq_some_iff.1 hlast
    cases word with
    | nil => cases hletter
    | cons c inner => exact ⟨c, inner, back, by simp, hletter, fun hin => hfront (by simp [hin])⟩
  · rintro ⟨c, inner, back, rfl, hletter, hinner⟩
    have hc : c ≠ '>' := by
      rintro rfl
      cases hletter
    have hslash : ((c :: (inner ++ ['/'])).dropWhile isSelfClosingNamePart).getLast? = some '/' := by
      rw [← List.cons_append, List.dropWhile_append]
      split
      · rfl
      · exact List.getLast?_concat
    have hopen : '>' ∉ c :: (inner ++ ['/']) := by simp [hinner, Ne.symm hc]
    have hdecided := selfClosing?_upTo hopen back
    dsimp only at hdecided
    rw [List.head?_cons, Option.any_some, if_pos hletter, if_pos hslash, List.cons_append, List.append_assoc,
      List.singleton_append] at hdecided
    rw [hdecided]
    rfl

/-- Somewhere in a text there is what looks like a tag that closes itself: a bracket and a letter, with a slash in
front of the next closing bracket. -/
def LooksClosed (s : List Char) : Prop :=
  ∃ front c inner back, s = front ++ '<' :: c :: (inner ++ '/' :: '>' :: back) ∧ isLetter c = true ∧ '>' ∉ inner

theorem looksClosed_cons (c : Char) (s : List Char) :
    LooksClosed (c :: s) ↔ c = '<' ∧ (selfClosing? s).isSome = true ∨ LooksClosed s := by
  rw [selfClosing?_isSome_iff]
  constructor
  · rintro ⟨_ | ⟨d, front⟩, e, inner, back, heq, h⟩
    · obtain ⟨rfl, rfl⟩ := List.cons.inj heq
      exact .inl ⟨rfl, e, inner, back, rfl, h⟩
    · exact .inr ⟨front, e, inner, back, (List.cons.inj heq).2, h⟩
  · rintro (⟨rfl, e, inner, back, rfl, h⟩ | ⟨front, e, inner, back, rfl, h⟩)
    · exact ⟨[], e, inner, back, rfl, h⟩
    · exact ⟨c :: front, e, inner, back, rfl, h⟩

/-- A tag is found if and only if there is what looks like one. -/
theorem closedNames_ne_nil_iff (s : List Char) : closedNames s ≠ [] ↔ LooksClosed s := by
  fun_induction closedNames s with
  | case1 => exact iff_of_false (fun h => h rfl) fun ⟨front, _, _, _, h, _⟩ => by cases front <;> cases h
  | case2 rest tag htag ih =>
    exact iff_of_true (List.cons_ne_nil _ _) ((looksClosed_cons ..).2 (.inl ⟨rfl, by rw [htag]; rfl⟩))
  | case3 rest htag ih =>
    rw [ih, looksClosed_cons, htag]
    simp
  | case4 c rest hc ih =>
    rw [ih, looksClosed_cons]
    simp [hc]

/-- Writing tags out changes a text unless all that are found are void. -/
theorem expandSelfClosing_eq_self_iff (s : List Char) :
    expandSelfClosing s = s ↔ ∀ name ∈ closedNames s, isVoidName (Text.lower name) = true := by
  fun_induction closedNames s with
  | case1 => simp [expandSelfClosing]
  | case2 rest tag htag ih =>
    have hrest := (selfClosing?_spec htag).1
    rw [expandSelfClosing_of_some htag, List.forall_mem_cons, ← ih, SelfClosing.expanded, isVoidName]
    conv_lhs => rw [hrest]
    by_cases hvoid : Markup.voidNames.contains (String.ofList (Text.lower tag.name)) = true
    · rw [if_pos hvoid, iff_true_intro hvoid, true_and]
      simp
    · rw [if_neg hvoid, iff_false_intro hvoid, false_and]
      simp
  | case3 rest htag ih =>
    rw [← ih, expandSelfClosing_of_none htag]
    simp
  | case4 c rest hc ih =>
    rw [← ih, expandSelfClosing, if_neg hc]
    simp

/-- Text up to the next bracket is left as it is. -/
theorem expandSelfClosing_text (hc : c = '<' → s.head?.any isLetter = false) :
    expandSelfClosing (c :: s.takeWhile (· != '<') ++ s.dropWhile (· != '<'))
      = c :: s.takeWhile (· != '<') ++ expandSelfClosing (s.dropWhile (· != '<')) := by
  have hcalm : IsCalm (s.takeWhile (· != '<')) :=
    isCalm_of_notMem fun hmem => by simpa using List.mem_takeWhile_imp hmem
  have hrest := hcalm (s.dropWhile (· != '<'))
  rw [List.takeWhile_append_dropWhile] at hrest
  rw [List.cons_append, List.cons_append, List.takeWhile_append_dropWhile, ← hrest]
  by_cases hbracket : c = '<'
  · subst hbracket
    refine expandSelfClosing_of_none ?_
    rw [selfClosing?, hc rfl]
    rfl
  · rw [expandSelfClosing, if_neg hbracket]

/-- A piece of a text as it becomes: text stays, and of anything else the tags are written out. -/
def written (p : Piece) : List Char :=
  if p.isText then p.source else expandSelfClosing p.source

/-- Tags are written out in each piece on its own. -/
theorem expandSelfClosing_pieces (b : Builder) (s : List Char) :
    expandSelfClosing s = (b.pieces s).flatMap written := by
  induction hlength : s.length using Nat.strong_induction_on generalizing b s with
  | _ n ih =>
    subst hlength
    cases s with
    | nil => rw [expandSelfClosing, Builder.pieces, List.flatMap_nil]
    | cons c rest =>
      obtain ⟨source, hsource, hpieces⟩ := b.pieces_cons c rest
      have hrest := ih _ (Nat.lt_succ_of_le (b.takePiece_suffix c rest).length_le) (b.takePiece c rest).1 _ rfl
      rw [hpieces, List.flatMap_cons, ← hrest, written]
      rcases b.takePiece_cases c rest with ⟨hc, hnext, hbehind⟩ | ⟨hother, hbehind⟩
      · obtain rfl : c :: rest.takeWhile (· != '<') = source := by
          have hsplit : c :: rest.takeWhile (· != '<') ++ rest.dropWhile (· != '<')
              = source ++ rest.dropWhile (· != '<') := by
            rw [← hbehind, ← hsource, hbehind, List.cons_append, List.takeWhile_append_dropWhile]
          exact List.append_cancel_right hsplit
        rw [if_pos (by rw [hnext]; rfl), hsource, hbehind]
        exact expandSelfClosing_text hc
      · have hmarkup : Piece.isText ⟨(Token.next c rest).1, source⟩ = false := by
          cases htoken : (Token.next c rest).1 with
          | text data => exact absurd htoken (hother data)
          | startTag | endTag | comment => rfl
        rw [hmarkup, if_neg Bool.false_ne_true]
        rw [hsource] at hbehind ⊢
        rcases hbehind.getLast? with hnil | hbracket
        · rw [hnil, expandSelfClosing, List.append_nil, List.append_nil]
        · exact expandSelfClosing_append_of_bracket hbracket _

/-- Lists put together from parts, each part of the one at least as long as that of the other, are the same
only part by part. -/
theorem flatMap_eq_iff {α β : Type} {f g : α → List β} {l : List α} (h : ∀ x ∈ l, (g x).length ≤ (f x).length) :
    l.flatMap f = l.flatMap g ↔ ∀ x ∈ l, f x = g x := by
  refine ⟨fun heq => ?_, List.flatMap_congr⟩
  induction l with
  | nil => simp
  | cons x l ih =>
    obtain ⟨hx, hl⟩ := List.forall_mem_cons.1 h
    have hlength : (l.flatMap g).length ≤ (l.flatMap f).length := by
      rw [List.length_flatMap, List.length_flatMap]
      exact List.sum_le_sum hl
    rw [List.flatMap_cons, List.flatMap_cons] at heq
    have hsum := congrArg List.length heq
    rw [List.length_append, List.length_append] at hsum
    obtain ⟨hfirst, hothers⟩ := List.append_inj heq (by omega)
    exact List.forall_mem_cons.2 ⟨hfirst, ih hl hothers⟩

/-- Whether nothing in a piece is taken for a tag that closes itself, unless it is void. Text is never mistaken. -/
def isUnmistaken (p : Piece) : Bool :=
  p.isText || (closedNames p.source).all fun name => isVoidName (Text.lower name)

theorem written_eq_iff (p : Piece) : written p = p.source ↔ isUnmistaken p = true := by
  rw [written, isUnmistaken, Bool.or_eq_true, List.all_eq_true, ← expandSelfClosing_eq_self_iff]
  split <;> simp [*]

theorem length_source_le (p : Piece) : p.source.length ≤ (written p).length := by
  rw [written]
  split
  · exact Nat.le_refl _
  · exact (spread_expandSelfClosing p.source).length_le

/-- A text stays as it is when its tags are written out if nothing in its pieces is mistaken for one. -/
theorem expandSelfClosing_eq_self_iff_pieces (b : Builder) (s : List Char) :
    expandSelfClosing s = s ↔ ∀ p ∈ b.pieces s, isUnmistaken p = true := by
  have heach := flatMap_eq_iff (f := written) (g := Piece.source) (l := b.pieces s) fun p _ => length_source_le p
  rw [← expandSelfClosing_pieces, Builder.source_pieces] at heach
  rw [heach]
  exact forall₂_congr fun p _ => written_eq_iff p

/-- A single segment becomes the marked text as it is, if it does not end in an attribute without its value. -/
theorem markHoles_single {m : String} (h : openAttribute? m.toList = none) :
    markHoles [m] = String.ofList (expandSelfClosing (Text.trim m.toList)) := by
  rw [markHoles, List.map_singleton, joined, h]
  simp [joined]

/-- A template without holes compiles to what is read of its marked text. -/
theorem compile_of_gaps {c : Catalogue} (hc : c.Sound) (space : Namespace) {template : Template}
    (h : template.gaps = 0) :
    (c.compile space template).1 = .ok ⟨Markup.parse space (markHoles template.segments), []⟩ := by
  have hcompiled : (template.compilation space).compiled
      = ⟨Markup.parse space (markHoles template.segments), []⟩ := by
    rw [compilation, h, searchAll_of_isDone rfl]
    rfl
  have hcomplete : (template.compilation space).isComplete = true :=
    decide_eq_true (h.trans_le (Nat.zero_le _))
  obtain ⟨c', hcompile, -⟩ := Catalogue.compile_eq hc hcomplete
  rw [hcompile, hcompiled]

/-- What a template of a single segment compiles to that does not end in an attribute without its value. The
pieces that are read of its trimmed text are written out one by one, all but text, and the content is what is read
then. The marked text is the trimmed text if and only if no piece is mistaken; then the content is what is read
of the trimmed text. Comments, attributes, end tags and raw text that look as if a tag in them closed itself are
mistaken. -/
theorem compile_single {c : Catalogue} (hc : c.Sound) (space : Namespace) (id : Nat) {m : String}
    (h : openAttribute? m.toList = none) :
    let pieces := (Builder.empty space).pieces (Text.trim m.toList)
    pieces.flatMap Piece.source = Text.trim m.toList ∧
      (c.compile space ⟨id, [m]⟩).1
        = .ok ⟨Markup.parse space (String.ofList (pieces.flatMap written)), []⟩ ∧
      (markHoles [m] = String.ofList (Text.trim m.toList) ↔ ∀ p ∈ pieces, isUnmistaken p = true) ∧
      ((∀ p ∈ pieces, isUnmistaken p = true) →
        (c.compile space ⟨id, [m]⟩).1
          = .ok ⟨Markup.parse space (String.ofList (Text.trim m.toList)), []⟩) := by
  intro pieces
  have hmarked := markHoles_single h
  have hcompile := compile_of_gaps hc space (show gaps ⟨id, [m]⟩ = 0 from rfl)
  have hself := expandSelfClosing_eq_self_iff_pieces (Builder.empty space) (Text.trim m.toList)
  have hsame : markHoles [m] = String.ofList (Text.trim m.toList) ↔ ∀ p ∈ pieces, isUnmistaken p = true := by
    rw [hmarked, String.ofList_inj, hself]
  refine ⟨Builder.source_pieces .., ?_, hsame, fun hpieces => ?_⟩
  · rw [hcompile, hmarked, expandSelfClosing_pieces (Builder.empty space)]
  · rw [hcompile, hsame.2 hpieces]

/-- A void tag stays as it is, and so does a slash in an attribute, while a tag in a comment gets an end tag. -/
theorem compile_single_comment :
    openAttribute? "<br title=\"a/b\"/>".toList = none ∧
      (Catalogue.empty.compile .html ⟨0, ["<br title=\"a/b\"/>"]⟩).1
        = .ok ⟨Markup.parse .html "<br title=\"a/b\"/>", []⟩ ∧
      openAttribute? "<!--<x/>-->".toList = none ∧
      Markup.parse .html "<!--<x/>-->" = [.comment "<x/>"] ∧
      (Catalogue.empty.compile .html ⟨0, ["<!--<x/>-->"]⟩).1 = .ok ⟨[.comment "<x></x>"], []⟩ := by
  have hvoid : openAttribute? "<br title=\"a/b\"/>".toList = none := by decide
  have hcomment : openAttribute? "<!--<x/>-->".toList = none := by decide
  have hstays : expandSelfClosing "<br title=\"a/b\"/>".toList = "<br title=\"a/b\"/>".toList := by
    rw [show "<br title=\"a/b\"/>".toList = '<' :: "br title=\"a/b\"/>".toList from rfl,
      expandSelfClosing_of_some rfl, expandSelfClosing]
    rfl
  have hbecomes : expandSelfClosing "<!--<x/>-->".toList = "<!--<x></x>-->".toList := by
    have hfront : IsCalm "!--".toList := isCalm_of_notMem (by decide)
    have hback : IsCalm "-->".toList := isCalm_of_notMem (by decide)
    have hend := hback []
    rw [List.append_nil, expandSelfClosing, List.append_nil] at hend
    rw [show "<!--<x/>-->".toList = '<' :: ("!--".toList ++ '<' :: "x/>-->".toList) from rfl,
      expandSelfClosing_of_none rfl, hfront, expandSelfClosing_of_some rfl]
    exact congrArg ("<!--<x></x>".toList ++ ·) hend
  have hparse (data : List Char) (h : '-' ∉ data) :
      Markup.parse .html (String.ofList (['<', '!', '-', '-'] ++ data ++ ['-', '-', '>']))
        = [.comment (String.ofList data)] := by
    have hrun := (Builder.empty .html).run_comment (fun hin => h (hin.subset (by decide))) []
    rw [List.append_nil, Builder.run] at hrun
    rw [Markup.parse, String.toList_ofList, hrun]
    rfl
  obtain ⟨-, -, -, hsame⟩ := compile_single Catalogue.sound_empty .html 0 hvoid
  obtain ⟨-, hwritten, -, -⟩ := compile_single Catalogue.sound_empty .html 0 hcomment
  rw [← expandSelfClosing_pieces, show Text.trim "<!--<x/>-->".toList = "<!--<x/>-->".toList from rfl,
    hbecomes] at hwritten
  refine ⟨hvoid, hsame ?_, hcomment, hparse "<x/>".toList (by decide), ?_⟩
  · exact (expandSelfClosing_eq_self_iff_pieces _ _).1 hstays
  · have hread := hparse "<x></x>".toList (by decide)
    rw [hwritten]
    exact congrArg (fun content => Except.ok (Compiled.mk content [])) hread

end Template

end LiveMarkup
