import LiveMarkup.Proofs.Markup.Tokens
/-!
# The pieces of a text

A text that is read falls into pieces, one for each token. A start tag whose content is not read as markup takes
that content along, and the end tag behind it. So every piece ends in a closing bracket, unless it is text or the
last piece (`Builder.takePiece_cases`), and the pieces make up the text (`Builder.source_pieces`).
-/

namespace LiveMarkup.Markup

open Text (cutAt isLetter trimStart)

/-- A token that has been read, with its source. -/
structure Piece where
  token : Token
  source : List Char
deriving Repr

/-- Whether a piece is text between tags and comments. -/
def Piece.isText (p : Piece) : Bool :=
  p.token matches .text _

/-- Nothing is left to read, or what is left comes behind a closing bracket. -/
def IsBehindBracket (s rest : List Char) : Prop :=
  rest = [] ∨ '>' :: rest <:+ s

variable {s t rest : List Char} {c : Char}

theorem IsBehindBracket.of_suffix (h : IsBehindBracket t rest) (ht : t <:+ s) : IsBehindBracket s rest :=
  h.imp_right fun hrest => hrest.trans ht

theorem IsBehindBracket.getLast? (h : IsBehindBracket (s ++ rest) rest) : rest = [] ∨ s.getLast? = some '>' := by
  refine h.imp_right fun ⟨front, hfront⟩ => ?_
  obtain rfl : front ++ ['>'] = s := List.append_cancel_right (by simpa using hfront)
  exact List.getLast?_concat

namespace Token

theorem isBehindBracket_cutAt (front s : List Char) :
    IsBehindBracket s (cutAt (front ++ ['>']) s).2 := by
  rw [cutAt]
  cases hcut : Text.cutAt? (front ++ ['>']) s with
  | none => exact .inl rfl
  | some cut =>
    refine .inr ⟨cut.1 ++ front, ?_⟩
    rw [Text.eq_append_of_cutAt? hcut]
    simp

theorem isBehindBracket_tagTail (s : List Char) : IsBehindBracket s (tagTail s).rest := by
  fun_induction tagTail s with
  | case1 s h => exact .inl rfl
  | case2 s rest h =>
    have hs := trimStart_suffix s
    rw [h] at hs
    exact .inr ((List.suffix_cons '/' _).trans hs)
  | case3 s rest h => exact .inr (h ▸ trimStart_suffix s)
  | case4 s rest _ h ih => exact ih.of_suffix ((List.suffix_cons '/' rest).trans (h ▸ trimStart_suffix s))
  | case5 s c rest _ _ _ h name value tail ih =>
    have hrest : rest <:+ s := (List.suffix_cons c rest).trans (h ▸ trimStart_suffix s)
    exact ih.of_suffix ((attribute_suffix c rest).trans hrest)

/-- What begins with a bracket is text up to the next one, or is something else and ends in a closing bracket. -/
theorem afterBracket_cases (s : List Char) :
    (s.head?.any isLetter = false ∧ afterBracket s = textFrom '<' s) ∨
      (∀ data, (afterBracket s).1 ≠ .text data) ∧ IsBehindBracket s (afterBracket s).2 := by
  unfold afterBracket
  split
  · exact .inr ⟨fun _ => nofun, (isBehindBracket_cutAt ['-', '-'] _).of_suffix ⟨['!', '-', '-'], rfl⟩⟩
  · exact .inr ⟨fun _ => nofun, (isBehindBracket_cutAt [] _).of_suffix (List.suffix_cons ..)⟩
  · exact .inr ⟨fun _ => nofun, (isBehindBracket_cutAt [] _).of_suffix (List.suffix_cons ..)⟩
  · split
    · have hname (s : List Char) : s.dropWhile isTagNamePart <:+ '/' :: s :=
        (List.dropWhile_suffix _).trans (List.suffix_cons ..)
      exact .inr ⟨fun _ => nofun, (isBehindBracket_cutAt [] _).of_suffix (hname _)⟩
    · exact .inr ⟨fun _ => nofun, (isBehindBracket_cutAt [] _).of_suffix (List.suffix_cons ..)⟩
  · split
    · exact .inr ⟨fun _ => nofun, (isBehindBracket_tagTail _).of_suffix (List.dropWhile_suffix _)⟩
    · rename_i hletter
      exact .inl ⟨by simpa using hletter, rfl⟩

/-- A token is text up to the next bracket, or is something else and ends in a closing bracket. -/
theorem next_cases (c : Char) (rest : List Char) :
    ((c = '<' → rest.head?.any isLetter = false) ∧ next c rest = textFrom c rest) ∨
      c = '<' ∧ (∀ data, (next c rest).1 ≠ .text data) ∧ IsBehindBracket rest (next c rest).2 := by
  rw [next]
  split_ifs with hc
  · subst hc
    exact (afterBracket_cases rest).imp (fun h => ⟨fun _ => h.1, h.2⟩) fun h => ⟨rfl, h⟩
  · exact .inl ⟨fun h => absurd h hc, rfl⟩

/-- Raw text ends where the text does, or in front of an end tag. -/
theorem beginsEndTag_rawText (name s : List Char) :
    (rawText name s).2 = [] ∨ beginsEndTag name (rawText name s).2 = true := by
  induction s with
  | nil => exact .inl rfl
  | cons c s ih =>
    rw [rawText]
    split
    · rename_i h
      exact .inr h
    · exact ih

end Token

namespace Builder

variable {b : Builder}

/-- Takes in the token that a text begins with. -/
def takeToken (b : Builder) : List Char → Builder × List Char
  | [] => (b, [])
  | c :: rest => b.accept (Token.next c rest).1 (Token.next c rest).2

/-- Takes in a token, and with what is not read as markup also the end tag behind that. -/
def takePiece (b : Builder) (c : Char) (rest : List Char) : Builder × List Char :=
  let token := Token.next c rest
  let taken := b.accept token.1 token.2
  if taken.2 = token.2 then taken else taken.1.takeToken taken.2

theorem takeToken_suffix (b : Builder) (s : List Char) : (b.takeToken s).2 <:+ s := by
  cases s with
  | nil => exact List.suffix_refl _
  | cons c rest =>
    exact (b.accept_suffix _ _).trans ((Token.next_suffix c rest).trans (List.suffix_cons c rest))

theorem takePiece_suffix (b : Builder) (c : Char) (rest : List Char) : (b.takePiece c rest).2 <:+ rest := by
  have hnext := (b.accept_suffix (Token.next c rest).1 (Token.next c rest).2).trans (Token.next_suffix c rest)
  rw [takePiece]
  split_ifs
  · exact hnext
  · exact (takeToken_suffix ..).trans hnext

/-- Reading goes from piece to piece. -/
theorem run_takePiece (b : Builder) (c : Char) (rest : List Char) :
    b.run (c :: rest) = (b.takePiece c rest).1.run (b.takePiece c rest).2 := by
  have htoken (b : Builder) (s : List Char) : b.run s = (b.takeToken s).1.run (b.takeToken s).2 := by
    cases s with
    | nil => rfl
    | cons c rest => rw [run, takeToken]
  rw [run, takePiece]
  split_ifs
  · rfl
  · exact htoken ..

/-- The pieces of a text. -/
def pieces (b : Builder) : List Char → List Piece
  | [] => []
  | c :: rest =>
    let taken := b.takePiece c rest
    ⟨(Token.next c rest).1, (c :: rest).take ((c :: rest).length - taken.2.length)⟩ :: taken.1.pieces taken.2
termination_by s => s.length
decreasing_by exact Nat.lt_succ_of_le (takePiece_suffix b c rest).length_le

/-- What a token takes along goes on up to an end tag, or to the end of the text. -/
theorem accept_cases (b : Builder) (token : Token) (rest : List Char) :
    (b.accept token rest).2 = rest ∨ (b.accept token rest).2 = [] ∨
      ∃ name, Token.beginsEndTag name (b.accept token rest).2 = true := by
  cases token with
  | startTag name attributes closed =>
    rw [accept, takeRawText]
    dsimp only
    split
    · exact .inl rfl
    · exact .inr ((Token.beginsEndTag_rawText _ rest).imp_right fun h => ⟨_, h⟩)
  | endTag | comment | text => exact .inl rfl

/-- An end tag ends in a closing bracket. -/
theorem isBehindBracket_takeToken (b : Builder) {name : List Char} (h : Token.beginsEndTag name s = true) :
    IsBehindBracket s (b.takeToken s).2 := by
  rw [Token.beginsEndTag.eq_def] at h
  split at h
  · rename_i back
    rw [takeToken, Token.next, if_pos rfl, Token.afterBracket]
    have hback : back <:+ '<' :: '/' :: back := ⟨['<', '/'], rfl⟩
    split_ifs
    · exact (Token.isBehindBracket_cutAt [] _).of_suffix ((List.dropWhile_suffix _).trans hback)
    · exact (Token.isBehindBracket_cutAt [] back).of_suffix hback
  · cases h

/-- A piece is text up to the next bracket, or is something else and ends in a closing bracket. -/
theorem takePiece_cases (b : Builder) (c : Char) (rest : List Char) :
    ((c = '<' → rest.head?.any isLetter = false) ∧ Token.next c rest = Token.textFrom c rest ∧
        (b.takePiece c rest).2 = rest.dropWhile (· != '<')) ∨
      (∀ data, (Token.next c rest).1 ≠ .text data) ∧ IsBehindBracket (c :: rest) (b.takePiece c rest).2 := by
  rcases Token.next_cases c rest with ⟨hletter, hnext⟩ | ⟨-, hother, hbehind⟩
  · refine .inl ⟨hletter, hnext, ?_⟩
    rw [takePiece, hnext, Token.textFrom, accept, if_pos rfl]
  · refine .inr ⟨hother, IsBehindBracket.of_suffix ?_ (List.suffix_cons c rest)⟩
    rw [takePiece]
    split_ifs with htaken
    · rw [htaken]
      exact hbehind
    · have hsuffix := (b.accept_suffix (Token.next c rest).1 (Token.next c rest).2).trans (Token.next_suffix c rest)
      rcases (accept_cases b (Token.next c rest).1 (Token.next c rest).2).resolve_left htaken with hnil | ⟨name, hname⟩
      · rw [hnil]
        exact .inl rfl
      · exact (isBehindBracket_takeToken _ hname).of_suffix hsuffix

theorem pieces_cons (b : Builder) (c : Char) (rest : List Char) :
    ∃ source, c :: rest = source ++ (b.takePiece c rest).2 ∧
      b.pieces (c :: rest) = ⟨(Token.next c rest).1, source⟩ :: (b.takePiece c rest).1.pieces (b.takePiece c rest).2 := by
  have hsuffix := (takePiece_suffix b c rest).trans (List.suffix_cons c rest)
  exact ⟨_, (List.suffix_iff_eq_append.1 hsuffix).symm, by rw [pieces]⟩

/-- The pieces make up the text. -/
theorem source_pieces (b : Builder) (s : List Char) : (b.pieces s).flatMap Piece.source = s := by
  fun_induction pieces b s with
  | case1 => rfl
  | case2 b c rest taken ih =>
    have hsuffix : taken.2 <:+ c :: rest := (takePiece_suffix b c rest).trans (List.suffix_cons c rest)
    rw [List.flatMap_cons, ih]
    exact List.suffix_iff_eq_append.1 hsuffix

end Builder

end LiveMarkup.Markup
