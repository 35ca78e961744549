import PocketCalc.Token.Lexer

/-!
# The pieces of a text

A text without its ignored characters falls into pieces: literals, which are runs of digits and
points that are as long as possible, and symbols. `tokenize_eq` says that the lexer finds exactly
these. The outline of a text is what is left of it when its literals are forgotten.
-/

namespace PocketCalc

namespace Token

/-- The character of a symbol is no character of a literal. -/
theorem isLiteralChar_of_ofChar?_eq_some {c : Char} {t : Token} (h : ofChar? c = some t) :
    isLiteralChar c = false := by
  have hchar := ofChar?_eq_some_iff.mp h
  cases t with
  | number value => cases hchar
  | operator symbol =>
    cases hchar
    cases symbol <;> rfl
  | parenthesis side =>
    cases hchar
    cases side <;> rfl

end Token

/-- A literal or a symbol of a text. -/
inductive Piece where
  | literal (chars : List Char)
  | symbol (token : Token)
deriving DecidableEq, Repr

namespace Piece

/-- The token that a piece is read as. -/
def token : Piece → Token
  | literal chars => .number (.ofLiteral chars)
  | symbol token => token

/-- The symbol of a piece, or a mark in the place of a literal. -/
def symbol? : Piece → Option Token
  | literal _ => none
  | symbol token => some token

/-- The pieces after characters of a literal, which join a literal in front. -/
def prepend (chars : List Char) (pieces : List Piece) : List Piece :=
  if chars = [] then pieces
  else match pieces with
    | literal run :: rest => literal (chars ++ run) :: rest
    | rest => literal chars :: rest

/-- The pieces of characters. -/
def ofChars : List Char → List Piece
  | [] => []
  | c :: rest =>
    if isLiteralChar c then prepend [c] (ofChars rest)
    else match Token.ofChar? c with
      | some t => symbol t :: ofChars rest
      | none => ofChars rest

/-- No characters of a literal change nothing. -/
theorem prepend_nil (pieces : List Piece) : prepend [] pieces = pieces := rfl

/-- Characters of a literal join one after the other. -/
theorem prepend_append (first second : List Char) (pieces : List Piece) :
    prepend (first ++ second) pieces = prepend first (prepend second pieces) := by
  cases first with
  | nil => rw [List.nil_append, prepend_nil]
  | cons c first =>
    cases second with
    | nil => rw [List.append_nil, prepend_nil]
    | cons d second =>
      cases pieces with
      | nil => rfl
      | cons piece rest =>
        cases piece with
        | symbol token => rfl
        | literal run => simp [prepend, List.append_assoc]

/-- The literal in progress is a piece of its own in front of a symbol. -/
theorem map_token_prepend_symbol (literal : List Char) (t : Token) (pieces : List Piece) :
    (prepend literal (symbol t :: pieces)).map token =
      (prepend literal []).map token ++ t :: pieces.map token := by
  cases literal <;> rfl

/-- A mark in front, which joins a mark that is there. -/
def mark : List (Option Token) → List (Option Token)
  | none :: rest => none :: rest
  | rest => none :: rest

/-- A literal in front is a mark in front, whatever the literal is. -/
theorem map_symbol?_prepend {chars : List Char} (h : chars ≠ []) (pieces : List Piece) :
    (prepend chars pieces).map symbol? = mark (pieces.map symbol?) := by
  unfold prepend
  rw [if_neg h]
  cases pieces with
  | nil => rfl
  | cons piece rest => cases piece <;> rfl

/-- Characters of a literal join the pieces after them. -/
theorem ofChars_append {chars : List Char} (h : ∀ c ∈ chars, isLiteralChar c = true)
    (rest : List Char) : ofChars (chars ++ rest) = prepend chars (ofChars rest) := by
  induction chars with
  | nil => rfl
  | cons c chars ih =>
    obtain ⟨hc, hchars⟩ := List.forall_mem_cons.mp h
    rw [List.cons_append, ofChars, if_pos hc, ih hchars, ← prepend_append, List.singleton_append]

/-- Characters of a literal join nothing behind a symbol. -/
theorem prepend_append_symbol (chars : List Char) (pieces : List Piece) (t : Token)
    (rest : List Piece) :
    prepend chars (pieces ++ symbol t :: rest) = prepend chars pieces ++ symbol t :: rest := by
  unfold prepend
  split
  · rfl
  · cases pieces with
    | nil => rfl
    | cons piece pieces => cases piece <;> rfl

/-- A symbol is a piece of its own, between the pieces before it and those after it. -/
theorem ofChars_append_symbol {c : Char} {t : Token} (h : Token.ofChar? c = some t)
    (before after : List Char) :
    ofChars (before ++ c :: after) = ofChars before ++ symbol t :: ofChars after := by
  induction before with
  | nil =>
    have hc := Token.isLiteralChar_of_ofChar?_eq_some h
    change ofChars (c :: after) = symbol t :: ofChars after
    rw [ofChars, if_neg (by simp [hc]), h]
  | cons d before ih =>
    rw [List.cons_append, ofChars, ofChars, ih]
    split
    · rw [prepend_append_symbol]
    · cases Token.ofChar? d <;> rfl

/-- Characters of a literal bring no symbol. -/
theorem symbol_mem_of_mem_prepend {chars : List Char} {pieces : List Piece} {t : Token}
    (h : symbol t ∈ prepend chars pieces) : symbol t ∈ pieces := by
  unfold prepend at h
  split at h
  · exact h
  · cases pieces with
    | nil => simp at h
    | cons piece rest => cases piece <;> simpa using h

/-- Every symbol among the pieces is there for a character. -/
theorem exists_char_of_symbol_mem {cs : List Char} {t : Token} (h : symbol t ∈ ofChars cs) :
    ∃ c ∈ cs, Token.ofChar? c = some t := by
  induction cs with
  | nil => cases h
  | cons c rest ih =>
    rw [ofChars] at h
    have hrest : symbol t ∈ ofChars rest → ∃ d ∈ c :: rest, Token.ofChar? d = some t := by
      intro hmem
      obtain ⟨d, hd, hfound⟩ := ih hmem
      exact ⟨d, List.mem_cons_of_mem c hd, hfound⟩
    split at h
    · exact hrest (symbol_mem_of_mem_prepend h)
    · cases hc : Token.ofChar? c with
      | none =>
        rw [hc] at h
        exact hrest h
      | some found =>
        rw [hc] at h
        rcases List.mem_cons.mp h with heq | hmem
        · cases heq
          exact ⟨c, List.mem_cons_self, hc⟩
        · exact hrest hmem

/-- Texts that go on with the same outline have the same outline. -/
theorem map_symbol?_ofChars_append {first second : List Char}
    (h : (ofChars first).map symbol? = (ofChars second).map symbol?) (before : List Char) :
    (ofChars (before ++ first)).map symbol? = (ofChars (before ++ second)).map symbol? := by
  induction before with
  | nil => exact h
  | cons c before ih =>
    rw [List.cons_append, List.cons_append, ofChars, ofChars]
    by_cases hliteral : isLiteralChar c = true
    · rw [if_pos hliteral, if_pos hliteral, map_symbol?_prepend (List.cons_ne_nil c []),
        map_symbol?_prepend (List.cons_ne_nil c []), ih]
    · rw [if_neg hliteral, if_neg hliteral]
      cases Token.ofChar? c with
      | none => exact ih
      | some t => exact congrArg (some t :: ·) ih

end Piece

namespace Lexer

/-- Ending a literal adds its number to the tokens. -/
theorem finish_eq (l : Lexer) :
    l.finish = l.finished.reverse ++ (Piece.prepend l.literal.reverse []).map Piece.token := by
  obtain ⟨finished, literal⟩ := l
  cases literal with
  | nil => simp [finish, endLiteral, Piece.prepend]
  | cons c rest => simp [finish, endLiteral, Piece.prepend, Piece.token]

/-- After more characters the tokens go on with those of the pieces, the first of which joins the
literal in progress. -/
theorem finish_readChars (l : Lexer) (cs : List Char) :
    (l.readChars cs).finish =
      l.finished.reverse ++
        (Piece.prepend l.literal.reverse (Piece.ofChars cs)).map Piece.token := by
  induction cs generalizing l with
  | nil => exact l.finish_eq
  | cons c rest ih =>
    rw [readChars_cons, ih, readChar, Piece.ofChars]
    by_cases hliteral : isLiteralChar c = true
    · rw [if_pos hliteral, if_pos hliteral, List.reverse_cons, Piece.prepend_append]
    · rw [if_neg hliteral, if_neg hliteral]
      cases Token.ofChar? c with
      | none => rfl
      | some t =>
        -- The symbol ends the literal in progress, as the end of the text would.
        have hend := l.finish_eq
        rw [finish] at hend
        dsimp only
        rw [Piece.map_token_prepend_symbol, List.reverse_cons, hend, List.reverse_nil,
          Piece.prepend_nil]
        simp [List.append_assoc]

end Lexer

/-- The tokens of a text are those of its pieces. -/
theorem tokenize_eq (text : String) :
    tokenize text = (Piece.ofChars text.toList).map Piece.token :=
  Lexer.finish_readChars .start text.toList

/-- Every symbol among the tokens of a text is one of its characters. -/
theorem char_mem_of_mem_tokenize {text : String} {t : Token} {c : Char} (h : t ∈ tokenize text)
    (hc : t.char? = some c) : c ∈ text.toList := by
  rw [tokenize_eq] at h
  obtain ⟨piece, hpiece, rfl⟩ := List.mem_map.mp h
  cases piece with
  | literal chars => cases hc
  | symbol t =>
    obtain ⟨d, hd, hfound⟩ := Piece.exists_char_of_symbol_mem hpiece
    have hchar := Token.ofChar?_eq_some_iff.mp hfound
    rw [Piece.token, hchar] at hc
    cases hc
    exact hd

/-- The symbols of a text in their order, with a mark in the place of every literal. -/
def outline (text : String) : List (Option Token) :=
  (Piece.ofChars text.toList).map Piece.symbol?

/-- Replacing a literal, or a part of it, by other digits and points keeps the outline. -/
theorem outline_replace {first second : List Char} (hfirst : first ≠ []) (hsecond : second ≠ [])
    (hf : ∀ c ∈ first, isLiteralChar c = true) (hs : ∀ c ∈ second, isLiteralChar c = true)
    (before after : List Char) :
    outline (.ofList (before ++ (first ++ after))) =
      outline (.ofList (before ++ (second ++ after))) := by
  rw [outline, outline, String.toList_ofList, String.toList_ofList]
  apply Piece.map_symbol?_ofChars_append
  rw [Piece.ofChars_append hf, Piece.ofChars_append hs, Piece.map_symbol?_prepend hfirst,
    Piece.map_symbol?_prepend hsecond]

end PocketCalc
