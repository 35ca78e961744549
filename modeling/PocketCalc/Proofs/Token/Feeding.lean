import Mathlib.Data.List.SplitBy
import PocketCalc.Proofs.Token.Render

/-!
# Reading text in chunks

The tokens of a text are specified without a scan (`lex`): the characters with a meaning are kept
and fall into maximal runs of digits and points and single symbols. Lexers that are fed in chunks,
and copied in between, each give the tokens of exactly the text that they have read
(`finish_allLexers`).
-/

namespace PocketCalc

/-! ### The tokens of a text -/

/-- The symbols of an expression and their tokens. -/
def symbolTable : List (Char × Token) :=
  [('+', .operator .plus), ('-', .operator .minus), ('×', .operator .times),
    ('÷', .operator .divide), ('%', .operator .percent), ('(', .parenthesis .opening),
    (')', .parenthesis .closing)]

/-- Whether a character has a meaning: the others are dropped. -/
def isKept (c : Char) : Bool := isLiteralChar c || (symbolTable.lookup c).isSome

/-- The characters of a text that have a meaning. -/
def keptChars (text : String) : List Char := text.toList.filter isKept

/-- The token of a run: a symbol stands alone, and everything else is a literal. -/
def tokenOfRun (run : List Char) : Token :=
  match run with
  | [c] => (symbolTable.lookup c).getD (.number (.ofLiteral run))
  | _ => .number (.ofLiteral run)

/-- The tokens of the maximal runs of digits and points and of the single symbols. -/
def lex (text : String) : List Token :=
  ((keptChars text).splitBy fun c d ↦ isLiteralChar c && isLiteralChar d).map tokenOfRun

/-- Whether the last character with a meaning is a digit or a point. -/
def endsInLiteral (text : String) : Bool := (keptChars text).getLast?.any isLiteralChar

/-- The table has the symbol of every character that has one. -/
theorem lookup_symbolTable (c : Char) : symbolTable.lookup c = Token.ofChar? c := by
  cases hfound : Token.ofChar? c with
  | some t =>
    have hchar := Token.ofChar?_eq_some_iff.mp hfound
    cases t with
    | number value => cases hchar
    | operator symbol =>
      cases hchar
      cases symbol <;> rfl
    | parenthesis side =>
      cases hchar
      cases side <;> rfl
  | none =>
    have htable : ∀ entry ∈ symbolTable, (Token.ofChar? entry.1).isSome = true := by decide
    refine List.lookup_eq_none_iff.mpr fun entry hentry ↦ ?_
    rw [bne_iff_ne]
    rintro rfl
    have hsome := htable entry hentry
    rw [hfound] at hsome
    cases hsome

/-- A character with a meaning is one of a literal or has a token. -/
theorem isKept_eq (c : Char) : isKept c = (isLiteralChar c || (Token.ofChar? c).isSome) := by
  rw [isKept, lookup_symbolTable]

namespace Piece

/-- The characters of a piece. -/
def chars : Piece → List Char
  | literal run => run
  | symbol t => t.char?.toList

private theorem flatMap_chars_prepend (c : Char) (pieces : List Piece) :
    (prepend [c] pieces).flatMap chars = c :: pieces.flatMap chars := by
  cases pieces with
  | nil => rfl
  | cons piece rest => cases piece <;> rfl

/-- The pieces of a text are made of its characters that have a meaning. -/
theorem flatMap_chars_ofChars (cs : List Char) :
    (ofChars cs).flatMap chars = cs.filter isKept := by
  induction cs with
  | nil => rfl
  | cons c rest ih =>
    rw [ofChars]
    split
    · next hliteral =>
      rw [flatMap_chars_prepend, ih, List.filter_cons_of_pos (by rw [isKept_eq, hliteral]; rfl)]
    · next hliteral =>
      cases hfound : Token.ofChar? c with
      | some t =>
        have hkept : isKept c = true := by rw [isKept_eq, hfound, Option.isSome_some, Bool.or_true]
        rw [List.filter_cons_of_pos hkept, ← ih, List.flatMap_cons, chars,
          Token.ofChar?_eq_some_iff.mp hfound]
        rfl
      | none =>
        rw [List.filter_cons_of_neg (by simp [isKept_eq, hfound, hliteral])]
        exact ih

/-- A literal among the pieces has a character. -/
theorem ne_nil_of_literal_mem {cs run : List Char} (h : literal run ∈ ofChars cs) : run ≠ [] := by
  induction cs with
  | nil => cases h
  | cons c rest ih =>
    rw [ofChars] at h
    split at h
    · cases hpieces : ofChars rest with
      | nil =>
        rw [hpieces] at h
        obtain rfl := Piece.literal.inj (List.mem_singleton.mp h)
        exact List.cons_ne_nil c []
      | cons piece pieces =>
        rw [hpieces] at h ih
        cases piece with
        | literal first =>
          rcases List.mem_cons.mp h with heq | hmem
          · rw [Piece.literal.inj heq]
            exact List.cons_ne_nil c first
          · exact ih (List.mem_cons_of_mem _ hmem)
        | symbol t =>
          rcases List.mem_cons.mp h with heq | hmem
          · rw [Piece.literal.inj heq]
            exact List.cons_ne_nil c []
          · exact ih hmem
    · cases hfound : Token.ofChar? c with
      | some t =>
        rw [hfound] at h
        exact ih ((List.mem_cons.mp h).resolve_left (by simp))
      | none =>
        rw [hfound] at h
        exact ih h

/-- A symbol among the pieces is one character, which is no character of a literal. -/
theorem exists_chars_symbol_eq {cs : List Char} {t : Token} (h : symbol t ∈ ofChars cs) :
    ∃ c, (symbol t).chars = [c] ∧ Token.ofChar? c = some t ∧ isLiteralChar c = false := by
  obtain ⟨c, -, hfound⟩ := exists_char_of_symbol_mem h
  refine ⟨c, ?_, hfound, Token.isLiteralChar_of_ofChar?_eq_some hfound⟩
  rw [chars, Token.ofChar?_eq_some_iff.mp hfound]
  rfl

/-- A piece has a character. -/
theorem chars_ne_nil {cs : List Char} {piece : Piece} (h : piece ∈ ofChars cs) :
    piece.chars ≠ [] := by
  cases piece with
  | literal run => exact ne_nil_of_literal_mem h
  | symbol t =>
    obtain ⟨c, hc, -⟩ := exists_chars_symbol_eq h
    rw [hc]
    exact List.cons_ne_nil c []

/-- The token of the characters of a piece is that of the piece. -/
theorem tokenOfRun_chars {cs : List Char} {piece : Piece} (h : piece ∈ ofChars cs) :
    tokenOfRun piece.chars = piece.token := by
  cases piece with
  | literal run =>
    rw [chars, token]
    unfold tokenOfRun
    split
    · next c =>
      have hliteral := isLiteralChar_of_literal_mem h c List.mem_cons_self
      have hnone : Token.ofChar? c = none := by
        by_contra hsome
        obtain ⟨t, ht⟩ := Option.ne_none_iff_exists'.mp hsome
        rw [Token.isLiteralChar_of_ofChar?_eq_some ht] at hliteral
        cases hliteral
      rw [lookup_symbolTable, hnone, Option.getD_none]
    · rfl
  | symbol t =>
    obtain ⟨c, hchars, hfound, -⟩ := exists_chars_symbol_eq h
    rw [hchars, tokenOfRun, lookup_symbolTable, hfound, Option.getD_some, token]

private theorem isChain_of_forall {run : List Char} (h : ∀ c ∈ run, isLiteralChar c = true) :
    run.IsChain fun c d ↦ (isLiteralChar c && isLiteralChar d) = true := by
  induction run with
  | nil => exact .nil
  | cons c run ih =>
    cases run with
    | nil => exact .singleton c
    | cons d run =>
      obtain ⟨hc, hrun⟩ := List.forall_mem_cons.mp h
      refine .cons_cons ?_ (ih hrun)
      rw [hc, hrun d List.mem_cons_self]
      rfl

/-- The pieces of a text are the maximal runs of its kept characters. -/
theorem splitBy_filter_isKept (cs : List Char) :
    (cs.filter isKept).splitBy (fun c d ↦ isLiteralChar c && isLiteralChar d) =
      (ofChars cs).map chars := by
  rw [← flatMap_chars_ofChars, List.flatMap_def]
  refine List.splitBy_flatten ?_ ?_ ?_
  · intro hnil
    obtain ⟨piece, hpiece, hchars⟩ := List.mem_map.mp hnil
    exact chars_ne_nil hpiece hchars
  · intro run hrun
    obtain ⟨piece, hpiece, rfl⟩ := List.mem_map.mp hrun
    cases piece with
    | literal run => exact isChain_of_forall (isLiteralChar_of_literal_mem hpiece)
    | symbol t =>
      obtain ⟨c, hc, -⟩ := exists_chars_symbol_eq hpiece
      rw [hc]
      exact .singleton c
  · rw [List.isChain_map]
    have hchain := (List.isChain_map _).mp (isChain_map_symbol?_ofChars cs)
    refine hchain.imp_of_mem_imp fun first second hfirst hsecond hmarks ↦ ?_
    refine ⟨chars_ne_nil hfirst, chars_ne_nil hsecond, ?_⟩
    -- One of two neighbours is a symbol, which is no character of a literal.
    cases first with
    | symbol t =>
      obtain ⟨c, hc, -, hliteral⟩ := exists_chars_symbol_eq hfirst
      simp [hc, hliteral]
    | literal run =>
      cases second with
      | literal run' => exact absurd ⟨rfl, rfl⟩ hmarks
      | symbol t =>
        obtain ⟨c, hc, -, hliteral⟩ := exists_chars_symbol_eq hsecond
        simp [hc, hliteral]

end Piece

/-- The lexer finds the tokens of the runs. -/
theorem tokenize_eq_lex (text : String) : tokenize text = lex text := by
  rw [tokenize_eq, lex, keptChars, Piece.splitBy_filter_isKept, List.map_map]
  exact List.map_congr_left fun piece hpiece ↦ (Piece.tokenOfRun_chars hpiece).symm

/-- A literal is in progress when the last character with a meaning is one of a literal. -/
theorem hasLiteral_readText (text : String) :
    (Lexer.start.readText text).hasLiteral = endsInLiteral text := by
  rw [Lexer.readText, endsInLiteral, keptChars]
  induction text.toList using List.reverseRecOn with
  | nil => rfl
  | append_singleton cs c ih =>
    rw [Lexer.readChars_append, Lexer.readChars_cons, Lexer.readChars_nil, Lexer.readChar,
      List.filter_append]
    by_cases hliteral : isLiteralChar c = true
    · have hkept : isKept c = true := by rw [isKept, hliteral, Bool.true_or]
      rw [if_pos hliteral, List.filter_cons_of_pos hkept, List.filter_nil, List.getLast?_concat,
        Option.any_some, hliteral]
      rfl
    · rw [if_neg hliteral]
      cases hfound : Token.ofChar? c with
      | some t =>
        have hkept : isKept c = true := by rw [isKept_eq, hfound, Option.isSome_some, Bool.or_true]
        rw [List.filter_cons_of_pos hkept, List.filter_nil, List.getLast?_concat, Option.any_some,
          (Bool.not_eq_true _).mp hliteral]
        rfl
      | none =>
        rw [List.filter_cons_of_neg (by simp [isKept_eq, hfound, hliteral]), List.filter_nil,
          List.append_nil]
        exact ih

/-- Characters without a meaning change nothing wherever they stand. -/
theorem tokenize_append_dropped {dropped : String}
    (h : ∀ c ∈ dropped.toList, isKept c = false) (before after : String) :
    tokenize (before ++ dropped ++ after) = tokenize (before ++ after) := by
  have hfilter : dropped.toList.filter isKept = [] := by
    simpa using h
  rw [tokenize_eq_lex, tokenize_eq_lex, lex, lex, keptChars, keptChars]
  simp [String.toList_append, List.filter_append, hfilter]

/-- A symbol separates the tokens before it from those after it. -/
theorem tokenize_append_symbol {c : Char} {t : Token} (h : symbolTable.lookup c = some t)
    (before after : String) :
    tokenize (before ++ String.singleton c ++ after) =
      tokenize before ++ [t] ++ tokenize after := by
  rw [lookup_symbolTable] at h
  rw [tokenize_eq, tokenize_eq, tokenize_eq, String.toList_append, String.toList_append,
    String.toList_singleton, List.append_assoc, List.singleton_append,
    Piece.ofChars_append_symbol h, List.map_append, List.map_cons, List.append_assoc]
  rfl

/-! ### Lexers that are fed in chunks -/

/-- One step of work with several lexers: a new one, a copy of one, or more text for one. A step for
a lexer that is not there does nothing. -/
inductive Feed where
  | start
  | clone (index : Nat)
  | readChar (index : Nat) (c : Char)
  | readText (index : Nat) (text : String)
deriving DecidableEq, Repr

namespace Feed

/-- The lexers after a step. -/
def lexers (states : List Lexer) : Feed → List Lexer
  | start => states ++ [.start]
  | clone index => states ++ states[index]?.toList
  | readChar index c => states.modify index (·.readChar c)
  | readText index text => states.modify index (·.readText text)

/-- The texts that the lexers have read after a step. -/
def texts (read : List String) : Feed → List String
  | start => read ++ [""]
  | clone index => read ++ read[index]?.toList
  | readChar index c => read.modify index (·.push c)
  | readText index text => read.modify index (· ++ text)

/-- The lexers after some steps. -/
def allLexers (feeds : List Feed) : List Lexer := feeds.foldl lexers []

/-- The texts that the lexers have read after some steps. -/
def allTexts (feeds : List Feed) : List String := feeds.foldl texts []

end Feed

namespace Lexer

private theorem map_modify {α β : Type} {f : α → β} {g : α → α} {g' : β → β}
    (h : ∀ x, f (g x) = g' (f x)) (xs : List α) (i : Nat) :
    (xs.modify i g).map f = (xs.map f).modify i g' := by
  refine List.ext_getElem? fun j ↦ ?_
  rw [List.getElem?_map, List.getElem?_modify, List.getElem?_modify, List.getElem?_map]
  cases xs[j]? with
  | none => rfl
  | some x => by_cases hij : i = j <;> simp [hij, h]

/-- Each step keeps every lexer where reading its text leads to. -/
theorem lexers_map_readText (read : List String) (feed : Feed) :
    Feed.lexers (read.map start.readText) feed = (Feed.texts read feed).map start.readText := by
  cases feed with
  | start => rw [Feed.lexers, Feed.texts, List.map_append]; rfl
  | clone index =>
    rw [Feed.lexers, Feed.texts, List.map_append, List.getElem?_map]
    cases read[index]? <;> rfl
  | readChar index c =>
    refine (map_modify (fun text ↦ ?_) read index).symm
    rw [readText, String.toList_push, readChars_append]
    rfl
  | readText index text =>
    refine (map_modify (fun text' ↦ ?_) read index).symm
    rw [readText, String.toList_append, readChars_append]
    rfl

/-- However they are fed, the lexers are where reading their texts leads to. -/
theorem allLexers_eq (feeds : List Feed) :
    Feed.allLexers feeds = (Feed.allTexts feeds).map start.readText := by
  have hrun : ∀ read : List String, feeds.foldl Feed.lexers (read.map start.readText) =
      (feeds.foldl Feed.texts read).map start.readText := by
    induction feeds with
    | nil => exact fun read ↦ rfl
    | cons feed rest ih =>
      intro read
      rw [List.foldl_cons, lexers_map_readText, ih, List.foldl_cons]
  exact hrun []

end Lexer

/-- However several lexers are fed, by characters or by texts, and copied in between, each gives the
tokens of exactly the text that it has read, and it has a literal in progress when the last
character with a meaning is a digit or a point. Therefore no two numbers are in a row, dropped
characters change nothing wherever they stand, and a symbol separates the tokens before it from
those after it. -/
theorem finish_allLexers :
    (∀ feeds : List Feed,
      (Feed.allLexers feeds).map Lexer.finish = (Feed.allTexts feeds).map lex ∧
      (Feed.allLexers feeds).map Lexer.hasLiteral = (Feed.allTexts feeds).map endsInLiteral) ∧
    (∀ text, tokenize text = lex text ∧ Token.NoAdjacentNumbers (lex text)) ∧
    (∀ before dropped after : String, (∀ c ∈ dropped.toList, isKept c = false) →
      tokenize (before ++ dropped ++ after) = tokenize (before ++ after)) ∧
    ∀ (before after : String) (c : Char) (t : Token), symbolTable.lookup c = some t →
      tokenize (before ++ String.singleton c ++ after) =
        tokenize before ++ [t] ++ tokenize after := by
  refine ⟨fun feeds ↦ ⟨?_, ?_⟩, fun text ↦ ⟨tokenize_eq_lex text, ?_⟩,
    fun before dropped after h ↦ tokenize_append_dropped h before after,
    fun before after c t h ↦ tokenize_append_symbol h before after⟩
  · rw [Lexer.allLexers_eq, List.map_map]
    exact List.map_congr_left fun text _ ↦ tokenize_eq_lex text
  · rw [Lexer.allLexers_eq, List.map_map]
    exact List.map_congr_left fun text _ ↦ hasLiteral_readText text
  · rw [← tokenize_eq_lex]
    exact noAdjacentNumbers_tokenize text

/-- A copy goes on with another text than the lexer that it was made of, and a letter in the middle
of a literal is dropped. -/
theorem finish_allLexers_copy :
    let feeds : List Feed :=
      [.start, .readText 0 "1 ", .clone 0, .readChar 0 '.', .readText 0 "5", .readText 1 "×2"]
    Feed.allTexts feeds = ["1 .5", "1 ×2"] ∧
    (Feed.allLexers feeds).map Lexer.finish = ["1 .5", "1 ×2"].map lex ∧
    ((∀ c ∈ "k".toList, isKept c = false) ∧
      tokenize ("1" ++ "k" ++ "2+") = tokenize ("1" ++ "2+")) ∧
    (symbolTable.lookup '÷' = some (.operator .divide) ∧
      tokenize ("1.5" ++ String.singleton '÷' ++ "2") =
        tokenize "1.5" ++ [.operator .divide] ++ tokenize "2") := by
  intro feeds
  obtain ⟨hfeeds, -, hdropped, hsymbol⟩ := finish_allLexers
  have htexts : Feed.allTexts feeds = ["1 .5", "1 ×2"] := rfl
  have hkept : ∀ c ∈ "k".toList, isKept c = false := by
    intro c hc
    rw [String.toList_ofList, List.mem_singleton] at hc
    rw [hc]
    rfl
  exact ⟨htexts, htexts ▸ (hfeeds feeds).1, ⟨hkept, hdropped "1" "k" "2+" hkept⟩, rfl,
    hsymbol "1.5" "2" '÷' _ rfl⟩

end PocketCalc
