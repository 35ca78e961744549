import Mathlib.Data.List.Chain
import PocketCalc.Proofs.Decimal.PlainNumeral
import PocketCalc.Proofs.Token.Pieces

/-!
# Tokens that are shown and read again

The blanks between shown tokens are ignored when the text is read, so they keep symbols apart but
not numbers: two numbers in a row would be read as one literal. When no two numbers are in a row,
every token is read again for itself, a number as what its plain text is made of (`Token.reread`).
Tokens that come from a text are of that kind, and they have no signs.
-/

namespace PocketCalc

namespace Token

/-- No two numbers are in a row. -/
def NoAdjacentNumbers (tokens : List Token) : Prop :=
  tokens.IsChain fun first second ↦ ¬ (first.isNumber = true ∧ second.isNumber = true)

/-- Neighbours are looked at one pair after the other. -/
instance (tokens : List Token) : Decidable (NoAdjacentNumbers tokens) :=
  inferInstanceAs (Decidable (List.IsChain _ _))

/-- What a shown token is read as: a sign in front of a number becomes a minus sign, and of the
numbers only the finite ones leave digits. -/
def reread : Token → List Token
  | number (.finite true magnitude) => [operator .minus, number (.finite false magnitude)]
  | number (.infinite true) => [operator .minus]
  | number (.infinite false) => []
  | number .nan => []
  | t => [t]

/-- The token is no number or a finite one. -/
def isFinite (t : Token) : Bool := t.value?.all Binary64.isFinite

/-- A token with a character is shown by it. -/
theorem chars_of_char?_eq_some {t : Token} {c : Char} (h : t.char? = some c) : t.chars = [c] := by
  cases t <;> cases h <;> rfl

/-- A token with a character is no number. -/
theorem isNumber_of_char?_eq_some {t : Token} {c : Char} (h : t.char? = some c) :
    t.isNumber = false := by
  cases t <;> cases h <;> rfl

/-- A token with a character is read as itself. -/
theorem reread_of_char?_eq_some {t : Token} {c : Char} (h : t.char? = some c) : t.reread = [t] := by
  cases t <;> cases h <;> rfl

/-- What is no number has a character. -/
theorem exists_char?_of_isNumber {t : Token} (h : t.isNumber = false) : ∃ c, t.char? = some c := by
  cases t with
  | number value => cases h
  | operator symbol => exact ⟨symbol.char, rfl⟩
  | parenthesis side => exact ⟨side.char, rfl⟩

/-- A number without a sign is read as itself when it is finite and leaves nothing otherwise. -/
theorem reread_of_not_isNegative {t : Token} (h : ∀ x, t = number x → x.isNegative = false) :
    t.reread = if t.isFinite then [t] else [] := by
  cases t with
  | operator symbol => rfl
  | parenthesis side => rfl
  | number value =>
    have hsign := h value rfl
    cases value with
    | nan => rfl
    | infinite negative =>
      cases hsign
      rfl
    | finite negative magnitude =>
      cases hsign
      rfl

/-- Tokens without signs are read again less the numbers that are not finite. -/
theorem flatMap_reread {tokens : List Token} (h : ∀ x, number x ∈ tokens → x.isNegative = false) :
    tokens.flatMap reread = tokens.filter isFinite := by
  induction tokens with
  | nil => rfl
  | cons t rest ih =>
    have ht := reread_of_not_isNegative fun x heq ↦ h x (heq ▸ List.mem_cons_self)
    rw [List.flatMap_cons, ht, ih fun x hx ↦ h x (List.mem_cons_of_mem t hx), List.filter_cons]
    cases t.isFinite <;> rfl

/-- Every number that is read again is finite and without a sign. -/
theorem finite_of_number_mem_reread {t : Token} {x : Binary64} (h : number x ∈ t.reread) :
    x.isFinite = true ∧ x.isNegative = false := by
  unfold reread at h
  split at h
  · have hx := List.mem_singleton.mp ((List.mem_cons.mp h).resolve_left (by simp))
    cases hx
    exact ⟨rfl, rfl⟩
  · simp at h
  · cases h
  · cases h
  · next hfinite hinfinite hpositive hnan =>
    rw [List.mem_singleton] at h
    cases x with
    | nan => exact absurd h.symm hnan
    | infinite negative =>
      cases negative with
      | false => exact absurd h.symm hpositive
      | true => exact absurd h.symm hinfinite
    | finite negative magnitude =>
      cases negative with
      | false => exact ⟨rfl, rfl⟩
      | true => exact absurd h.symm (hfinite magnitude)

end Token

namespace Piece

/-- An ignored character may be left out. -/
theorem ofChars_append_ignored {c : Char} (hliteral : isLiteralChar c = false)
    (hsymbol : Token.ofChar? c = none) (before after : List Char) :
    ofChars (before ++ c :: after) = ofChars (before ++ after) := by
  induction before with
  | nil =>
    change ofChars (c :: after) = ofChars after
    rw [ofChars, if_neg (by simp [hliteral]), hsymbol]
  | cons d before ih => rw [List.cons_append, List.cons_append, ofChars, ofChars, ih]

/-- A literal stays a piece of its own when no literal follows. -/
theorem prepend_of_head? {chars : List Char} (hne : chars ≠ []) {pieces : List Piece}
    (h : ∀ piece ∈ pieces.head?, piece.symbol?.isSome = true) :
    prepend chars pieces = literal chars :: pieces := by
  unfold prepend
  rw [if_neg hne]
  cases pieces with
  | nil => rfl
  | cons piece rest =>
    cases piece with
    | symbol token => rfl
    | literal run => simpa [symbol?] using h (literal run) rfl

private theorem isLiteralChar_of_literal_mem_prepend {chars : List Char} {pieces : List Piece}
    (hchars : ∀ c ∈ chars, isLiteralChar c = true)
    (hpieces : ∀ run, literal run ∈ pieces → ∀ c ∈ run, isLiteralChar c = true) {run : List Char}
    (h : literal run ∈ prepend chars pieces) : ∀ c ∈ run, isLiteralChar c = true := by
  unfold prepend at h
  split at h
  · exact hpieces run h
  · split at h
    · next joined rest =>
      rcases List.mem_cons.mp h with heq | hmem
      · cases heq
        have hjoined := hpieces joined List.mem_cons_self
        intro c hc
        exact (List.mem_append.mp hc).elim (hchars c) (hjoined c)
      · exact hpieces run (List.mem_cons_of_mem _ hmem)
    · rcases List.mem_cons.mp h with heq | hmem
      · cases heq
        exact hchars
      · exact hpieces run hmem

/-- Literals are made of digits and points. -/
theorem isLiteralChar_of_literal_mem {cs run : List Char} (h : literal run ∈ ofChars cs) :
    ∀ c ∈ run, isLiteralChar c = true := by
  induction cs generalizing run with
  | nil => cases h
  | cons c rest ih =>
    rw [ofChars] at h
    split at h
    · next hc =>
      refine isLiteralChar_of_literal_mem_prepend ?_ (fun run hrun ↦ ih hrun) h
      intro d hd
      rwa [List.mem_singleton.mp hd]
    · cases hsymbol : Token.ofChar? c with
      | none =>
        rw [hsymbol] at h
        exact ih h
      | some t =>
        rw [hsymbol] at h
        exact ih ((List.mem_cons.mp h).resolve_left (by simp))

/-- Every symbol has a character. -/
theorem exists_char?_of_symbol_mem {cs : List Char} {t : Token} (h : symbol t ∈ ofChars cs) :
    ∃ c, t.char? = some c := by
  obtain ⟨c, -, hc⟩ := exists_char_of_symbol_mem h
  exact ⟨c, Token.ofChar?_eq_some_iff.mp hc⟩

private theorem isChain_mark {marks : List (Option Token)}
    (h : marks.IsChain fun first second ↦ ¬ (first = none ∧ second = none)) :
    (mark marks).IsChain fun first second ↦ ¬ (first = none ∧ second = none) := by
  cases marks with
  | nil => exact .singleton none
  | cons first rest =>
    cases first with
    | none => exact h
    | some t => exact .cons_cons (by simp) h

/-- No two literals are in a row. -/
theorem isChain_map_symbol?_ofChars (cs : List Char) :
    ((ofChars cs).map symbol?).IsChain fun first second ↦ ¬ (first = none ∧ second = none) := by
  induction cs with
  | nil => exact .nil
  | cons c rest ih =>
    rw [ofChars]
    split
    · rw [map_symbol?_prepend (List.cons_ne_nil c [])]
      exact isChain_mark ih
    · cases Token.ofChar? c with
      | none => exact ih
      | some t => exact List.isChain_cons.mpr ⟨by simp [symbol?], ih⟩

/-- The pieces of the text that shows tokens. -/
def ofRendered (tokens : List Token) : List Piece := ofChars (Token.render tokens).toList

/-- The blanks between shown tokens are ignored. -/
theorem ofRendered_cons (t : Token) (rest : List Token) :
    ofRendered (t :: rest) = ofChars (t.chars ++ (Token.render rest).toList) := by
  rw [ofRendered, Token.render, Token.render, String.toList_ofList, String.toList_ofList]
  cases rest with
  | nil => simp
  | cons u rest =>
    rw [List.map_cons, List.map_cons, List.intercalate_cons_cons, List.append_assoc]
    exact ofChars_append_ignored rfl rfl t.chars _

/-- A shown symbol is a piece. -/
theorem ofRendered_cons_symbol {t : Token} {c : Char} (h : t.char? = some c) (rest : List Token) :
    ofRendered (t :: rest) = symbol t :: ofRendered rest := by
  rw [ofRendered_cons, Token.chars_of_char?_eq_some h]
  exact ofChars_append_symbol (Token.ofChar?_eq_some_iff.mpr h) [] _

/-- Behind tokens that do not start with a number no literal goes on. -/
theorem symbol?_head?_ofRendered {tokens : List Token}
    (h : ∀ t ∈ tokens.head?, t.isNumber = false) :
    ∀ piece ∈ (ofRendered tokens).head?, piece.symbol?.isSome = true := by
  cases tokens with
  | nil => simp [ofRendered, Token.render, ofChars]
  | cons t rest =>
    obtain ⟨c, hc⟩ := Token.exists_char?_of_isNumber (h t rfl)
    rw [ofRendered_cons_symbol hc]
    intro piece hpiece
    cases hpiece
    rfl

/-- A shown number is read for itself when no literal follows. -/
theorem map_token_ofChars_number (x : Binary64) {after : List Char}
    (h : ∀ piece ∈ (ofChars after).head?, piece.symbol?.isSome = true) :
    (ofChars (x.plainChars ++ after)).map token =
      (Token.number x).reread ++ (ofChars after).map token := by
  have hfinite (m : Magnitude) :
      (ofChars ((Binary64.finite false m).plainChars ++ after)).map token =
        .number (.finite false m) :: (ofChars after).map token := by
    have hnumeral := Binary64.plainNumeral_plainChars m
    rw [ofChars_append fun c hc ↦ hnumeral.isLiteralChar_of_mem hc,
      prepend_of_head? hnumeral.ne_nil h, List.map_cons, token, Binary64.ofLiteral_plainChars]
  -- The letters of the other numbers are ignored, and a sign is a symbol.
  cases x with
  | nan => rfl
  | infinite negative => cases negative <;> rfl
  | finite negative m =>
    cases negative with
    | false => exact hfinite m
    | true => exact congrArg (.operator .minus :: ·) (hfinite m)

/-- Shown tokens without two numbers in a row are read one by one. -/
theorem map_token_ofRendered {tokens : List Token} (h : Token.NoAdjacentNumbers tokens) :
    (ofRendered tokens).map token = tokens.flatMap Token.reread := by
  induction tokens with
  | nil => rfl
  | cons t rest ih =>
    obtain ⟨hhead, hrest⟩ := List.isChain_cons.mp h
    rw [List.flatMap_cons, ← ih hrest]
    cases hnumber : t.isNumber with
    | false =>
      obtain ⟨c, hc⟩ := Token.exists_char?_of_isNumber hnumber
      rw [ofRendered_cons_symbol hc, Token.reread_of_char?_eq_some hc]
      rfl
    | true =>
      cases t with
      | number x =>
        rw [ofRendered_cons]
        refine map_token_ofChars_number x (symbol?_head?_ofRendered fun u hu ↦ ?_)
        simpa [hnumber] using hhead u hu
      | operator symbol => cases hnumber
      | parenthesis side => cases hnumber

end Piece

open Token

/-- No two numbers of a text are in a row. -/
theorem noAdjacentNumbers_tokenize (text : String) : NoAdjacentNumbers (tokenize text) := by
  have hnone {piece : Piece} (hmem : piece ∈ Piece.ofChars text.toList)
      (hnumber : piece.token.isNumber = true) : piece.symbol? = none := by
    cases piece with
    | literal chars => rfl
    | symbol t =>
      obtain ⟨c, hc⟩ := Piece.exists_char?_of_symbol_mem hmem
      cases (isNumber_of_char?_eq_some hc).symm.trans hnumber
  rw [NoAdjacentNumbers, tokenize_eq, List.isChain_map]
  have hchain := (List.isChain_map _).mp (Piece.isChain_map_symbol?_ofChars text.toList)
  refine hchain.imp_of_mem_imp fun first second hfirst hsecond hmarks hnumbers ↦ ?_
  exact hmarks ⟨hnone hfirst hnumbers.1, hnone hsecond hnumbers.2⟩

/-- The numbers of a text have no signs. -/
theorem isNegative_of_number_mem_tokenize {text : String} {x : Binary64}
    (h : number x ∈ tokenize text) : x.isNegative = false := by
  rw [tokenize_eq] at h
  obtain ⟨piece, hpiece, htoken⟩ := List.mem_map.mp h
  cases piece with
  | literal chars =>
    cases htoken
    exact Binary64.isNegative_ofLiteral (Piece.isLiteralChar_of_literal_mem hpiece)
  | symbol t =>
    obtain ⟨c, hc⟩ := Piece.exists_char?_of_symbol_mem hpiece
    cases htoken
    cases hc

/-- Shown tokens without two numbers in a row are read again one by one. -/
theorem tokenize_render_eq_flatMap {tokens : List Token} (h : NoAdjacentNumbers tokens) :
    tokenize (render tokens) = tokens.flatMap reread := by
  rw [tokenize_eq]
  exact Piece.map_token_ofRendered h

/-- Exactly the tokens without two numbers in a row, and with finite numbers without signs, are read
again as they are. -/
theorem tokenize_render_eq_self_iff {tokens : List Token} :
    tokenize (render tokens) = tokens ↔
      (∀ x, number x ∈ tokens → x.isFinite = true ∧ x.isNegative = false) ∧
        NoAdjacentNumbers tokens := by
  constructor
  · intro h
    have hadjacent : NoAdjacentNumbers tokens := h ▸ noAdjacentNumbers_tokenize (render tokens)
    refine ⟨fun x hx ↦ ?_, hadjacent⟩
    rw [← h, tokenize_render_eq_flatMap hadjacent] at hx
    obtain ⟨t, -, ht⟩ := List.mem_flatMap.mp hx
    exact finite_of_number_mem_reread ht
  · rintro ⟨hnumbers, hadjacent⟩
    rw [tokenize_render_eq_flatMap hadjacent, flatMap_reread fun x hx ↦ (hnumbers x hx).2,
      List.filter_eq_self]
    intro t ht
    cases t with
    | number x => exact (hnumbers x ht).1
    | operator symbol => rfl
    | parenthesis side => rfl

/-- The tokens of a text are read again less the numbers that are not finite. -/
theorem tokenize_render_tokenize (text : String) :
    tokenize (render (tokenize text)) = (tokenize text).filter isFinite := by
  rw [tokenize_render_eq_flatMap (noAdjacentNumbers_tokenize text),
    flatMap_reread fun x hx ↦ isNegative_of_number_mem_tokenize hx]

/-- Shown tokens are read again as they are exactly when no two numbers are in a row and every
number is finite and without a sign; when no two numbers are in a row, they are read one by one.
What comes from a text loses only the numbers that are not finite, and nothing the second time. -/
theorem tokenize_render :
    (∀ tokens, tokenize (render tokens) = tokens ↔
      (∀ x, number x ∈ tokens → x.isFinite = true ∧ x.isNegative = false) ∧
        NoAdjacentNumbers tokens) ∧
    (∀ tokens, NoAdjacentNumbers tokens → tokenize (render tokens) = tokens.flatMap reread) ∧
    ∀ text, tokenize (render (tokenize text)) = (tokenize text).filter isFinite ∧
      tokenize (render (tokenize (render (tokenize text)))) =
        tokenize (render (tokenize text)) := by
  refine ⟨fun _ ↦ tokenize_render_eq_self_iff, fun _ ↦ tokenize_render_eq_flatMap, fun text ↦
    ⟨tokenize_render_tokenize text, tokenize_render_eq_self_iff.mpr ⟨fun x hx ↦ ?_,
      noAdjacentNumbers_tokenize _⟩⟩⟩
  rw [tokenize_render_tokenize] at hx
  have hmem := List.mem_filter.mp hx
  exact ⟨hmem.2, isNegative_of_number_mem_tokenize hmem.1⟩

/-- Signs and numbers that are not finite are read one by one, a sum is read as it is, and a lone
point is lost. -/
theorem tokenize_render_signs :
    let signs : List Token := [.number (.zero true), .operator .times, .number (.infinite true),
      .operator .percent, .number .nan]
    let sum : List Token := [.number (.ofNat 2), .operator .plus, .number (.ofNat 3)]
    (NoAdjacentNumbers signs ∧
      tokenize (render signs) =
        [.operator .minus, .number (.zero false), .operator .times, .operator .minus,
          .operator .percent]) ∧
    ((∀ x, .number x ∈ sum → x.isFinite = true ∧ x.isNegative = false) ∧ NoAdjacentNumbers sum ∧
      tokenize (render sum) = sum) ∧
    tokenize (render (tokenize ".+")) = [.operator .plus] := by
  intro signs sum
  obtain ⟨hself, hone, htext⟩ := tokenize_render
  have hsigns : NoAdjacentNumbers signs := by decide
  have hadjacent : NoAdjacentNumbers sum := by decide
  have hnumbers : ∀ x, number x ∈ sum → x.isFinite = true ∧ x.isNegative = false := by
    intro x hx
    simp only [sum, List.mem_cons, Token.number.injEq, reduceCtorEq, List.not_mem_nil, or_false,
      false_or] at hx
    rcases hx with hx | hx
    · rw [hx]
      decide +kernel
    · rw [hx]
      decide +kernel
  have hpoint := (htext ".+").1
  rw [show (tokenize ".+").filter Token.isFinite = [.operator .plus] by decide +kernel] at hpoint
  exact ⟨⟨hsigns, hone signs hsigns⟩, ⟨hnumbers, hadjacent, (hself sum).mpr ⟨hnumbers, hadjacent⟩⟩,
    hpoint⟩

end PocketCalc
