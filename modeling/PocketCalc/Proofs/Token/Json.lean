import PocketCalc.Proofs.Json.Scaled
import PocketCalc.Proofs.Json.Value
import PocketCalc.Proofs.Token.Render
import PocketCalc.Token.Json

/-!
# Lists of tokens in JSON

The JSON text of a list of tokens is read as the list, item by item, unless a number in it is not
finite: such a number is written as `null`, which is no token. No text is read as a list with such a
number. So lists that were read are read back from what is written for them. Of a conversion of
numbers all of this takes only that it gives back the numbers in the list
(`parseListJsonWith_listToJson`), as the nearest one does for all finite numbers and scaling for
those with few digits.
-/

namespace PocketCalc

open Json (Conversion FollowsValue ReadError Readable ReadsBack Value)

namespace Token

/-- The JSON values that stand for tokens in what is read: a finite number for itself, `null` for
the other numbers, and for a symbol the string of its one character. -/
inductive JsonForm : Token → Value → Prop where
  | finite {x : Binary64} (h : x.isFinite = true) : JsonForm (number x) (.number x)
  | notFinite {x : Binary64} (h : x.isFinite = false) : JsonForm (number x) .null
  | plus : JsonForm (operator .plus) (.string "+")
  | minus : JsonForm (operator .minus) (.string "-")
  | times : JsonForm (operator .times) (.string "×")
  | divide : JsonForm (operator .divide) (.string "÷")
  | percent : JsonForm (operator .percent) (.string "%")
  | opening : JsonForm (parenthesis .opening) (.string "(")
  | closing : JsonForm (parenthesis .closing) (.string ")")

/-- What is read for a token is its JSON form. -/
theorem jsonForm_reread_toJson (t : Token) : JsonForm t t.toJson.reread := by
  cases t with
  | number x =>
    rw [toJson, Value.reread]
    split
    case isTrue h => exact .finite h
    case isFalse h => exact .notFinite (Bool.eq_false_iff.mpr h)
  | operator symbol => cases symbol <;> constructor
  | parenthesis side => cases side <;> constructor

/-- What is read for a list of tokens is the array of their JSON forms. -/
theorem exists_reread_listToJson (tokens : List Token) :
    ∃ items, (listToJson tokens).reread = .array items ∧ List.Forall₂ JsonForm tokens items := by
  refine ⟨(tokens.map toJson).map Value.reread, ?_, ?_⟩
  · rw [listToJson, Value.reread, Value.rereadItems_eq_map]
  · rw [List.map_map, List.forall₂_map_right_iff, List.forall₂_same]
    exact fun t _ ↦ t.jsonForm_reread_toJson

/-- What the JSON text of a token is read as: a number that is not finite is no token there. -/
def jsonReread (t : Token) : Except ReadError Token :=
  if t.isFinite then .ok t else .error .mismatched

/-- Tokens are read in order when all of them are finite, and are refused otherwise. -/
theorem mapM_jsonReread (tokens : List Token) :
    tokens.mapM jsonReread = if tokens.all isFinite then .ok tokens else .error .mismatched := by
  induction tokens with
  | nil => rfl
  | cons t rest ih =>
    rw [List.mapM_cons, ih, jsonReread, List.all_cons]
    cases t.isFinite <;> cases rest.all isFinite <;> rfl

/-- Tokens are finite when all numbers among them are. -/
theorem all_isFinite_iff {tokens : List Token} :
    tokens.all isFinite = true ↔ ∀ x, number x ∈ tokens → x.isFinite = true := by
  rw [List.all_eq_true]
  refine ⟨fun h x hx ↦ h _ hx, fun h t ht ↦ ?_⟩
  cases t with
  | number x => exact h x ht
  | operator symbol => rfl
  | parenthesis side => rfl

section Conversion

variable {convert : Conversion}

/-- The JSON value of a token can be read whatever may be nested in the text. -/
theorem readable_toJson {t : Token}
    (h : ∀ x, t = number x → x.isFinite = true → ReadsBack convert x) (depth : Nat) :
    Readable convert depth t.toJson := by
  cases t with
  | number x => exact .number depth (h x rfl)
  | operator symbol => exact .string depth _
  | parenthesis side => exact .string depth _

/-- What is read for a token stands for the token, and for none when it was not finite. -/
theorem ofJson?_reread_toJson (t : Token) :
    ofJson? t.toJson.reread = if t.isFinite then some t else none := by
  cases t with
  | number x => cases x <;> rfl
  | operator symbol => cases symbol <;> rfl
  | parenthesis side => cases side <;> rfl

/-- A token is read from its JSON text. -/
theorem readJson_chars {t : Token}
    (h : ∀ x, t = number x → x.isFinite = true → ReadsBack convert x) (depth : Nat)
    {rest : List Char} (hrest : FollowsValue rest) :
    readJson convert depth (t.toJson.chars ++ rest) = t.jsonReread.map fun t ↦ (t, rest) := by
  have hread := (readable_toJson h depth).readValue_append hrest
  rw [readJson, hread, jsonReread]
  dsimp only
  rw [ofJson?_reread_toJson]
  cases t.isFinite <;> rfl

/-- A list of tokens is read from its JSON text when all its numbers are finite, and the text is
refused otherwise. -/
theorem parseListJsonWith_text {tokens : List Token}
    (h : ∀ x, number x ∈ tokens → x.isFinite = true → ReadsBack convert x) :
    parseListJsonWith convert (listToJson tokens).text =
      if tokens.all isFinite then .ok tokens else .error .mismatched := by
  have hsequence := Json.readSequence_commaSeparated jsonReread (.inl rfl)
    (fun t _ ↦ t.toJson.startsValue_chars) (fun t ht rest hrest ↦
      readJson_chars (fun x heq hx ↦ h x (heq ▸ ht) hx) (Json.maxDepth - 1) hrest) []
  have hshape : Json.skipBlanks (listToJson tokens).text.toList =
      '[' :: (Json.commaSeparated (tokens.map fun t ↦ t.toJson.chars) ++ [']']) := by
    rw [Value.text, String.toList_ofList, listToJson, Value.chars_array, List.map_map]
    rfl
  rw [parseListJsonWith, hshape]
  change Json.readSequence ']' (readJson convert (Json.maxDepth - 1)) _ >>= Json.complete = _
  rw [hsequence, mapM_jsonReread]
  split <;> rfl

/-- No text of a symbol stands for a number. -/
theorem ofText?_ne_number (text : String) (x : Binary64) : ofText? text ≠ some (number x) := by
  intro h
  rw [ofText?] at h
  split at h
  · have hchar := ofChar?_eq_some_iff.mp h
    cases hchar
  · cases h

/-- Only a number stands for a number. -/
theorem eq_number_of_ofJson? {v : Value} {x : Binary64} (h : ofJson? v = some (number x)) :
    v = .number x := by
  unfold ofJson? at h
  split at h
  · cases h
    rfl
  · exact absurd h (ofText?_ne_number _ x)
  · exact absurd h (ofText?_ne_number _ x)
  · cases h

/-- A number that is read as a token is finite. -/
theorem isFinite_of_readJson {depth : Nat} {cs rest : List Char} {x : Binary64}
    (h : readJson convert depth cs = .ok (number x, rest)) : x.isFinite = true := by
  rw [readJson] at h
  split at h
  · cases h
  · next value rest' hvalue =>
    split at h
    · next t ht =>
      cases h
      rw [eq_number_of_ofJson? ht] at hvalue
      exact Json.isFinite_of_readValue hvalue
    · cases h

/-- The numbers in a list that was read from a text are finite. -/
theorem isFinite_of_parseListJsonWith {text : String} {tokens : List Token}
    (h : parseListJsonWith convert text = .ok tokens) :
    ∀ x, number x ∈ tokens → x.isFinite = true := by
  intro x hx
  rw [parseListJsonWith] at h
  split at h
  · next rest _ =>
    cases hsequence : Json.readSequence ']' (readJson convert (Json.maxDepth - 1)) rest with
    | error e =>
      rw [hsequence] at h
      cases h
    | ok read =>
      rw [hsequence] at h
      have hread : read.1 = tokens := Json.eq_of_complete h
      obtain ⟨before, after, hitem⟩ :=
        Json.exists_item_of_mem_readSequence hsequence (a := number x) (hread ▸ hx)
      exact isFinite_of_readJson hitem
  · cases h

/-- Lists of tokens survive JSON. Let the finite numbers in a list be read back from what is written
for them. Then the text of the list is read as the list, with the signs of its zeros, when all its
numbers are finite, and is refused as the text of something else otherwise. All numbers of a list
that was read from any text are finite, so the text of that list is read as the list again. -/
theorem parseListJsonWith_listToJson (convert : Conversion) (tokens : List Token)
    (h : ∀ x, number x ∈ tokens → x.isFinite = true → ReadsBack convert x) :
    ((∀ x, number x ∈ tokens → x.isFinite = true) →
      parseListJsonWith convert (listToJson tokens).text = .ok tokens) ∧
    ((∃ x, number x ∈ tokens ∧ x.isFinite = false) →
      parseListJsonWith convert (listToJson tokens).text = .error .mismatched) ∧
    ∀ text read, parseListJsonWith convert text = .ok read →
      (∀ x, number x ∈ read → x.isFinite = true) ∧
      ((∀ x, number x ∈ read → ReadsBack convert x) →
        parseListJsonWith convert (listToJson read).text = .ok read) := by
  refine ⟨fun hfinite ↦ ?_, ?_, fun text read hread ↦ ?_⟩
  · rw [parseListJsonWith_text h, if_pos (all_isFinite_iff.mpr hfinite)]
  · rintro ⟨x, hx, hinfinite⟩
    have hsome : ¬ tokens.all isFinite = true := by
      intro hall
      rw [all_isFinite_iff.mp hall x hx] at hinfinite
      cases hinfinite
    rw [parseListJsonWith_text h, if_neg hsome]
  · have hfinite := isFinite_of_parseListJsonWith hread
    refine ⟨hfinite, fun hback ↦ ?_⟩
    rw [parseListJsonWith_text fun x hx _ ↦ hback x hx, if_pos (all_isFinite_iff.mpr hfinite)]

/-- Tokens of all kinds with a negative zero survive, and together with a number that is not finite
they are refused. -/
theorem parseListJsonWith_listToJson_zero :
    let scaled := Json.Numeral.scaled?
    let tokens := [number (.ofNat 12), operator .percent, parenthesis .closing, number (.zero true)]
    ((∀ x, number x ∈ tokens → x.isFinite = true → ReadsBack scaled x) ∧
      parseListJson (listToJson tokens).text = .ok tokens) ∧
    (∀ x, number x ∈ tokens ++ [number .nan] → x.isFinite = true → ReadsBack scaled x) ∧
      parseListJson (listToJson (tokens ++ [number .nan])).text = .error .mismatched := by
  intro scaled tokens
  have hdozen : ReadsBack scaled (.ofNat 12) := by
    have hchars : (Decimal.shortest .even
        ⟨12 * unitsPerOne, Binary64.isDouble_mul_unitsPerOne (by decide)⟩).jsonChars =
          ['1', '2'] ++ ['.', '0'] := by
      decide +kernel
    rw [Binary64.ofNat_eq_finite (n := 12) (Binary64.isDouble_mul_unitsPerOne (by decide))]
    exact Json.readsBack_scaled_whole hchars ⟨by decide, by simp, by simp⟩ (by decide)
  have hzero : ReadsBack scaled (.zero true) := by
    have hchars : (Decimal.shortest .even .zero).jsonChars = ['0'] ++ ['.', '0'] := by
      decide +kernel
    exact Json.readsBack_scaled_whole hchars ⟨by decide, by simp, by simp⟩ (by decide)
  have hnumbers : ∀ x, number x ∈ tokens → ReadsBack scaled x := by
    intro x hx
    simp only [tokens, List.mem_cons, number.injEq, reduceCtorEq, List.not_mem_nil, false_or,
      or_false] at hx
    rcases hx with hx | hx <;> rw [hx]
    · exact hdozen
    · exact hzero
  have hmore : ∀ x, number x ∈ tokens ++ [number .nan] → x.isFinite = true →
      ReadsBack scaled x := by
    intro x hx hfinite
    rcases List.mem_append.mp hx with hx | hx
    · exact hnumbers x hx
    · cases List.mem_singleton.mp hx
      cases hfinite
  obtain ⟨hsurvives, -⟩ := parseListJsonWith_listToJson scaled tokens fun x hx _ ↦ hnumbers x hx
  obtain ⟨-, hrefused, -⟩ := parseListJsonWith_listToJson scaled (tokens ++ [number .nan]) hmore
  exact ⟨⟨fun x hx _ ↦ hnumbers x hx, hsurvives fun x hx ↦ (hnumbers x hx).isFinite⟩, hmore,
    hrefused ⟨.nan, List.mem_append_right _ List.mem_cons_self, rfl⟩⟩

end Conversion

end Token

end PocketCalc
