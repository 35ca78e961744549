import PocketCalc.Proofs.Json.Escape
import PocketCalc.Proofs.Json.Numeral
import PocketCalc.Proofs.Json.Sequence

/-!
# Values in JSON

What is written for a value is read back as the value, with `null` in place of the numbers that JSON
does not have (`Readable.readValue_append`). Of a conversion this takes no more than that it gives
back the numbers in the value (`ReadsBack`); one to the nearest magnitude gives back every finite
number (`readsBack_nearest`). A written value has no control characters
(`Value.le_toNat_of_mem_chars`).
-/

namespace PocketCalc.Json

/-! ## Numbers -/

section Number

variable {convert : Conversion} {inner : Option (Reader Value)} {cs rest : List Char} {n : Numeral}

/-- What follows a value is no part of a number. -/
theorem FollowsValue.endsNumber {rest : List Char} (h : FollowsValue rest) : EndsNumber rest := by
  intro c hc
  rcases h c hc with rfl | rfl | rfl <;> decide

/-- What is written for a finite number begins with a sign or a digit. -/
theorem exists_numberChars_eq_cons (negative : Bool) (m : Magnitude) :
    ∃ c rest, numberChars (.finite negative m) = c :: rest ∧ (c = '-' ∨ c.isDigit = true) := by
  obtain ⟨n, htext, -⟩ := exists_numeralText_shortest m
  obtain ⟨c, rest, hchars, hdigit⟩ := htext.exists_eq_cons
  cases negative with
  | true => exact ⟨'-', _, rfl, .inl rfl⟩
  | false => exact ⟨c, rest, hchars, .inr hdigit⟩

/-- A sign or a digit is no white space. -/
theorem isBlank_eq_false {c : Char} (h : c = '-' ∨ c.isDigit = true) : isBlank c = false := by
  by_contra hc
  simp only [Bool.not_eq_false, isBlank, Bool.or_eq_true, beq_iff_eq] at hc
  rcases hc with ((rfl | rfl) | rfl) | rfl <;> simp at h

/-- What begins with a sign or a digit is read as a number. -/
theorem readWith_number {c : Char} (h : c = '-' ∨ c.isDigit = true) (rest : List Char) :
    readWith convert inner (c :: rest) =
      (readNumber convert (c :: rest)).map fun (value, rest) ↦ (.number value, rest) := by
  rw [readWith, skipBlanks_cons (isBlank_eq_false h)]
  split
  case h_1 heq => cases heq
  case h_8 heq =>
    cases heq
    exact if_pos h
  all_goals
    next heq =>
      cases heq
      simp at h

/-- The text of a number after its sign is read as what its digits are converted to. -/
theorem NumeralText.readWith_append (h : NumeralText cs n) (convert : Conversion)
    (inner : Option (Reader Value)) (negative : Bool) (hrest : EndsNumber rest) :
    readWith convert inner (signChars negative ++ cs ++ rest) =
      (convert n).elim (.error .malformed) fun m ↦ .ok (.number (.finite negative m), rest) := by
  have hunsigned : readUnsigned convert negative (cs ++ rest) =
      (convert n).elim (.error .malformed) fun m ↦ .ok (.finite negative m, rest) := by
    rw [readUnsigned, h.readNumeral_append hrest]
    dsimp only
    cases convert n <;> rfl
  obtain ⟨c, digits, rfl, hdigit⟩ := h.exists_eq_cons
  rw [List.cons_append] at hunsigned
  cases negative with
  | true =>
    change readWith convert inner ('-' :: c :: (digits ++ rest)) = _
    rw [readWith_number (.inl rfl), readNumber, hunsigned]
    cases convert n <;> rfl
  | false =>
    have hsign : ∀ rest', c :: (digits ++ rest) ≠ '-' :: rest' := by
      rintro rest' heq
      cases heq
      simp at hdigit
    change readWith convert inner (c :: (digits ++ rest)) = _
    rw [readWith_number (.inr hdigit), readNumber.eq_2 _ _ hsign, hunsigned]
    cases convert n <;> rfl

/-- A conversion reads what is written for a number as that number. -/
def ReadsBack (convert : Conversion) (x : Binary64) : Prop :=
  parseWith convert (Value.number x).text = .ok (.number x)

/-- A whole text is read as what is read off its front, when nothing is left of it. -/
theorem parseWith_text {v : Value} {r : Except ReadError Value}
    (h : readValue convert maxDepth (v.chars ++ []) = r.map fun w ↦ (w, [])) :
    parseWith convert v.text = r := by
  rw [List.append_nil] at h
  rw [parseWith, Value.text, String.toList_ofList, h]
  cases r <;> rfl

/-- A whole text is read as the value at its front. -/
theorem eq_of_complete {α : Type} {read : α × List Char} {a : α} (h : complete read = .ok a) :
    read.1 = a := by
  rw [complete] at h
  split at h
  · cases h
    rfl
  · cases h

/-- What is written for a magnitude is read as what its digits are converted to. -/
theorem NumeralText.parseWith_number {m : Magnitude}
    (h : NumeralText (Decimal.shortest .even m).jsonChars n) (negative : Bool) :
    parseWith convert (Value.number (.finite negative m)).text =
      (convert n).elim (.error .malformed) fun m ↦ .ok (.number (.finite negative m)) := by
  apply parseWith_text
  refine Eq.trans (h.readWith_append convert _ negative endsNumber_nil) ?_
  cases convert n <;> rfl

/-- A number that is read back is finite. -/
theorem ReadsBack.isFinite {x : Binary64} (h : ReadsBack convert x) : x.isFinite = true := by
  cases x with
  | finite => rfl
  | infinite | nan =>
    have hnull : parseWith convert Value.null.text = .ok .null := parseWith_text rfl
    cases h.symm.trans hnull

/-- A number that is read back is read back in front of anything that ends it. -/
theorem ReadsBack.readWith_append {x : Binary64} (h : ReadsBack convert x)
    (hrest : EndsNumber rest) :
    readWith convert inner (numberChars x ++ rest) = .ok (.number x, rest) := by
  cases x with
  | finite negative m =>
    obtain ⟨n, htext, -⟩ := exists_numeralText_shortest m
    have hread := htext.readWith_append convert inner negative hrest
    rw [ReadsBack, htext.parseWith_number negative] at h
    cases hconvert : convert n with
    | none =>
      rw [hconvert] at h
      cases h
    | some m' =>
      rw [hconvert] at h hread
      cases h
      exact hread
  | infinite | nan => exact absurd h.isFinite Bool.false_ne_true

/-- The conversion to the nearest magnitude reads every finite number back. -/
theorem readsBack_nearest {x : Binary64} (h : x.isFinite = true) :
    ReadsBack Numeral.nearest? x := by
  cases x with
  | finite negative m =>
    obtain ⟨n, htext, hnearest⟩ := exists_numeralText_shortest m
    rw [ReadsBack, htext.parseWith_number, hnearest, Option.elim_some]
  | infinite | nan => cases h

/-- A number that is read is finite. -/
theorem isFinite_of_readNumber {x : Binary64} (h : readNumber convert cs = .ok (x, rest)) :
    x.isFinite = true := by
  have hunsigned {negative : Bool} {cs : List Char}
      (h : readUnsigned convert negative cs = .ok (x, rest)) : x.isFinite = true := by
    rw [readUnsigned] at h
    split at h
    · cases h
    · split at h
      · cases h
        rfl
      · cases h
  unfold readNumber at h
  split at h <;> exact hunsigned h

end Number

/-! ## Values -/

namespace Value

/-- The text of a member of an object. -/
def memberChars : String × Value → List Char
  | (name, value) => stringChars name.toList ++ ':' :: value.chars

/-- The items after the first one, as a sequence. -/
theorem moreItems_eq (items : List Value) :
    moreItems items = items.flatMap fun item ↦ ',' :: item.chars := by
  induction items with
  | nil => rfl
  | cons item rest ih => rw [moreItems, ih, List.flatMap_cons, List.cons_append]

/-- The members after the first one, as a sequence. -/
theorem moreMembers_eq (members : List (String × Value)) :
    moreMembers members = members.flatMap fun member ↦ ',' :: memberChars member := by
  induction members with
  | nil => rfl
  | cons member rest ih =>
    obtain ⟨name, value⟩ := member
    rw [moreMembers, ih, List.flatMap_cons, memberChars]
    simp

/-- An array is its items between commas. -/
theorem chars_array (items : List Value) :
    (array items).chars = '[' :: (commaSeparated (items.map chars) ++ [']']) := by
  cases items with
  | nil => rfl
  | cons item rest => rw [chars, moreItems_eq, commaSeparated_map_cons, List.append_assoc]

/-- An object is its members between commas. -/
theorem chars_object (members : List (String × Value)) :
    (object members).chars = '\x7b' :: (commaSeparated (members.map memberChars) ++ ['\x7d']) := by
  cases members with
  | nil => rfl
  | cons member rest =>
    obtain ⟨name, value⟩ := member
    rw [chars, moreMembers_eq, commaSeparated_map_cons, memberChars]
    simp

mutual

/-- The value that the text of a value stands for: numbers that are not finite are written as
`null`. -/
def reread : Value → Value
  | number x => if x.isFinite then number x else null
  | array items => array (rereadItems items)
  | object members => object (rereadMembers members)
  | v => v

/-- The values that the texts of items stand for. -/
def rereadItems : List Value → List Value
  | [] => []
  | item :: rest => reread item :: rereadItems rest

/-- The members that the texts of members stand for. -/
def rereadMembers : List (String × Value) → List (String × Value)
  | [] => []
  | (name, value) :: rest => (name, reread value) :: rereadMembers rest

end

/-- The items of an array are reread one by one. -/
theorem rereadItems_eq_map (items : List Value) : rereadItems items = items.map reread := by
  induction items with
  | nil => rfl
  | cons item rest ih => rw [rereadItems, ih, List.map_cons]

/-- The members of an object are reread one by one and keep their names. -/
theorem rereadMembers_eq_map (members : List (String × Value)) :
    rereadMembers members = members.map fun (name, value) ↦ (name, reread value) := by
  induction members with
  | nil => rfl
  | cons member rest ih =>
    obtain ⟨name, value⟩ := member
    rw [rereadMembers, ih, List.map_cons]

/-- The text of a value begins with a character of its own. -/
theorem startsValue_chars (v : Value) : StartsValue v.chars := by
  cases v with
  | null => exact ⟨'n', _, rfl, by decide⟩
  | bool value =>
    cases value with
    | true => exact ⟨'t', _, rfl, by decide⟩
    | false => exact ⟨'f', _, rfl, by decide⟩
  | number x =>
    cases x with
    | finite negative m =>
      obtain ⟨c, rest, hchars, hc⟩ := exists_numberChars_eq_cons negative m
      refine ⟨c, rest, hchars, isBlank_eq_false hc, ?_, ?_⟩ <;> rintro rfl <;> simp at hc
    | infinite | nan => exact ⟨'n', _, rfl, by decide⟩
  | string text => exact ⟨'"', _, rfl, by decide⟩
  | array items => exact ⟨'[', _, chars_array items, by decide⟩
  | object members => exact ⟨'\x7b', _, chars_object members, by decide⟩

/-- The text of a member begins with a quote. -/
theorem startsValue_memberChars (member : String × Value) : StartsValue (memberChars member) :=
  ⟨'"', _, rfl, by decide⟩

end Value

/-- A value whose brackets are nested at most to the given depth and whose numbers are read back. -/
inductive Readable (convert : Conversion) : Nat → Value → Prop where
  | null (depth : Nat) : Readable convert depth .null
  | bool (depth : Nat) (value : Bool) : Readable convert depth (.bool value)
  | number (depth : Nat) {x : Binary64} (h : x.isFinite = true → ReadsBack convert x) :
    Readable convert depth (.number x)
  | string (depth : Nat) (text : String) : Readable convert depth (.string text)
  | array {depth : Nat} {items : List Value} (h : ∀ item ∈ items, Readable convert depth item) :
    Readable convert (depth + 1) (.array items)
  | object {depth : Nat} {members : List (String × Value)}
    (h : ∀ member ∈ members, Readable convert depth member.2) :
    Readable convert (depth + 1) (.object members)

section Read

variable {convert : Conversion}

/-- A value is read with some reader for what is inside its brackets. -/
theorem exists_readValue_eq (convert : Conversion) (depth : Nat) :
    ∃ inner, readValue convert depth = readWith convert inner := by
  cases depth <;> exact ⟨_, rfl⟩

/-- A number that is read as a value is finite. -/
theorem isFinite_of_readValue {depth : Nat} {cs rest : List Char} {x : Binary64}
    (h : readValue convert depth cs = .ok (.number x, rest)) : x.isFinite = true := by
  obtain ⟨inner, hread⟩ := exists_readValue_eq convert depth
  rw [hread, readWith] at h
  split at h
  case h_1 => cases h
  case h_2 | h_3 | h_4 | h_5 =>
    obtain ⟨_, -, heq⟩ := map_eq_ok_iff.mp h
    cases heq
  case h_6 | h_7 =>
    split at h
    · cases h
    · obtain ⟨_, -, heq⟩ := map_eq_ok_iff.mp h
      cases heq
  case h_8 =>
    split at h
    · obtain ⟨_, hnumber, heq⟩ := map_eq_ok_iff.mp h
      cases heq
      exact isFinite_of_readNumber hnumber
    · cases h

/-- A quote begins a string. -/
theorem readWith_quote (inner : Option (Reader Value)) (cs : List Char) :
    readWith convert inner ('"' :: cs) =
      (readString cs).map fun (text, rest) ↦ (.string text, rest) := rfl

/-- An opening bracket begins the items of an array. -/
theorem readWith_bracket (item : Reader Value) (cs : List Char) :
    readWith convert (some item) ('[' :: cs) =
      (readSequence ']' item cs).map fun (items, rest) ↦ (.array items, rest) := rfl

/-- An opening brace begins the members of an object. -/
theorem readWith_brace (value : Reader Value) (cs : List Char) :
    readWith convert (some value) ('\x7b' :: cs) =
      (readSequence '\x7d' (readMember value) cs).map fun (members, rest) ↦
        (.object members, rest) := rfl

/-- A quote, the characters of a name and a colon stand in front of the value of a member. -/
theorem readMember_quote {α : Type} {value : Reader α} {cs after rest : List Char} {name : String}
    {v : α} (hname : readString cs = .ok (name, ':' :: after))
    (hvalue : value after = .ok (v, rest)) :
    readMember value ('"' :: cs) = .ok ((name, v), rest) := by
  have hquote : skipQuote ('"' :: cs) = .ok cs := rfl
  have hcolon : skipColon (':' :: after) = .ok after := rfl
  simp only [readMember, hquote, hname, hcolon, hvalue, ok_bind]
  rfl

/-- A string is read back as a value. -/
theorem readWith_stringChars (inner : Option (Reader Value)) (text : String) (rest : List Char) :
    readWith convert inner (stringChars text.toList ++ rest) = .ok (.string text, rest) := by
  rw [stringChars, List.cons_append, List.append_assoc, List.singleton_append, readWith_quote,
    readString_flatMap_escape, String.ofList_toList]
  rfl

/-- A member of an object is read back when its value is. -/
theorem readMember_memberChars {value : Reader Value} {member : String × Value} {rest : List Char}
    (h : value (member.2.chars ++ rest) = .ok (member.2.reread, rest)) :
    readMember value (Value.memberChars member ++ rest) =
      .ok ((member.1, member.2.reread), rest) := by
  obtain ⟨name, v⟩ := member
  have hname := readString_flatMap_escape name.toList (':' :: (v.chars ++ rest))
  have hshape : Value.memberChars (name, v) ++ rest =
      '"' :: (name.toList.flatMap escape ++ '"' :: ':' :: (v.chars ++ rest)) := by
    simp [Value.memberChars, stringChars]
  rw [String.ofList_toList] at hname
  rw [hshape]
  exact readMember_quote hname h

/-- What is written for a value is read as the value that it stands for. -/
theorem Readable.readValue_append {depth : Nat} {v : Value} (h : Readable convert depth v)
    {rest : List Char} (hrest : FollowsValue rest) :
    readValue convert depth (v.chars ++ rest) = .ok (v.reread, rest) := by
  induction h generalizing rest with
  | null depth => cases depth <;> rfl
  | bool depth value => cases depth <;> cases value <;> rfl
  | @number depth x h =>
    obtain ⟨inner, hread⟩ := exists_readValue_eq convert depth
    rw [hread, Value.reread]
    split
    · next hfinite => exact (h hfinite).readWith_append hrest.endsNumber
    · next hfinite =>
      cases x with
      | finite => exact absurd rfl hfinite
      | infinite | nan => rfl
  | string depth text =>
    obtain ⟨inner, hread⟩ := exists_readValue_eq convert depth
    rw [hread]
    exact readWith_stringChars inner text rest
  | @array depth items _ ih =>
    have hitems := readSequence_commaSeparated (fun item ↦ pure item.reread) (.inl rfl)
      (fun item _ ↦ item.startsValue_chars) (fun item h _ hrest ↦ ih item h hrest) rest
    rw [Value.chars_array, List.cons_append, List.append_assoc, List.singleton_append, readValue,
      readWith_bracket, hitems, List.mapM_pure, Value.reread, Value.rereadItems_eq_map]
    rfl
  | @object depth members _ ih =>
    have hmembers := readSequence_commaSeparated
      (fun member : String × Value ↦ pure (member.1, member.2.reread)) (.inr rfl)
      (fun member _ ↦ Value.startsValue_memberChars member)
      (fun member h _ hrest ↦ readMember_memberChars (ih member h hrest)) rest
    rw [Value.chars_object, List.cons_append, List.append_assoc, List.singleton_append, readValue,
      readWith_brace, hmembers, List.mapM_pure, Value.reread, Value.rereadMembers_eq_map]
    rfl

/-- A whole text that is written for a value is read as the value that it stands for. -/
theorem Readable.parseWith_text {v : Value} (h : Readable convert maxDepth v) :
    parseWith convert v.text = .ok v.reread :=
  Json.parseWith_text (h.readValue_append followsValue_nil)

end Read

/-! ## Control characters -/

/-- A digit is no control character. -/
theorem le_toNat_of_isDigit {c : Char} (h : c.isDigit = true) : 32 ≤ c.toNat := by
  have hzero : '0'.toNat ≤ c.toNat := by
    simp only [Char.isDigit, Bool.and_eq_true, decide_eq_true_eq] at h
    exact h.1
  exact Nat.le_trans (by decide) hzero

/-- The text of an exponent has no control characters. -/
theorem ExponentText.le_toNat {cs : List Char} {exponent : Int} (h : ExponentText cs exponent) :
    ∀ c ∈ cs, 32 ≤ c.toNat := by
  cases h with
  | absent => exact fun c hc ↦ absurd hc List.not_mem_nil
  | signed negative _ isDigit =>
    intro c hc
    simp only [List.mem_cons] at hc
    rcases hc with rfl | rfl | hdigit
    · decide
    · cases negative <;> decide
    · exact le_toNat_of_isDigit (isDigit c hdigit)

/-- The text of a number has no control characters. -/
theorem NumeralText.le_toNat {cs : List Char} {n : Numeral} (h : NumeralText cs n) :
    ∀ c ∈ cs, 32 ≤ c.toNat := by
  cases h with
  | whole isWhole exponentText =>
    intro c hc
    rcases List.mem_append.mp hc with hwhole | hexponent
    · exact le_toNat_of_isDigit (isWhole.isDigit c hwhole)
    · exact exponentText.le_toNat c hexponent
  | pointed isWhole _ isDigit exponentText =>
    intro c hc
    simp only [List.mem_append, List.mem_cons] at hc
    rcases hc with hwhole | rfl | hfraction | hexponent
    · exact le_toNat_of_isDigit (isWhole.isDigit c hwhole)
    · decide
    · exact le_toNat_of_isDigit (isDigit c hfraction)
    · exact exponentText.le_toNat c hexponent

/-- What is written for a number has no control characters. -/
theorem le_toNat_of_mem_numberChars (x : Binary64) : ∀ c ∈ numberChars x, 32 ≤ c.toNat := by
  cases x with
  | finite negative m =>
    obtain ⟨n, htext, -⟩ := exists_numeralText_shortest m
    intro c hc
    rcases List.mem_append.mp hc with hsign | hdigits
    · cases negative with
      | true =>
        rw [List.mem_singleton.mp hsign]
        decide
      | false => cases hsign
    · exact htext.le_toNat c hdigits
  | infinite | nan =>
    change ∀ c ∈ nullChars, 32 ≤ c.toNat
    simp [nullChars]

/-- Texts without control characters have none between commas and brackets either. -/
theorem le_toNat_commaSeparated {texts : List (List Char)}
    (h : ∀ cs ∈ texts, ∀ c ∈ cs, 32 ≤ c.toNat) {left right : Char} (hleft : 32 ≤ left.toNat)
    (hright : 32 ≤ right.toNat) :
    ∀ c ∈ left :: (commaSeparated texts ++ [right]), 32 ≤ c.toNat := by
  intro c hc
  rw [List.mem_cons, List.mem_append, List.mem_singleton] at hc
  rcases hc with rfl | hc | rfl
  · exact hleft
  · cases texts with
    | nil => cases hc
    | cons first more =>
      simp only [commaSeparated, List.mem_append, List.mem_flatMap, List.mem_cons] at hc
      rcases hc with hfirst | ⟨cs, hcs, rfl | hmore⟩
      · exact h first List.mem_cons_self c hfirst
      · decide
      · exact h cs (List.mem_cons_of_mem _ hcs) c hmore
  · exact hright

namespace Value

mutual

/-- What is written for a value has no control characters. -/
theorem le_toNat_of_mem_chars : ∀ (v : Value), ∀ c ∈ v.chars, 32 ≤ c.toNat
  | null => by simp [chars, nullChars]
  | bool true => by simp [chars, trueChars]
  | bool false => by simp [chars, falseChars]
  | number x => le_toNat_of_mem_numberChars x
  | string text => fun _ hc ↦ le_toNat_of_mem_stringChars hc
  | array items => by
    rw [chars_array]
    exact le_toNat_commaSeparated (le_toNat_of_mem_items items) (by decide) (by decide)
  | object members => by
    rw [chars_object]
    exact le_toNat_commaSeparated (le_toNat_of_mem_members members) (by decide) (by decide)

/-- What is written for items has no control characters. -/
theorem le_toNat_of_mem_items :
    ∀ (items : List Value), ∀ cs ∈ items.map chars, ∀ c ∈ cs, 32 ≤ c.toNat
  | [] => fun cs hcs ↦ absurd hcs List.not_mem_nil
  | item :: rest => by
    intro cs hcs
    rcases List.mem_cons.mp hcs with rfl | hrest
    · exact le_toNat_of_mem_chars item
    · exact le_toNat_of_mem_items rest cs hrest

/-- What is written for members has no control characters. -/
theorem le_toNat_of_mem_members : ∀ (members : List (String × Value)),
    ∀ cs ∈ members.map memberChars, ∀ c ∈ cs, 32 ≤ c.toNat
  | [] => fun cs hcs ↦ absurd hcs List.not_mem_nil
  | (name, value) :: rest => by
    intro cs hcs
    rcases List.mem_cons.mp hcs with rfl | hrest
    · intro c hc
      simp only [memberChars, List.mem_append, List.mem_cons] at hc
      rcases hc with hname | rfl | hvalue
      · exact le_toNat_of_mem_stringChars hname
      · decide
      · exact le_toNat_of_mem_chars value c hvalue
    · exact le_toNat_of_mem_members rest cs hrest

end

end Value

end PocketCalc.Json
