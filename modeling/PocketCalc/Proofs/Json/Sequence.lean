import PocketCalc.Json.Reader

/-!
# Sequences in JSON

Items between commas are read one after the other, and the first one that is refused decides
(`readSequence_commaSeparated`). Whatever text a sequence is read from, each of its items was read
by the reader for items (`exists_item_of_mem_readSequence`).
-/

namespace PocketCalc.Json

/-- After a success what follows goes on with its value. -/
theorem ok_bind {ε α β : Type} (a : α) (f : α → Except ε β) : (Except.ok a >>= f) = f a := rfl

/-- A result that is mapped is there when it was there before. -/
theorem map_eq_ok_iff {ε α β : Type} {r : Except ε α} {f : α → β} {b : β} :
    r.map f = .ok b ↔ ∃ a, r = .ok a ∧ f a = b := by
  cases r <;> simp [Except.map]

/-- Texts one after the other with commas between them. -/
def commaSeparated : List (List Char) → List Char
  | [] => []
  | first :: more => first ++ more.flatMap (',' :: ·)

/-- What follows a value is nothing, a comma or a closing bracket. -/
def FollowsValue (rest : List Char) : Prop := ∀ c ∈ rest.head?, c = ',' ∨ c = ']' ∨ c = '\x7d'

/-- A text begins with a character that is neither white space nor a closing bracket. -/
def StartsValue (cs : List Char) : Prop :=
  ∃ c rest, cs = c :: rest ∧ isBlank c = false ∧ c ≠ ']' ∧ c ≠ '\x7d'

/-- A value may stand at the end of a text. -/
theorem followsValue_nil : FollowsValue [] := fun _ hc ↦ absurd hc (Option.not_mem_none _)

/-- Nothing is skipped in front of a character that is no white space. -/
theorem skipBlanks_cons {c : Char} (h : isBlank c = false) (rest : List Char) :
    skipBlanks (c :: rest) = c :: rest :=
  List.dropWhile_cons_of_neg (by simp [h])

/-- Nothing is skipped in front of a closing bracket. -/
theorem skipBlanks_closing {close : Char} (h : close = ']' ∨ close = '\x7d') (rest : List Char) :
    skipBlanks (close :: rest) = close :: rest :=
  skipBlanks_cons (by rcases h with rfl | rfl <;> rfl) rest

section Sequence

variable {α β : Type} {close : Char} {item : Reader α} {text : β → List Char}
  {result : β → Except ReadError α}

/-- The first text stands without a comma in front. -/
theorem commaSeparated_map_cons (text : β → List Char) (b : β) (bs : List β) :
    commaSeparated ((b :: bs).map text) = text b ++ bs.flatMap fun b ↦ ',' :: text b := by
  rw [List.map_cons, commaSeparated, List.flatMap_map]

/-- A comma or the closing bracket follows a value in a sequence. -/
theorem followsValue_flatMap (hclose : close = ']' ∨ close = '\x7d') (text : β → List Char)
    (bs : List β) (rest : List Char) :
    FollowsValue (bs.flatMap (fun b ↦ ',' :: text b) ++ close :: rest) := by
  intro c hc
  cases bs with
  | nil =>
    cases hc
    exact .inr hclose
  | cons b bs =>
    cases hc
    exact .inl rfl

/-- The items after the first one are read in order when the bound leaves room for them; the first
one that is refused decides. -/
theorem readMore_flatMap (hclose : close = ']' ∨ close = '\x7d') {bs : List β}
    (hitem : ∀ b ∈ bs, ∀ rest, FollowsValue rest →
      item (text b ++ rest) = (result b).map fun a ↦ (a, rest))
    (rest : List Char) {bound : Nat} (hbound : bs.length < bound) :
    readMore close item bound (bs.flatMap (fun b ↦ ',' :: text b) ++ close :: rest) =
      (bs.mapM result).map fun as ↦ (as, rest) := by
  induction bs generalizing bound with
  | nil =>
    obtain ⟨n, rfl⟩ := Nat.exists_eq_succ_of_ne_zero (Nat.ne_of_gt hbound)
    rw [List.flatMap_nil, List.nil_append, readMore, skipBlanks_closing hclose]
    exact if_pos rfl
  | cons b bs ih =>
    obtain ⟨n, rfl⟩ := Nat.exists_eq_succ_of_ne_zero (Nat.ne_of_gt (Nat.zero_lt_of_lt hbound))
    have hcomma : (',' : Char) ≠ close := by rcases hclose with rfl | rfl <;> decide
    have hfirst := hitem b List.mem_cons_self _ (followsValue_flatMap hclose text bs rest)
    have hmore := ih (fun b hb ↦ hitem b (List.mem_cons_of_mem _ hb))
      (Nat.lt_of_succ_lt_succ hbound)
    rw [List.flatMap_cons, List.append_assoc, List.cons_append, readMore,
      skipBlanks_cons (c := ',') rfl, List.mapM_cons]
    simp only [if_neg hcomma, if_true, hfirst]
    cases result b with
    | error e => rfl
    | ok a =>
      simp only [Except.map, hmore]
      cases bs.mapM result <;> rfl

/-- Every item takes a comma, so there is room for the items in what is left of the text. -/
theorem length_lt_length_flatMap (text : β → List Char) (bs : List β) (close : Char)
    (rest : List Char) :
    bs.length < (bs.flatMap (fun b ↦ ',' :: text b) ++ close :: rest).length := by
  induction bs with
  | nil => simp
  | cons b bs ih =>
    simp only [List.flatMap_cons, List.append_assoc, List.length_append, List.length_cons] at ih ⊢
    omega

/-- Items between commas are read in order up to the closing bracket; the first one that is refused
decides. -/
theorem readSequence_commaSeparated (result : β → Except ReadError α)
    (hclose : close = ']' ∨ close = '\x7d') {bs : List β}
    (hstart : ∀ b ∈ bs, StartsValue (text b))
    (hitem : ∀ b ∈ bs, ∀ rest, FollowsValue rest →
      item (text b ++ rest) = (result b).map fun a ↦ (a, rest)) (rest : List Char) :
    readSequence close item (commaSeparated (bs.map text) ++ close :: rest) =
      (bs.mapM result).map fun as ↦ (as, rest) := by
  cases bs with
  | nil =>
    rw [List.map_nil, commaSeparated, List.nil_append, readSequence, skipBlanks_closing hclose]
    exact if_pos rfl
  | cons b bs =>
    obtain ⟨c, chars, htext, hblank, hbracket, hbrace⟩ := hstart b List.mem_cons_self
    have hopen : c ≠ close := by rcases hclose with rfl | rfl <;> assumption
    have hfirst := hitem b List.mem_cons_self _ (followsValue_flatMap hclose text bs rest)
    have hmore := readMore_flatMap hclose (fun b hb ↦ hitem b (List.mem_cons_of_mem _ hb)) rest
      (length_lt_length_flatMap text bs close rest)
    rw [htext, List.cons_append] at hfirst
    rw [commaSeparated_map_cons, List.append_assoc, htext, List.cons_append, readSequence,
      skipBlanks_cons hblank, List.mapM_cons]
    simp only [if_neg hopen, hfirst]
    cases result b with
    | error e => rfl
    | ok a =>
      simp only [Except.map, hmore]
      cases bs.mapM result <;> rfl

/-- An item and more items were read one after the other. -/
theorem exists_of_item_cons (more : Reader (List α)) {cs rest : List Char} {as : List α}
    (h : (match item cs with
      | .error e => .error e
      | .ok (first, rest) => (more rest).map fun (items, rest) ↦ (first :: items, rest)) =
        Except.ok (as, rest)) :
    ∃ first after items, item cs = .ok (first, after) ∧ more after = .ok (items, rest) ∧
      as = first :: items := by
  split at h
  · cases h
  · next first after hitem =>
    obtain ⟨⟨items, after'⟩, hmore, heq⟩ := map_eq_ok_iff.mp h
    cases heq
    exact ⟨first, after, items, hitem, hmore, rfl⟩

/-- Every item after the first one was read by the reader for items. -/
theorem exists_item_of_mem_readMore {bound : Nat} {cs rest : List Char} {as : List α}
    (h : readMore close item bound cs = .ok (as, rest)) {a : α} (ha : a ∈ as) :
    ∃ before after, item before = .ok (a, after) := by
  induction bound generalizing cs as rest with
  | zero => cases h
  | succ bound ih =>
    rw [readMore] at h
    split at h
    · cases h
    · next c tail _ =>
      split at h
      · cases h
        cases ha
      · split at h
        · obtain ⟨first, after, items, hitem, hmore, rfl⟩ :=
            exists_of_item_cons (readMore close item bound) h
          rcases List.mem_cons.mp ha with rfl | ha
          · exact ⟨tail, after, hitem⟩
          · exact ih hmore ha
        · cases h

/-- Every item of a sequence was read by the reader for items. -/
theorem exists_item_of_mem_readSequence {cs rest : List Char} {as : List α}
    (h : readSequence close item cs = .ok (as, rest)) {a : α} (ha : a ∈ as) :
    ∃ before after, item before = .ok (a, after) := by
  rw [readSequence] at h
  split at h
  · cases h
  · next c tail _ =>
    split at h
    · cases h
      cases ha
    · obtain ⟨first, after, items, hitem, hmore, rfl⟩ :=
        exists_of_item_cons (fun rest ↦ readMore close item rest.length rest) h
      rcases List.mem_cons.mp ha with rfl | ha
      · exact ⟨c :: tail, after, hitem⟩
      · exact exists_item_of_mem_readMore hmore ha

end Sequence

end PocketCalc.Json
