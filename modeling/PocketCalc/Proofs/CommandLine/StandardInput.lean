import PocketCalc.CommandLine.Run
import PocketCalc.Proofs.CommandLine.Lines

/-!
# Expressions listed in an input

`Lists` says which texts list expressions line by line: each line is ended in one of two ways, the
last one perhaps not at all, and blank lines stand anywhere. Such a text is read back as the
expressions (`Lists.expressionLines_eq`), so a run over it is the run over the expressions, while
nothing of an input that is not valid UTF-8 is evaluated (`execute_input`).
-/

namespace PocketCalc.CommandLine

/-- The ends of lines. -/
inductive LineEnd where
  | feed
  | returnFeed
deriving DecidableEq, Repr

/-- The characters that end a line. -/
def LineEnd.chars : LineEnd → List Char
  | feed => ['\n']
  | returnFeed => ['\r', '\n']

/-- The code points of white space. -/
def IsWhiteSpace (c : Char) : Prop :=
  (0x09 ≤ c.toNat ∧ c.toNat ≤ 0x0d) ∨ c.toNat = 0x20 ∨ c.toNat = 0x85 ∨ c.toNat = 0xa0 ∨
    c.toNat = 0x1680 ∨ (0x2000 ≤ c.toNat ∧ c.toNat ≤ 0x200a) ∨ c.toNat = 0x2028 ∨
    c.toNat = 0x2029 ∨ c.toNat = 0x202f ∨ c.toNat = 0x205f ∨ c.toNat = 0x3000

instance (c : Char) : Decidable (IsWhiteSpace c) := inferInstanceAs (Decidable (_ ∨ _))

/-- A line of its own that is an expression: it holds no line feed, no carriage return that would
belong to its end, and not only white space. -/
structure IsExpressionLine (line : List Char) : Prop where
  feed : '\n' ∉ line
  lastReturn : line.getLast? ≠ some '\r'
  notBlank : ∃ c ∈ line, ¬ IsWhiteSpace c

/-- A line of white space only, or nothing at all. -/
structure IsBlank (line : List Char) : Prop where
  feed : '\n' ∉ line
  blank : ∀ c ∈ line, IsWhiteSpace c

/-- The texts that list expressions in order. After its last line a text may end without a line
end. -/
inductive Lists : List String → List Char → Prop where
  | lastBlank {line : List Char} (blank : IsBlank line) : Lists [] line
  | lastExpression (expression : String) : Lists [expression] expression.toList
  | blank {line : List Char} (blank : IsBlank line) (lineEnd : LineEnd) {expressions : List String}
    {text : List Char} (rest : Lists expressions text) :
    Lists expressions (line ++ (lineEnd.chars ++ text))
  | expression (expression : String) (lineEnd : LineEnd) {expressions : List String}
    {text : List Char} (rest : Lists expressions text) :
    Lists (expression :: expressions) (expression.toList ++ (lineEnd.chars ++ text))

/-- The characters of white space are listed. -/
theorem mem_whiteSpace_iff {c : Char} : c ∈ whiteSpace ↔ IsWhiteSpace c := by
  have hcodes : c ∈ whiteSpace ↔ c.toNat ∈ whiteSpace.map Char.toNat := by
    refine ⟨List.mem_map_of_mem, fun h ↦ ?_⟩
    obtain ⟨d, hd, hcode⟩ := List.mem_map.mp h
    rwa [← Char.toNat_inj.mp hcode]
  have hlist : whiteSpace.map Char.toNat = [0x09, 0x0a, 0x0b, 0x0c, 0x0d, 0x20, 0x85, 0xa0, 0x1680,
      0x2000, 0x2001, 0x2002, 0x2003, 0x2004, 0x2005, 0x2006, 0x2007, 0x2008, 0x2009, 0x200a,
      0x2028, 0x2029, 0x202f, 0x205f, 0x3000] := rfl
  simp only [hcodes, hlist, List.mem_cons, List.not_mem_nil, or_false, IsWhiteSpace]
  omega

/-- A line is blank when all its characters are white space. -/
theorem isBlankLine_iff {line : List Char} :
    isBlankLine line = true ↔ ∀ c ∈ line, IsWhiteSpace c := by
  simp only [isBlankLine, List.all_eq_true, List.contains_iff_mem, mem_whiteSpace_iff]

/-- A line with a character other than white space is not blank. -/
theorem IsExpressionLine.isBlankLine_eq_false {line : List Char} (h : IsExpressionLine line) :
    isBlankLine line = false := by
  obtain ⟨c, hc, hvisible⟩ := h.notBlank
  exact Bool.eq_false_iff.mpr fun hblank ↦ hvisible (isBlankLine_iff.mp hblank c hc)

/-- A line with its end is the first line of a text. Only before a line feed alone must it not end
in a carriage return. -/
theorem splitLines_append_lineEnd {line : List Char} {lineEnd : LineEnd} (hfeed : '\n' ∉ line)
    (hreturn : lineEnd = .feed → line.getLast? ≠ some '\r') (text : List Char) :
    splitLines (line ++ (lineEnd.chars ++ text)) = line :: splitLines text := by
  have hinner : line.getLast? = some '\r' → (lineEnd.chars ++ text).head? ≠ some '\n' := by
    intro hlast
    cases lineEnd with
    | feed => exact absurd hlast (hreturn rfl)
    | returnFeed => simp [LineEnd.chars]
  have hempty : splitLines (lineEnd.chars ++ text) = [] :: splitLines text := by
    cases lineEnd <;> rfl
  rw [splitLines_append_of_notMem hfeed hinner, hempty, foldr_consLine_cons, List.append_nil]

/-- A line without an end is the only line of its text. -/
theorem splitLines_eq_singleton {line : List Char} (hfeed : '\n' ∉ line) (hne : line ≠ []) :
    splitLines line = [line] := by
  have hlines : splitLines (line ++ []) = line.foldr consLine (splitLines []) :=
    splitLines_append_of_notMem hfeed fun _ ↦ by simp
  obtain ⟨before, last, rfl⟩ := List.eq_nil_or_concat line |>.resolve_left hne
  have hnone : splitLines [] = [] := rfl
  rw [List.append_nil, hnone, List.concat_eq_append, List.foldr_append, List.foldr_cons,
    List.foldr_nil, consLine, foldr_consLine_cons] at hlines
  rw [List.concat_eq_append, hlines]

/-- A text that begins with a blank line begins with a line that is blank, although a carriage
return in front of a line feed belongs to the line end. -/
theorem exists_splitLines_eq_of_isBlank {line : List Char} (h : IsBlank line) (lineEnd : LineEnd)
    (text : List Char) : ∃ first, isBlankLine first = true ∧
      splitLines (line ++ (lineEnd.chars ++ text)) = first :: splitLines text := by
  by_cases hreturn : lineEnd = .feed ∧ line.getLast? = some '\r'
  · obtain ⟨rfl, hlast⟩ := hreturn
    obtain ⟨before, rfl⟩ := List.getLast?_eq_some_iff.mp hlast
    have hfeed : '\n' ∉ before := fun hmem ↦ h.feed (List.mem_append_left _ hmem)
    have hblank : isBlankLine before = true :=
      isBlankLine_iff.mpr fun c hc ↦ h.blank c (List.mem_append_left _ hc)
    refine ⟨before, hblank, ?_⟩
    have hends : LineEnd.returnFeed = .feed → before.getLast? ≠ some '\r' := by simp
    rw [List.append_assoc]
    exact splitLines_append_lineEnd hfeed hends text
  · refine ⟨line, isBlankLine_iff.mpr h.blank, splitLines_append_lineEnd h.feed ?_ text⟩
    exact fun hend hlast ↦ hreturn ⟨hend, hlast⟩

/-- A text that lists expressions is read back as these. -/
theorem Lists.expressionLines_eq {expressions : List String} {text : List Char}
    (h : Lists expressions text) (hlines : ∀ e ∈ expressions, IsExpressionLine e.toList) :
    expressionLines (String.ofList text) = expressions := by
  rw [expressionLines, String.toList_ofList]
  induction h with
  | @lastBlank line hblank =>
    by_cases hne : line = []
    · rw [hne]
      rfl
    · have hskipped := isBlankLine_iff.mpr hblank.blank
      rw [splitLines_eq_singleton hblank.feed hne, List.filter_cons_of_neg (by simp [hskipped])]
      rfl
  | lastExpression e =>
    have hline := hlines e List.mem_cons_self
    have hkept := hline.isBlankLine_eq_false
    have hne : e.toList ≠ [] := fun hnil ↦ by
      obtain ⟨c, hc, -⟩ := hline.notBlank
      rw [hnil] at hc
      cases hc
    rw [splitLines_eq_singleton hline.feed hne,
      List.filter_cons_of_pos (by simp [hkept]), List.filter_nil, List.map_singleton,
      String.ofList_toList]
  | blank hblank lineEnd rest ih =>
    obtain ⟨first, hfirst, hsplit⟩ := exists_splitLines_eq_of_isBlank hblank lineEnd _
    rw [hsplit, List.filter_cons_of_neg (by simp [hfirst])]
    exact ih hlines
  | expression e lineEnd rest ih =>
    have hline := hlines e List.mem_cons_self
    have hkept := hline.isBlankLine_eq_false
    rw [splitLines_append_lineEnd hline.feed (fun _ ↦ hline.lastReturn),
      List.filter_cons_of_pos (by simp [hkept]), List.map_cons, String.ofList_toList,
      ih fun e' he' ↦ hlines e' (List.mem_cons_of_mem _ he')]

/-- What is encoded is decoded. -/
theorem fromUTF8?_utf8Encode (text : List Char) :
    String.fromUTF8? text.utf8Encode = some (String.ofList text) := by
  have hvalid : text.utf8Encode.IsValidUTF8 := ⟨text, rfl⟩
  rw [String.fromUTF8?, dif_pos hvalid]
  refine congrArg some (String.toByteArray_inj.mp ?_)
  rw [String.toByteArray_ofList]
  rfl

/-- Whatever stands in front of them, bytes that are not valid UTF-8 make an input invalid. -/
theorem not_isValidUTF8_append {bytes : ByteArray} (h : ¬ bytes.IsValidUTF8) (before : List Char) :
    ¬ (before.utf8Encode ++ bytes).IsValidUTF8 := by
  induction before with
  | nil => simpa using h
  | cons c rest ih =>
    rw [List.utf8Encode_cons, ByteArray.append_assoc,
      ByteArray.isValidUTF8_utf8Encode_singleton_append_iff]
    exact ih

/-- The expressions listed in an input are those that are read from it. -/
theorem Lists.expressionsOfInput?_eq {expressions : List String} {text : List Char}
    (h : Lists expressions text) (hlines : ∀ e ∈ expressions, IsExpressionLine e.toList) :
    expressionsOfInput? text.utf8Encode = some expressions := by
  rw [expressionsOfInput?, fromUTF8?_utf8Encode, Option.map_some, h.expressionLines_eq hlines]

/-- No expressions are read from an input that is not valid UTF-8. -/
theorem expressionsOfInput?_eq_none {input : ByteArray} (h : ¬ input.IsValidUTF8) :
    expressionsOfInput? input = none := by
  rw [expressionsOfInput?, String.fromUTF8?, dif_neg h, Option.map_none]

/-- Without expressions among the arguments, a run over an input that lists expressions is the run
over these, whatever the flags are; nothing is written when there are none. If the input is not
valid UTF-8, be it only behind a text that is, nothing is evaluated and the run fails. -/
theorem execute_input (o : Options) (h : o.expressions = []) :
    (∀ expressions text, (∀ e ∈ expressions, IsExpressionLine e.toList) →
      Lists expressions text →
      (Command.evaluate o).execute text.utf8Encode = evaluateAll o expressions) ∧
    evaluateAll o [] = ⟨0, "", ""⟩ ∧
    (∀ input, ¬ input.IsValidUTF8 → (Command.evaluate o).execute input = unreadableInput) ∧
    (∀ (before : List Char) bytes, ¬ bytes.IsValidUTF8 →
      (Command.evaluate o).execute (before.utf8Encode ++ bytes) = unreadableInput) ∧
    unreadableInput.output = "" ∧ unreadableInput.exitCode = 1 := by
  have hinput (input : ByteArray) : (Command.evaluate o).execute input =
      (expressionsOfInput? input).elim unreadableInput (evaluateAll o) := by
    rw [Command.execute, h, List.isEmpty_nil, if_pos rfl]
    cases expressionsOfInput? input <;> rfl
  have hinvalid (input : ByteArray) (hbytes : ¬ input.IsValidUTF8) :
      (Command.evaluate o).execute input = unreadableInput := by
    rw [hinput, expressionsOfInput?_eq_none hbytes, Option.elim_none]
  refine ⟨fun expressions text hlines hlists ↦ ?_, rfl, hinvalid, fun before bytes hbytes ↦ ?_, rfl,
    rfl⟩
  · rw [hinput, hlists.expressionsOfInput?_eq hlines, Option.elim_some]
  · exact hinvalid _ (not_isValidUTF8_append hbytes before)

/-- A blank line, an expression with the longer line end, a line of one carriage return, and a last
expression without a line end; and a byte that is not valid after a line that is. -/
theorem execute_input_lines :
    let o : Options := { raw := true }
    let expressions := ["1+1", "(3+4"]
    let text := [' ', '\n', '1', '+', '1', '\r', '\n', '\r', '\n', '(', '3', '+', '4']
    let bytes : ByteArray := ⟨#[0xff]⟩
    (o.expressions = [] ∧ (∀ e ∈ expressions, IsExpressionLine e.toList) ∧ Lists expressions text ∧
      (Command.evaluate o).execute text.utf8Encode = evaluateAll o expressions) ∧
    (¬ bytes.IsValidUTF8 ∧
      (Command.evaluate o).execute (['1', '+', '1', '\n'].utf8Encode ++ bytes) =
        unreadableInput) := by
  intro o expressions text bytes
  have hlines : ∀ e ∈ expressions, IsExpressionLine e.toList := by
    intro e he
    simp only [expressions, List.mem_cons, List.not_mem_nil, or_false] at he
    rcases he with rfl | rfl
    · exact ⟨by decide, by decide, '1', by decide, by decide⟩
    · exact ⟨by decide, by decide, '3', by decide, by decide⟩
  have hspace : IsBlank [' '] := ⟨by decide, List.forall_mem_singleton.mpr (by decide)⟩
  have hnothing : IsBlank [] := ⟨by decide, List.forall_mem_nil _⟩
  have hlists : Lists expressions text :=
    .blank hspace .feed (.expression "1+1" .returnFeed
      (.blank hnothing .returnFeed (.lastExpression "(3+4")))
  have hbytes : ¬ bytes.IsValidUTF8 := by decide
  obtain ⟨hread, -, -, hunreadable, -⟩ := execute_input o rfl
  exact ⟨⟨rfl, hlines, hlists, hread expressions text hlines hlists⟩,
    hbytes, hunreadable _ bytes hbytes⟩

end PocketCalc.CommandLine
