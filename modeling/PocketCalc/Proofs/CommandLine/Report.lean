import PocketCalc.CommandLine.Report
import PocketCalc.Proofs.Decimal.PlainNumeral
import PocketCalc.Proofs.Evaluation.Settings
import PocketCalc.Proofs.Token.Json

/-!
# What reports tell

The report of an expression is shown as one line of JSON or as lines of text. What is read from the
line of JSON is an object that describes the expression (`Describes`): its tokens, their postfix
order, and either its value or what is wrong. The lines of text show the same (`shownLines`). Both
are as the library has them under any mode with the settings that the options ask for
(`Options.Selects`).
-/

namespace PocketCalc

namespace Json.Value

/-- The value of the member of an object with the given name, if there is one. -/
def member? (name : String) : Value → Option Value
  | object members => members.lookup name
  | _ => none

/-- Members are looked up by names, and these stay. -/
theorem lookup_rereadMembers (name : String) (members : List (String × Value)) :
    (rereadMembers members).lookup name = (members.lookup name).map reread := by
  induction members with
  | nil => rfl
  | cons member rest ih =>
    obtain ⟨other, value⟩ := member
    rw [rereadMembers, List.lookup_cons, List.lookup_cons, ih]
    cases name == other <;> rfl

/-- A member of a value that is read back is the member read back. -/
theorem member?_reread (name : String) (v : Value) :
    v.reread.member? name = (v.member? name).map reread := by
  cases v with
  | number x =>
    rw [reread]
    split <;> rfl
  | object members => exact lookup_rereadMembers name members
  | null | bool | string | array => rfl

end Json.Value

namespace CommandLine

open Json (Conversion Readable ReadsBack Value)

/-- A mode has the settings that the options ask for; percent signs are contextual unless something
else is asked for. -/
structure Options.Selects (o : Options) (mode : Mode) : Prop where
  policy : mode.policy = o.percent.getD .contextual
  raw : mode.raw = o.raw

/-- The mode of the options has their settings. -/
theorem Options.selects_mode (o : Options) : o.Selects o.mode :=
  ⟨Mode.policy_ofSettings _ _, Mode.raw_ofSettings _ _⟩

/-- Every mode with the settings of the options has the outcomes of their own mode. -/
theorem Options.Selects.evaluateExpression_eq {o : Options} {mode : Mode} (h : o.Selects mode)
    (text : String) : evaluateExpression o.mode text = evaluateExpression mode text := by
  have hpolicy : o.mode.policy = mode.policy := o.selects_mode.policy.trans h.policy.symm
  have hraw : o.mode.raw = mode.raw := o.selects_mode.raw.trans h.raw.symm
  exact evaluateTokens_eq_of_settings hpolicy hraw (tokenize text)

/-- What a member of an object tells of tokens: their JSON forms in order, or nothing at all when
there are no tokens to be told. -/
def TellsTokens (member : Option Value) : Option (List Token) → Prop
  | none => member = none
  | some tokens => ∃ items, member = some (.array items) ∧ List.Forall₂ Token.JsonForm tokens items

/-- What a JSON value tells of an expression with the given outcome. Its members have different
names. Tokens are told when they are shown, and either the plain text of the value is, which is a
numeral of this very value, or what is wrong. -/
structure Describes (o : Options) (text : String) (outcome : Except EvaluationError Binary64)
    (v : Value) : Prop where
  isObject : ∃ members, v = .object members ∧ (members.map Prod.fst).Nodup
  expression : v.member? "expression" = some (.string text)
  tokens : TellsTokens (v.member? "tokens") (if o.showTokens then some (tokenize text) else none)
  reordered : TellsTokens (v.member? "postfix")
    (if o.showPostfix then (toPostfix (tokenize text)).toOption else none)
  value : ∀ x, outcome = .ok x → v.member? "value" = some (.string x.plain) ∧
    Binary64.ofNumeral? x.plain.toList = some x ∧ v.member? "error" = none
  error : ∀ e, outcome = .error e →
    v.member? "value" = none ∧ v.member? "error" = some (.string e.message)

/-- The lines of text for an expression with the given outcome: its tokens and their postfix order
when they are shown and there are such, and its value when it has one. -/
def shownLines (o : Options) (text : String) (outcome : Except EvaluationError Binary64) : String :=
  (if o.showTokens then "tokens:  " ++ Token.render (tokenize text) ++ "\n" else "") ++
    (match toPostfix (tokenize text) with
      | .ok reordered =>
        if o.showPostfix then "postfix: " ++ Token.render reordered ++ "\n" else ""
      | .error _ => "") ++
    match outcome with
    | .ok x => x.plain ++ "\n"
    | .error _ => ""

/-- The line of text for what is wrong with an expression. -/
def errorLine (text : String) (e : EvaluationError) : String :=
  "error: " ++ text ++ ": " ++ e.message ++ "\n"

/-- Tokens in JSON are told by what is read of them. -/
theorem tellsTokens_reread_listToJson (shown : Option (List Token)) :
    TellsTokens ((shown.map Token.listToJson).map Value.reread) shown := by
  cases shown with
  | none => rfl
  | some tokens =>
    obtain ⟨items, hread, hitems⟩ := Token.exists_reread_listToJson tokens
    exact ⟨items, congrArg some hread, hitems⟩

namespace Report

section Members

variable (o : Options) (r : Report)

/-- A member with tokens is found by its name when they are shown. -/
theorem lookup_tokenMembers_append (name : String) (shown : Option (List Token))
    (rest : List (String × Value)) :
    (tokenMembers name shown ++ rest).lookup name =
      (shown.map Token.listToJson).or (rest.lookup name) := by
  cases shown with
  | none => rfl
  | some tokens => exact List.lookup_cons_self

/-- A member with tokens does not hide those of other names. -/
theorem lookup_tokenMembers_append_of_ne {name other : String} (h : other ≠ name)
    (shown : Option (List Token)) (rest : List (String × Value)) :
    (tokenMembers name shown ++ rest).lookup other = rest.lookup other := by
  cases shown with
  | none => rfl
  | some tokens =>
    have hne : (other == name) = false := by simpa using h
    simp [tokenMembers, List.lookup_cons, hne]

/-- The outcome has no other name than its two. -/
theorem lookup_resultMember_of_ne {name : String} (hvalue : name ≠ "value")
    (herror : name ≠ "error") : [r.resultMember].lookup name = none := by
  rw [resultMember]
  cases r.result with
  | ok v =>
    have hne : (name == "value") = false := by simpa using hvalue
    simp [List.lookup_cons, hne]
  | error e =>
    have hne : (name == "error") = false := by simpa using herror
    simp [List.lookup_cons, hne]

/-- The members of a report, looked up by a name other than that of the expression. -/
theorem member?_toJson {name : String} (h : name ≠ "expression") :
    (r.toJson o).member? name =
      (tokenMembers "tokens" (r.shownTokens? o) ++
        (tokenMembers "postfix" (r.shownPostfix? o) ++ [r.resultMember])).lookup name := by
  have hne : (name == "expression") = false := by simpa using h
  simp [toJson, Value.member?, List.lookup_cons, hne]

/-- The tokens are a member when they are shown. -/
theorem member?_tokens :
    (r.toJson o).member? "tokens" = (r.shownTokens? o).map Token.listToJson := by
  rw [member?_toJson o r (by decide), lookup_tokenMembers_append,
    lookup_tokenMembers_append_of_ne (by decide),
    lookup_resultMember_of_ne r (by decide) (by decide), Option.or_none]

/-- The tokens in postfix order are a member when they are shown. -/
theorem member?_reordered :
    (r.toJson o).member? "postfix" = (r.shownPostfix? o).map Token.listToJson := by
  rw [member?_toJson o r (by decide), lookup_tokenMembers_append_of_ne (by decide),
    lookup_tokenMembers_append, lookup_resultMember_of_ne r (by decide) (by decide),
    Option.or_none]

/-- The member with the outcome stands after all others. -/
theorem member?_resultMember {name : String} (hexpression : name ≠ "expression")
    (htokens : name ≠ "tokens") (hreordered : name ≠ "postfix") :
    (r.toJson o).member? name = [r.resultMember].lookup name := by
  rw [member?_toJson o r hexpression, lookup_tokenMembers_append_of_ne htokens,
    lookup_tokenMembers_append_of_ne hreordered]

/-- The plain text is the only member of the outcome when there is a value. -/
theorem member?_of_result_eq_ok {x : Binary64} (h : r.result = .ok x) :
    (r.toJson o).member? "value" = some (.string x.plain) ∧
      (r.toJson o).member? "error" = none := by
  constructor <;> rw [member?_resultMember o r (by decide) (by decide) (by decide), resultMember, h]
  · rfl
  · rfl

/-- What is wrong is the only member of the outcome when there is no value. -/
theorem member?_of_result_eq_error {e : EvaluationError} (h : r.result = .error e) :
    (r.toJson o).member? "value" = none ∧
      (r.toJson o).member? "error" = some (.string e.message) := by
  constructor <;> rw [member?_resultMember o r (by decide) (by decide) (by decide), resultMember, h]
  · rfl
  · rfl

/-- The members of a report have different names. -/
theorem nodup_names :
    (("expression" :: (tokenMembers "tokens" (r.shownTokens? o) ++
      (tokenMembers "postfix" (r.shownPostfix? o) ++ [r.resultMember])).map Prod.fst)).Nodup := by
  have htokens (name : String) (shown : Option (List Token)) :
      (tokenMembers name shown).map Prod.fst = if shown.isSome then [name] else [] := by
    cases shown <;> rfl
  have hresult : r.resultMember.1 = if r.isFailure then "error" else "value" := by
    rw [resultMember, isFailure]
    cases r.result <;> rfl
  rw [List.map_append, List.map_append, htokens, htokens, List.map_singleton, hresult]
  cases (r.shownTokens? o).isSome <;> cases (r.shownPostfix? o).isSome <;> cases r.isFailure <;>
    decide

end Members

/-- What is read back of a report describes its expression. -/
theorem describes_reread_toJson (o : Options) (mode : Mode) (text : String) :
    Describes o text (evaluateExpression mode text) ((ofExpression mode text).toJson o).reread := by
  have htokens : (ofExpression mode text).shownTokens? o =
      if o.showTokens then some (tokenize text) else none := rfl
  have hreordered : (ofExpression mode text).shownPostfix? o =
      if o.showPostfix then (toPostfix (tokenize text)).toOption else none := rfl
  constructor
  case isObject =>
    refine ⟨_, rfl, ?_⟩
    rw [Value.rereadMembers_eq_map, List.map_map]
    exact nodup_names o _
  case expression =>
    rw [Value.member?_reread]
    rfl
  case tokens =>
    rw [Value.member?_reread, member?_tokens, ← htokens]
    exact tellsTokens_reread_listToJson _
  case reordered =>
    rw [Value.member?_reread, member?_reordered, ← hreordered]
    exact tellsTokens_reread_listToJson _
  case value =>
    intro x hx
    obtain ⟨hvalue, herror⟩ := member?_of_result_eq_ok o (ofExpression mode text) hx
    rw [Value.member?_reread, hvalue, Value.member?_reread, herror, Binary64.toList_plain]
    exact ⟨rfl, Binary64.ofNumeral?_plainChars x, rfl⟩
  case error =>
    intro e he
    obtain ⟨hvalue, herror⟩ := member?_of_result_eq_error o (ofExpression mode text) he
    rw [Value.member?_reread, hvalue, Value.member?_reread, herror]
    exact ⟨rfl, rfl⟩

/-- Tokens can be read as members of an object in any text. -/
theorem readable_tokenMembers {convert : Conversion} {name : String} {shown : Option (List Token)}
    (h : ∀ tokens ∈ shown, ∀ x, .number x ∈ tokens → x.isFinite = true → ReadsBack convert x)
    (depth : Nat) : ∀ member ∈ tokenMembers name shown, Readable convert (depth + 1) member.2 := by
  cases shown with
  | none => exact fun _ hmember ↦ absurd hmember List.not_mem_nil
  | some tokens =>
    intro member hmember
    cases List.mem_singleton.mp hmember
    refine .array fun item hitem ↦ ?_
    obtain ⟨t, ht, rfl⟩ := List.mem_map.mp hitem
    exact Token.readable_toJson (fun x heq ↦ h tokens rfl x (heq ▸ ht)) depth

/-- A report is read back when the finite numbers in the tokens that it shows are. -/
theorem parseWith_toJson {convert : Conversion} {o : Options} {r : Report}
    (h : ∀ tokens, r.shownTokens? o = some tokens ∨ r.shownPostfix? o = some tokens →
      ∀ x, .number x ∈ tokens → x.isFinite = true → ReadsBack convert x) :
    Json.parseWith convert (r.toJson o).text = .ok (r.toJson o).reread := by
  refine Readable.parseWith_text (.object fun member hmember ↦ ?_)
  simp only [List.mem_cons, List.mem_append, List.not_mem_nil, or_false] at hmember
  rcases hmember with rfl | htokens | hreordered | rfl
  · exact .string _ _
  · exact readable_tokenMembers (fun tokens hshown ↦ h tokens (.inl hshown)) _ member htokens
  · exact readable_tokenMembers (fun tokens hshown ↦ h tokens (.inr hshown)) _ member hreordered
  · rw [resultMember]
    cases r.result <;> exact .string _ _

/-- The line of JSON of a report is read, with the nearest double for every number, as a value that
describes the expression. -/
theorem exists_parseWith_toJson (o : Options) (mode : Mode) (text : String) :
    ∃ v, Json.parseWith Json.Numeral.nearest? ((ofExpression mode text).toJson o).text = .ok v ∧
      Describes o text (evaluateExpression mode text) v :=
  ⟨_, parseWith_toJson fun _ _ _ _ ↦ Json.readsBack_nearest, describes_reread_toJson o mode text⟩

/-- The lines of text of a report show tokens, postfix order and value of the expression. -/
theorem outputLines_ofExpression (o : Options) (mode : Mode) (text : String) :
    (ofExpression mode text).outputLines o =
      shownLines o text (evaluateExpression mode text) := by
  have hresult : (ofExpression mode text).result = evaluateExpression mode text := rfl
  have htokens : (ofExpression mode text).tokens = tokenize text := rfl
  have hreordered : (ofExpression mode text).reordered = toPostfix (tokenize text) := rfl
  rw [outputLines, shownTokens?, shownPostfix?, hresult, htokens, hreordered]
  unfold shownLines
  cases o.showTokens <;> cases o.showPostfix <;> cases toPostfix (tokenize text) <;>
    cases evaluateExpression mode text <;> rfl

/-- A report fails exactly when the expression has no value. -/
theorem isFailure_ofExpression (mode : Mode) (text : String) :
    (ofExpression mode text).isFailure = !(evaluateExpression mode text).isOk := by
  have hresult : (ofExpression mode text).result = evaluateExpression mode text := rfl
  rw [isFailure, hresult]
  cases evaluateExpression mode text <;> rfl

end Report

end CommandLine

end PocketCalc
