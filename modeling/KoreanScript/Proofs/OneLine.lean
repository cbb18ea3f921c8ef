import KoreanScript.Condition
import KoreanScript.Proofs.Outcomes
import KoreanScript.Proofs.ReadBack

/-!
# Values on one line

A line feed can come into a value only from outside.  The lines of a source text have
none, and so there is none in the texts and names that expressions are written with.
Numbers are printed without one, and joining texts adds none.  So if the variables are on
one line each, the value of an expression is too.

Messages are the other way in which a program can show its values: an item that lacks an
operator is named in the message, and it may be the value of a variable.  Therefore each
lemma here is about both ways in which a computation can end.
-/

set_option autoImplicit false

namespace KoreanScript

/-! ## Texts without line feeds -/

/-- A text on one line, without its end. -/
def IsLine (text : String) : Prop :=
  '\n' ∉ text.toList

instance (text : String) : Decidable (IsLine text) :=
  inferInstanceAs (Decidable ('\n' ∉ text.toList))

theorem isLine_ofList {text : List Char} (h : '\n' ∉ text) : IsLine (String.ofList text) := by
  rwa [IsLine, String.toList_ofList]

theorem IsLine.append {first second : String} (hfirst : IsLine first) (hsecond : IsLine second) :
    IsLine (first ++ second) := by
  rw [IsLine, String.toList_append]
  exact List.not_mem_append hfirst hsecond

/-- A text between two others, as messages quote it. -/
theorem IsLine.between {front text back : String} (hfront : IsLine front) (htext : IsLine text)
    (hback : IsLine back) : IsLine (front ++ text ++ back) :=
  (hfront.append htext).append hback

/-! ## What is on one line -/

/-- A value that is printed on one line. -/
def Value.OneLine (value : Value) : Prop :=
  IsLine value.render

/-- An item that messages show on one line. -/
def Item.OneLine (item : Item) : Prop :=
  IsLine item.render

instance (item : Item) : Decidable item.OneLine :=
  inferInstanceAs (Decidable (IsLine item.render))

/-- A cause whose message is on one line. -/
def Cause.OneLine (cause : Cause) : Prop :=
  IsLine cause.message

instance (cause : Cause) : Decidable cause.OneLine :=
  inferInstanceAs (Decidable (IsLine cause.message))

/-- A token whose text or name, if it has one, is on one line. -/
inductive Token.OneLine : Token → Prop where
  | number (value : Float) : OneLine (.number value)
  | text {content : String} (h : IsLine content) : OneLine (.text content)
  | name {name : String} (h : IsLine name) : OneLine (.name name)
  | operator (op : Operator) : OneLine (.operator op)
  | leftParen : OneLine .leftParen
  | rightParen : OneLine .rightParen

/-- A store all of whose values are on one line. -/
def Store.OneLine (store : Store) : Prop :=
  ∀ name value, store.get? name = some value → value.OneLine

theorem Store.oneLine_empty : empty.OneLine := by
  intro name value hvalue
  simp at hvalue

theorem Store.OneLine.set {store : Store} {name : String} {value : Value} (h : store.OneLine)
    (hvalue : value.OneLine) : (store.set name value).OneLine := by
  intro other found hfound
  rw [get?_set] at hfound
  split at hfound
  · exact Option.some.inj hfound ▸ hvalue
  · exact h other found hfound

/-! ## Values -/

/-- Numbers are printed on one line. -/
theorem Number.isLine_render (value : Float) : IsLine (render value) := by
  rw [render]
  split
  · decide
  split
  · split <;> decide
  split
  · decide
  · have hdigits : '\n' ∉ renderMagnitude (magnitude value) := by
      intro hfeed
      cases (standsFor_renderMagnitude _).solid _ hfeed
    refine isLine_ofList (List.not_mem_append ?_ hdigits)
    split <;> decide

theorem Value.oneLine_number (value : Float) : (Value.number value).OneLine :=
  Number.isLine_render value

theorem Value.oneLine_ofInput {line : String} (h : IsLine line) : (Value.ofInput line).OneLine := by
  unfold ofInput
  split
  · exact oneLine_number _
  · exact h

/-- Joining texts adds no line feed. -/
theorem Value.OneLine.add {left right : Value} (hleft : left.OneLine) (hright : right.OneLine) :
    (left.add right).OneLine := by
  unfold Value.add
  split
  · exact Value.oneLine_number _
  · exact IsLine.append hleft hright

/-- Messages show a value on one line exactly if it is printed on one line. -/
theorem Item.oneLine_value {value : Value} : (Item.value value).OneLine ↔ value.OneLine := by
  cases value with
  | number n => exact Iff.rfl
  | text content =>
    have hquote : IsLine "\"" := by decide
    refine ⟨fun h hfeed => h ?_, fun h => hquote.between h hquote⟩
    rw [Item.render, String.toList_append, String.toList_append]
    exact List.mem_append_left _ (List.mem_append_right _ hfeed)

/-! ## Causes -/

theorem Operator.isLine_symbol (op : Operator) : IsLine op.symbol.toString := by
  cases op <;> decide

theorem Cause.oneLine_needsNumbers (op : Operator) :
    (Cause.needsNumbers op.symbol.toString).OneLine :=
  IsLine.between (by decide) op.isLine_symbol (by decide)

theorem Cause.oneLine_missingOperand {item : Item} (h : item.OneLine) :
    (Cause.missingOperand item).OneLine := by
  have hdetails := (show IsLine "연산자 '" by decide).between h
    (show IsLine "' 앞뒤에 값이 필요해요" by decide)
  exact IsLine.append (by decide) hdetails

theorem Cause.oneLine_missingOperator {item : Item} (h : item.OneLine) :
    (Cause.missingOperator item).OneLine := by
  have hquote : IsLine "'" := by decide
  have hdetails := hquote.between h (show IsLine "' 앞에 연산자가 필요해요" by decide)
  exact IsLine.append (by decide) hdetails

theorem Value.isLine_typeName (value : Value) : IsLine value.typeName := by
  cases value with
  | number n => exact show IsLine "숫자" by decide
  | text content => exact show IsLine "문자열" by decide

theorem Cause.oneLine_incomparable (left right : Value) :
    (Cause.incomparable left right).OneLine := by
  have hleft := left.isLine_typeName.append (show IsLine "와(과) " by decide)
  exact hleft.between right.isLine_typeName (by decide)

theorem Cause.oneLine_undefinedVariable {name : String} (h : IsLine name) :
    (Cause.undefinedVariable name).OneLine :=
  IsLine.between (by decide) h (by decide)

theorem Cause.oneLine_invalidCount {count : String} (h : IsLine count) :
    (Cause.invalidCount count).OneLine :=
  IsLine.between (by decide) h (by decide)

/-! ## Tokens -/

theorem Lexeme.text_subset {text : List Char} {lexeme : Lexeme} (h : lexeme ∈ lexemes text) :
    lexeme.text ⊆ text := by
  intro c hc
  rw [← flatMap_text_lexemes text]
  exact List.mem_flatMap.mpr ⟨lexeme, h, hc⟩

theorem Lexeme.yields_token? {lexeme : Lexeme} (h : '\n' ∉ lexeme.text) :
    Yields (fun found => ∀ token ∈ found, token.OneLine) (fun e => IsLine e.message)
      lexeme.token? := by
  cases lexeme with
  | blanks run => exact yields_none
  | digits run => exact yields_some (.number _)
  | name run => exact yields_some (.name (isLine_ofList h))
  | literal content =>
    have hcontent : '\n' ∉ content := fun hfeed =>
      h (List.mem_append_left _ (List.mem_cons_of_mem _ hfeed))
    exact yields_some (.text (isLine_ofList hcontent))
  | operator op => exact yields_some (.operator op)
  | leftParen => exact yields_some .leftParen
  | rightParen => exact yields_some .rightParen
  | unclosed content => exact show IsLine LexError.unterminatedText.message by decide
  | stray character => exact IsLine.between (by decide) (isLine_ofList h) (by decide)

/-- The tokens of a text on one line are on one line, and so is the error of a text that
has none. -/
theorem yields_tokens {text : List Char} (h : '\n' ∉ text) :
    Yields (fun tokens => ∀ token ∈ tokens, token.OneLine) Cause.OneLine
      ((tokenize text).mapError Cause.lexical) := by
  have htokens : Yields (fun tokens => ∀ token ∈ tokens, token.OneLine)
      (fun e => IsLine e.message) (tokenize text) :=
    yields_filterMapM fun _ hlexeme =>
      Lexeme.yields_token? fun hfeed => h (Lexeme.text_subset hlexeme hfeed)
  exact htokens.mapError fun _ he => he

/-! ## Expressions -/

theorem Store.OneLine.yields_lookup {store : Store} (h : store.OneLine) {name : String}
    (hname : IsLine name) : Yields Value.OneLine Cause.OneLine (store.lookup name) := by
  unfold Store.lookup
  split
  · next value hvalue => exact h name value hvalue
  · exact Cause.oneLine_undefinedVariable hname

theorem Item.yields_resolve {store : Store} (hstore : store.OneLine) {token : Token}
    (h : token.OneLine) :
    Yields (fun found => ∀ item ∈ found, item.OneLine) Cause.OneLine (resolve store token) := by
  cases h with
  | number n => exact yields_some (Item.oneLine_value.mpr (Value.oneLine_number n))
  | @text content h => exact yields_some ((@Item.oneLine_value (.text content)).mpr h)
  | name h =>
    refine (hstore.yields_lookup h).bind fun value hvalue => ?_
    exact yields_some (Item.oneLine_value.mpr hvalue)
  | operator op => exact yields_some op.isLine_symbol
  | leftParen => exact yields_some (by decide)
  | rightParen => exact yields_some (by decide)

theorem Operator.yields_apply (op : Operator) {left right : Value} (hleft : left.OneLine)
    (hright : right.OneLine) : Yields Value.OneLine Cause.OneLine (op.apply left right) := by
  have hasNumber (value : Value) :
      Yields (fun _ => True) Cause.OneLine (value.asNumber op.symbol.toString) := by
    cases value with
    | number n => trivial
    | text content => exact Cause.oneLine_needsNumbers op
  have hnumbers (compute : Float → Float → Float) :
      Yields Value.OneLine Cause.OneLine (op.onNumbers compute left right) :=
    (hasNumber left).bind fun a _ => (hasNumber right).bind fun b _ =>
      Value.oneLine_number (compute a b)
  cases op with
  | plus => exact hleft.add hright
  | minus => exact hnumbers (· - ·)
  | times => exact hnumbers (· * ·)
  | divide => exact hnumbers (· / ·)

/-- Evaluation keeps to items that messages show on one line. -/
theorem preserved_oneLine : Preserved Item.OneLine Cause.OneLine where
  apply := by
    intro op left right hleft hright
    have hresult := op.yields_apply (Item.oneLine_value.mp hleft) (Item.oneLine_value.mp hright)
    exact hresult.mono fun _ hline => Item.oneLine_value.mpr hline
  missingOperand := fun _ hitem => Cause.oneLine_missingOperand hitem
  missingOperator := fun _ hitem => Cause.oneLine_missingOperator hitem
  missingValue := by decide

theorem yields_reduce {items : List Item} (hitems : ∀ item ∈ items, item.OneLine) :
    Yields Value.OneLine Cause.OneLine (reduce items) :=
  (preserved_oneLine.reduce (by decide) hitems).mono fun _ hline => Item.oneLine_value.mp hline

/-- **An expression on one line has a value or an error on one line**, if all variables
are on one line. -/
theorem Store.OneLine.yields_evaluate {store : Store} (hstore : store.OneLine)
    {expression : List Char} (h : '\n' ∉ expression) :
    Yields Value.OneLine Cause.OneLine (evaluate store expression) := by
  refine (yields_tokens h).bind fun tokens hline => ?_
  have hitems : Yields (fun items => ∀ item ∈ items, item.OneLine) Cause.OneLine
      (tokens.filterMapM (Item.resolve store)) :=
    yields_filterMapM fun token htoken => Item.yields_resolve hstore (hline token htoken)
  exact hitems.bind fun items => yields_reduce

/-! ## Conditions -/

theorem Comparator.yields_apply (comparator : Comparator) (left right : Value) :
    Yields (fun _ => True) Cause.OneLine (comparator.apply left right) := by
  unfold Comparator.apply
  split
  · exact Cause.oneLine_incomparable left right
  · trivial

/-- The two sides of a comparison have only characters of the condition. -/
theorem sides_subset {text left right : List Char} {comparator : Comparator}
    (h : splitComparison? text = some (comparator, left, right)) : left ⊆ text ∧ right ⊆ text := by
  obtain ⟨found, -, hfound⟩ := List.exists_of_findSome?_eq_some h
  obtain ⟨offset, -, hsides⟩ := Option.map_eq_some_iff.mp hfound
  obtain ⟨-, rfl, rfl⟩ : found = comparator ∧ text.take offset = left ∧
      text.drop (offset + found.symbol.length) = right := by
    simpa using hsides
  exact ⟨List.take_subset _ _, List.drop_subset _ _⟩

theorem Store.OneLine.yields_compareSides {store : Store} (hstore : store.OneLine)
    {text : List Char} (h : '\n' ∉ text) :
    Yields (fun _ => True) Cause.OneLine (compareSides store text) := by
  unfold compareSides
  split
  · next comparator left right hsplit =>
    obtain ⟨hleft, hright⟩ := sides_subset hsplit
    have hvalues {side : List Char} (hside : side ⊆ text) :=
      hstore.yields_evaluate fun hfeed => h (hside hfeed)
    exact (hvalues hleft).bind fun a _ => (hvalues hright).bind fun b _ =>
      comparator.yields_apply a b
  · exact (yields_tokens h).bind fun _ _ => show Cause.missingComparator.OneLine by decide

theorem withoutEnds_subset (text : List Char) : withoutEnds text ⊆ text :=
  fun _ hc => List.mem_of_mem_tail (List.mem_of_mem_dropLast hc)

/-- **The error of a condition on one line is on one line**, if all variables are. -/
theorem Store.OneLine.yields_evaluateCondition {store : Store} (hstore : store.OneLine)
    {condition : List Char} (h : '\n' ∉ condition) :
    Yields (fun _ => True) Cause.OneLine (evaluateCondition store condition) := by
  induction hlength : condition.length using Nat.strongRecOn generalizing condition with
  | ind length ih =>
    subst hlength
    have htrim : '\n' ∉ Text.trim condition := fun hfeed => h (Text.trim_subset _ hfeed)
    have hshorter {part : List Char} (hpart : part.length < (Text.trim condition).length)
        (hsubset : part ⊆ Text.trim condition) :
        Yields (fun _ => True) Cause.OneLine (evaluateCondition store part) :=
      ih part.length (Nat.lt_of_lt_of_le hpart (Text.length_trim_le condition))
        (fun hfeed => htrim (hsubset hfeed)) rfl
    rw [evaluateCondition_eq]
    dsimp only
    split
    · next hspanned => exact hshorter (length_withoutEnds_lt hspanned) (withoutEnds_subset _)
    split
    · next hmany =>
      exact yields_anyM fun part hpart => hshorter
        (Text.length_lt_of_mem_splitTopLevel (by decide) hmany hpart)
        (Text.subset_of_mem_splitTopLevel hpart)
    split
    · next hmany =>
      exact yields_allM fun part hpart => hshorter
        (Text.length_lt_of_mem_splitTopLevel (by decide) hmany hpart)
        (Text.subset_of_mem_splitTopLevel hpart)
    · exact hstore.yields_compareSides htrim

end KoreanScript
