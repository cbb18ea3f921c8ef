import KoreanScript.Store
import KoreanScript.Token

/-!
# Evaluation of expressions

The tokens of an expression become a list of items in which every name has been
replaced by its value.  The list is then reduced to one value.  As long as there
is an opening parenthesis, the innermost group that closes first is reduced and
its value takes the place of the group.  A list without parentheses is worked off
in two passes, each from left to right: first multiplication and division, then
addition and subtraction.  So the former bind tighter, and all four are left
associative.

Names are looked up before anything is computed, and from left to right; hence an
undefined variable is reported whatever else is wrong with the expression.
-/

set_option autoImplicit false

namespace KoreanScript

/-! ## Items -/

/-- The elements of the list that an expression is reduced on. -/
inductive Item where
  | value (value : Value)
  | operator (op : Operator)
  | leftParen
  | rightParen
  deriving DecidableEq

namespace Item

/-- The item of a token that needs no store; names have none. -/
def ofToken? : Token → Option Item
  | .number n => some (.value (.number n))
  | .text content => some (.value (.text content))
  | .operator op => some (.operator op)
  | .leftParen => some .leftParen
  | .rightParen => some .rightParen
  | .name _ | .unclosedText | .blank => none

/-- The item of a token, with names replaced by their values; blanks have none. -/
def resolve (store : Store) : Token → Except Cause (Option Item)
  | .name name => (store.lookup name).map fun found => some (.value found)
  | .unclosedText => .error (.lexical .unterminatedText)
  | token => .ok (ofToken? token)

/-- An item as messages show it: texts in quotes. -/
def render : Item → String
  | .value (.text content) => "\"" ++ content ++ "\""
  | .value (.number n) => (Value.number n).render
  | .operator op => op.symbol.toString
  | .leftParen => "("
  | .rightParen => ")"

/-- Whether an item is an opening parenthesis. -/
def isLeftParen : Item → Bool
  | .leftParen => true
  | _ => false

/-- Whether an item is a closing parenthesis. -/
def isRightParen : Item → Bool
  | .rightParen => true
  | _ => false

end Item

/-! ## What can be wrong with a list of items -/

/-- An operator or a parenthesis lacks a value on one of its sides. -/
def Cause.missingOperand (item : Item) : Cause :=
  .malformedExpression ("연산자 '" ++ item.render ++ "' 앞뒤에 값이 필요해요")

/-- There is nothing where a value is needed. -/
def Cause.missingValue : Cause :=
  .malformedExpression "값이 없어요"

/-- An item follows a value without an operator between them. -/
def Cause.missingOperator (item : Item) : Cause :=
  .malformedExpression ("'" ++ item.render ++ "' 앞에 연산자가 필요해요")

/-! ## Operators on values -/

/-- Whether an operator is worked off in the first pass. -/
def Operator.bindsTighter : Operator → Bool
  | .times | .divide => true
  | .plus | .minus => false

/-- Whether an operator is worked off in the second pass. -/
def Operator.isAdditive : Operator → Bool
  | .plus | .minus => true
  | .times | .divide => false

theorem Operator.bindsTighter_iff {op : Operator} :
    op.bindsTighter = true ↔ op = .times ∨ op = .divide := by
  cases op <;> simp [bindsTighter]

theorem Operator.isAdditive_iff {op : Operator} :
    op.isAdditive = true ↔ op = .plus ∨ op = .minus := by
  cases op <;> simp [isAdditive]

/-- Each operator is worked off in one of the passes. -/
theorem Operator.isAdditive_eq_not (op : Operator) : op.isAdditive = !op.bindsTighter := by
  cases op <;> rfl

/-- The sum of two numbers, or the joined renderings as soon as one is a text. -/
def Value.add : Value → Value → Value
  | .number a, .number b => .number (a + b)
  | left, right => .text (left.render ++ right.render)

/-- A number computed from two operands that have to be numbers. -/
def Operator.onNumbers (op : Operator) (compute : Float → Float → Float)
    (left right : Value) : Except Cause Value := do
  let a ← left.asNumber op.symbol.toString
  let b ← right.asNumber op.symbol.toString
  return .number (compute a b)

/-- The value of an operator between two values. -/
def Operator.apply (op : Operator) (left right : Value) : Except Cause Value :=
  match op with
  | .plus => .ok (left.add right)
  | .minus => op.onNumbers (· - ·) left right
  | .times => op.onNumbers (· * ·) left right
  | .divide => op.onNumbers (· / ·) left right

/-! ## Lists without parentheses -/

/-- The first pass over the items after `current`: every multiplication and every
division is replaced by its value. -/
def productsFrom (current : Item) : List Item → Except Cause (List Item)
  | [] => .ok [current]
  | .operator op :: rest =>
    if op.bindsTighter then
      match current, rest with
      | .value left, .value right :: later => do
        let result ← op.apply left right
        productsFrom (.value result) later
      | _, _ => .error (.missingOperand (.operator op))
    else return current :: (← productsFrom (.operator op) rest)
  | item :: rest => return current :: (← productsFrom item rest)

/-- The first pass over a list of items. -/
def products : List Item → Except Cause (List Item)
  | [] => .ok []
  | .operator op :: rest =>
    if op.bindsTighter then .error (.missingOperand (.operator op))
    else productsFrom (.operator op) rest
  | item :: rest => productsFrom item rest

/-- The second pass over the items after a value: sums and differences. -/
def sumFrom (total : Value) : List Item → Except Cause Value
  | [] => .ok total
  | .operator op :: rest =>
    if op.isAdditive then
      match rest with
      | .value operand :: later => do
        let result ← op.apply total operand
        sumFrom result later
      | _ => .error (.missingOperand (.operator op))
    else .error (.missingOperator (.operator op))
  | item :: _ => .error (.missingOperator item)

/-- The second pass over a list of items. -/
def sum : List Item → Except Cause Value
  | [] => .error .missingValue
  | .value first :: rest => sumFrom first rest
  | item :: _ => .error (.missingOperand item)

section Passes

variable {op : Operator}

/-- The first pass puts the value in place of a multiplication or division. -/
theorem productsFrom_of_bindsTighter (h : op.bindsTighter = true) (left right : Value)
    (later : List Item) :
    productsFrom (.value left) (.operator op :: .value right :: later) =
      op.apply left right >>= fun result => productsFrom (.value result) later := by
  rw [productsFrom, if_pos h]

/-- The first pass goes on behind an addition or subtraction. -/
theorem productsFrom_of_isAdditive (h : op.isAdditive = true) (left right : Value)
    (later : List Item) :
    productsFrom (.value left) (.operator op :: .value right :: later) =
      ([.value left, .operator op] ++ ·) <$> productsFrom (.value right) later := by
  have hloose : op.bindsTighter = false := by
    simpa [op.isAdditive_eq_not] using h
  simp [productsFrom, hloose]

/-- The second pass puts the value in place of an addition or subtraction. -/
theorem sumFrom_of_isAdditive (h : op.isAdditive = true) (total operand : Value)
    (later : List Item) :
    sumFrom total (.operator op :: .value operand :: later) =
      op.apply total operand >>= fun result => sumFrom result later := by
  rw [sumFrom, if_pos h]

end Passes

/-- The value of a list of items without parentheses. -/
def evaluateFlat (items : List Item) : Except Cause Value := do
  sum (← products items)

/-! ## Groups -/

/-- A group in parentheses, with what stands before its opening and after its
closing parenthesis. -/
structure Group where
  before : List Item
  inner : List Item
  after : List Item

/-- The list of items that a group was found in. -/
def Group.items (group : Group) : List Item :=
  group.before ++ .leftParen :: group.inner ++ .rightParen :: group.after

/-- The list of items with a value in place of a group. -/
def Group.replace (group : Group) (value : Value) : List Item :=
  group.before ++ .value value :: group.after

/-- The group that closes first: it ends at the first closing parenthesis and
starts at the last opening one before it. -/
def innermostGroup? (items : List Item) : Option Group :=
  let front := (items.takeWhile (!·.isRightParen)).reverse
  match items.dropWhile (!·.isRightParen), front.dropWhile (!·.isLeftParen) with
  | _ :: after, _ :: before =>
    some ⟨before.reverse, (front.takeWhile (!·.isLeftParen)).reverse, after⟩
  | _, _ => none

theorem eq_of_dropWhile_eq_cons {p : Item → Bool} {mark : Item} (hp : ∀ i, p i = false → i = mark)
    {items : List Item} {first : Item} {rest : List Item}
    (h : items.dropWhile p = first :: rest) : items = items.takeWhile p ++ mark :: rest := by
  have hfirst : first = mark := hp _ (by
    have := List.head_dropWhile_not p (l := items) (by simp [h])
    simpa [h] using this)
  conv => lhs; rw [← List.takeWhile_append_dropWhile (p := p) (l := items)]
  rw [h, hfirst]

/-- The innermost group, put together again, is the list it was found in. -/
theorem items_of_innermostGroup? {items : List Item} {group : Group}
    (h : innermostGroup? items = some group) : group.items = items := by
  unfold innermostGroup? at h
  simp only at h
  split at h
  · next after before hafter hbefore =>
    have hright : ∀ i : Item, (!i.isRightParen) = false → i = .rightParen := by
      intro i; cases i <;> simp [Item.isRightParen]
    have hleft : ∀ i : Item, (!i.isLeftParen) = false → i = .leftParen := by
      intro i; cases i <;> simp [Item.isLeftParen]
    have hwhole := eq_of_dropWhile_eq_cons hright hafter
    have hfront := congrArg List.reverse (eq_of_dropWhile_eq_cons hleft hbefore)
    injection h with h
    subst h
    simp only [List.reverse_reverse, List.reverse_append, List.reverse_cons] at hfront
    conv => rhs; rw [hwhole, hfront]
    simp [Group.items]
  · simp at h

theorem length_inner_lt {items : List Item} {group : Group}
    (h : innermostGroup? items = some group) : group.inner.length < items.length := by
  rw [← items_of_innermostGroup? h]
  simp only [Group.items, List.length_append, List.length_cons]
  omega

theorem length_replace_lt {items : List Item} {group : Group}
    (h : innermostGroup? items = some group) (value : Value) :
    (group.replace value).length < items.length := by
  rw [← items_of_innermostGroup? h]
  simp only [Group.items, Group.replace, List.length_append, List.length_cons]
  omega

/-! ## Reduction -/

/-- **The value of a list of items.**  Groups are reduced from the inside, the one
that closes first before the others. -/
def reduce (items : List Item) : Except Cause Value :=
  if items.any Item.isLeftParen then
    match _h : innermostGroup? items with
    | some group => do
      let value ← reduce group.inner
      reduce (group.replace value)
    | none => .error .unbalancedParens
  else if items.any Item.isRightParen then .error .unbalancedParens
  else evaluateFlat items
termination_by items.length
decreasing_by
  · exact length_inner_lt _h
  · exact length_replace_lt _h value

/-- The value of a list of tokens. -/
def evaluateTokens (store : Store) (tokens : List Token) : Except Cause Value := do
  reduce (← tokens.filterMapM (Item.resolve store))

/-- The value of an expression. -/
def evaluate (store : Store) (expression : List Char) : Except Cause Value := do
  let tokens ← (tokenize expression).mapError Cause.lexical
  evaluateTokens store tokens

end KoreanScript
