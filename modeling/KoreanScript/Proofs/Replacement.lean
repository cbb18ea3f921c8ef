import KoreanScript.Proofs.Grammar

/-!
# Values in the place of groups

A group in parentheses that has a value may be replaced by this value wherever it
stands.  What stands around it need not be well-formed: there may be parentheses
without partners, operators without operands, groups that have no value.

Groups are reduced in the order in which they close.  So as long as a parenthesis
closes before the group in question, reduction works on what stands before it, and
does the same whether the group or its value comes after that.  When none closes
there any more, the groups inside are next, then the group itself, and then the two
lists are one.
-/

set_option autoImplicit false

namespace KoreanScript

/-! ## Lists in which a parenthesis closes -/

/-- A group with more items after it. -/
def Group.extend (group : Group) (rest : List Item) : Group :=
  { group with after := group.after ++ rest }

theorem Group.replace_extend (group : Group) (rest : List Item) (value : Value) :
    (group.extend rest).replace value = group.replace value ++ rest := by
  simp [extend, replace]

/-- The group that closes first is found by what stands up to its end. -/
theorem innermostGroup?_append {items : List Item} (hright : .rightParen ∈ items)
    (rest : List Item) :
    innermostGroup? (items ++ rest) = (innermostGroup? items).map (·.extend rest) := by
  obtain ⟨front, after, rfl, hfront⟩ := List.eq_append_cons_of_mem hright
  rw [List.append_assoc, List.cons_append, innermostGroup?_of_not_mem hfront,
    innermostGroup?_of_not_mem hfront]
  cases front.reverse.dropWhile (!·.isLeftParen) <;> rfl

/-- A list in which a group is found has its opening parenthesis. -/
theorem any_isLeftParen_of_innermostGroup? {items : List Item} {group : Group}
    (h : innermostGroup? items = some group) : items.any Item.isLeftParen = true := by
  rw [← items_of_innermostGroup? h, Group.items]
  simp [Item.isLeftParen]

/-- Where a parenthesis closes, reduction begins with the group that closes first, and
leaves alone what follows. -/
theorem reduce_append_of_mem {items : List Item} (hright : .rightParen ∈ items)
    (rest : List Item) :
    reduce (items ++ rest) =
      match innermostGroup? items with
      | some group => do
        let value ← reduce group.inner
        reduce (group.replace value ++ rest)
      | none => .error .unbalancedParens := by
  have hsplit := innermostGroup?_append hright rest
  rw [reduce]
  cases hgroup : innermostGroup? items with
  | some group =>
    rw [hgroup, Option.map_some] at hsplit
    rw [if_pos (any_isLeftParen_of_innermostGroup? hsplit)]
    split
    · next found hfound =>
      obtain rfl := Option.some.inj (hsplit.symm.trans hfound)
      simp only [Group.replace_extend]
      rfl
    · next hnone => cases hsplit.symm.trans hnone
  | none =>
    rw [hgroup, Option.map_none] at hsplit
    split
    · split
      · next found hfound => cases hsplit.symm.trans hfound
      · rfl
    · have hcloses : (items ++ rest).any Item.isRightParen = true :=
        List.any_eq_true.mpr ⟨.rightParen, List.mem_append_left rest hright, rfl⟩
      rw [if_pos hcloses]

/-! ## The replacement -/

/-- **A group may be replaced by its value**, whatever stands before and after it. -/
theorem reduce_group_eq {inner : List Item} {v : Value} (hv : reduce inner = .ok v)
    (before after : List Item) :
    reduce (before ++ .leftParen :: inner ++ .rightParen :: after) =
      reduce (before ++ .value v :: after) := by
  induction hlength : before.length using Nat.strongRecOn generalizing before with
  | ind length ih =>
    subst hlength
    by_cases hright : .rightParen ∈ before
    · -- the first parenthesis that closes stands before the group, on both sides alike
      have hrest := reduce_append_of_mem hright
      rw [List.append_assoc, List.cons_append, hrest, hrest]
      cases hgroup : innermostGroup? before with
      | none => rfl
      | some earlier =>
        refine bind_congr fun w => ?_
        have hreplaced := ih _ (length_replace_lt hgroup w) (earlier.replace w) rfl
        rwa [List.append_assoc, List.cons_append] at hreplaced
    · have hopen : ∀ item ∈ before, item.isRightParen = false := by
        intro item hitem
        cases item with
        | rightParen => exact absurd hitem hright
        | _ => rfl
      obtain ⟨d, rfl, hvalue⟩ := exists_derivation_of_reduce hv
      obtain ⟨flat, hflat, hflatValue, hexchange⟩ := d.exists_isFlat hvalue
      have hgroup := hexchange.group hflat hflatValue before after hopen
      simpa using hgroup

/-! ## Tokens -/

/-- The literal of a value. -/
def Value.token : Value → Token
  | .number value => .number value
  | .text content => .text content

/-- A filter works off the two parts of a list one after the other. -/
theorem filterMapM_append {ε α β : Type} {f : α → Except ε (Option β)} (first second : List α) :
    (first ++ second).filterMapM f = do
      let found ← first.filterMapM f
      let later ← second.filterMapM f
      return found ++ later := by
  induction first with
  | nil => simp
  | cons a first ih =>
    rw [List.cons_append, List.filterMapM_cons, List.filterMapM_cons, ih]
    cases f a with
    | error e => rfl
    | ok found? =>
      cases found? with
      | none => rfl
      | some found => cases first.filterMapM f <;> cases second.filterMapM f <;> rfl

/-- What a filter makes of the middle of a list stands in the middle of the result. -/
theorem filterMapM_between {ε α β : Type} {f : α → Except ε (Option β)} {middle : List α}
    {found : List β} (hmiddle : middle.filterMapM f = .ok found) (before after : List α) :
    (before ++ middle ++ after).filterMapM f = do
      let front ← before.filterMapM f
      let back ← after.filterMapM f
      return front ++ found ++ back := by
  rw [filterMapM_append, filterMapM_append, hmiddle]
  cases before.filterMapM f <;> rfl

/-- **A group may be replaced by the literal of its value.**  Where the tokens `inner`
have a value, they and the parentheses around them may be replaced by it, between any
other tokens: evaluation comes to the same value or to the same fault.  The parentheses
of `inner` need not be required to be balanced, since no other tokens have a value. -/
theorem evaluateTokens_group {store : Store} {line : Nat} {inner : List Token} {v : Value}
    (hinner : locate line (evaluateTokens store inner) = .ok v) (before after : List Token) :
    locate line (evaluateTokens store (before ++ .leftParen :: inner ++ .rightParen :: after)) =
      locate line (evaluateTokens store (before ++ v.token :: after)) := by
  obtain ⟨items, hitems, hvalue⟩ := bind_eq_ok_iff.mp (locate_eq_ok_iff.mp hinner)
  have hgroup : (Token.leftParen :: inner ++ [Token.rightParen]).filterMapM (Item.resolve store) =
      .ok (Item.leftParen :: items ++ [Item.rightParen]) := by
    rw [List.cons_append, List.filterMapM_cons, filterMapM_append, hitems]
    rfl
  have hliteral : [v.token].filterMapM (Item.resolve store) = .ok [.value v] := by
    cases v <;> rfl
  have hbetween := filterMapM_between hgroup before after
  have hreplaced := filterMapM_between hliteral before after
  simp only [List.append_assoc, List.cons_append, List.nil_append] at hbetween hreplaced ⊢
  rw [evaluateTokens, evaluateTokens, hbetween, hreplaced]
  cases before.filterMapM (Item.resolve store) with
  | error cause => rfl
  | ok front =>
    cases after.filterMapM (Item.resolve store) with
    | error cause => rfl
    | ok back =>
      have hreduce := reduce_group_eq hvalue front back
      rw [List.append_assoc, List.cons_append] at hreduce
      exact congrArg (locate line) hreduce

/-- Between an earlier group, an open parenthesis and a text that cannot be subtracted;
and where a parenthesis before the group closes nothing. -/
theorem evaluateTokens_group_examples :
    let one : Token := .number (Number.ofDigits ['1'])
    let four : Value := .number (Number.ofDigits ['4'])
    let store := Store.empty.set "가" (.number (Number.ofDigits ['3']))
    let inner : List Token := [.leftParen, one, .rightParen, .operator .plus, .name "가"]
    let outcome (before after : List Token) :=
      locate 7 (evaluateTokens store (before ++ .leftParen :: inner ++ .rightParen :: after))
    let replaced (before after : List Token) :=
      locate 7 (evaluateTokens store (before ++ four.token :: after))
    locate 7 (evaluateTokens store inner) = .ok four ∧
      outcome [.leftParen, one, .rightParen, .operator .times, .leftParen]
          [.rightParen, .operator .minus, .text "("] =
        replaced [.leftParen, one, .rightParen, .operator .times, .leftParen]
          [.rightParen, .operator .minus, .text "("] ∧
      outcome [.rightParen] [.name "나"] = replaced [.rightParen] [.name "나"] := by
  intro one four store inner outcome replaced
  have hinner : locate 7 (evaluateTokens store inner) = .ok four := by decide +kernel
  exact ⟨hinner, evaluateTokens_group hinner _ _, evaluateTokens_group hinner _ _⟩

end KoreanScript
