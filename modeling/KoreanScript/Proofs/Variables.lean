import KoreanScript.Proofs.Anchoring
import KoreanScript.Proofs.Lexing

/-!
# Variables and their names

A name is a letter or an underscore, followed by letters, digits and underscores.  The
test for the target of an assignment or of an input is more lenient: it lets blanks
stand around the name, because the lexer skips them.  What is tested has been trimmed
before, though, and every blank is white space, so nothing but the name is left
(`isName_of_targetName?`).

Only two kinds of statements change the store, and each of them sets the variable that
it names.  Hence all variables of a run have names, an expression that is such a name
has the value of the variable, and a variable that has a value keeps having one.
-/

set_option autoImplicit false

namespace KoreanScript

/-! ## Names -/

/-- A text that is a name. -/
def IsName (text : List Char) : Prop :=
  ∃ first run, text = first :: run ∧ startsName first = true ∧
    ∀ c ∈ run, continuesName c = true

/-- The characters that are white space. -/
def spaces : List Char :=
  [9, 10, 11, 12, 13, 0x20, 0x85, 0xA0, 0x1680, 0x2000, 0x2001, 0x2002, 0x2003, 0x2004, 0x2005,
    0x2006, 0x2007, 0x2008, 0x2009, 0x200A, 0x2028, 0x2029, 0x202F, 0x205F, 0x3000].map Char.ofNat

theorem mem_spaces_of_isSpace {c : Char} (h : Text.isSpace c = true) : c ∈ spaces := by
  simp only [Text.isSpace, Bool.or_eq_true, Bool.and_eq_true, decide_eq_true_eq, beq_iff_eq] at h
  refine List.mem_map.mpr ⟨c.toNat, ?_, Char.ofNat_toNat c⟩
  simp only [List.mem_cons, List.not_mem_nil, or_false]
  omega

/-- No name contains white space. -/
theorem isSpace_of_continuesName {c : Char} (h : continuesName c = true) :
    Text.isSpace c = false := by
  by_contra hspace
  rw [Bool.not_eq_false] at hspace
  have hspaces : spaces.all (!continuesName ·) = true := by decide +kernel
  have hc := List.all_eq_true.mp hspaces c (mem_spaces_of_isSpace hspace)
  rw [h] at hc
  cases hc

/-- Blanks are white space. -/
theorem isSpace_of_isBlank {c : Char} (h : isBlank c = true) : Text.isSpace c = true := by
  simp only [isBlank, Bool.or_eq_true, beq_iff_eq] at h
  rcases h with (((rfl | rfl) | rfl) | rfl) | rfl <;> rfl

namespace IsName

variable {text : List Char}

theorem isSpace (h : IsName text) : ∀ c ∈ text, Text.isSpace c = false := by
  obtain ⟨first, run, rfl, hfirst, hrun⟩ := h
  refine List.forall_mem_cons.mpr ⟨?_, fun c hc => isSpace_of_continuesName (hrun c hc)⟩
  exact isSpace_of_continuesName (continuesName_of_startsName hfirst)

/-- A name is a single lexeme. -/
theorem lexemes_eq (h : IsName text) : lexemes text = [.name text] := by
  obtain ⟨first, run, rfl, hfirst, hrun⟩ := h
  have hsplit : Lexeme.split first run = (.name (first :: run), []) := by
    rw [Lexeme.split, if_neg (by simp [isBlank_of_startsName hfirst]),
      if_neg (by simp [isDigit_of_startsName hfirst]), if_pos hfirst,
      List.takeWhile_eq_self_iff.mpr hrun, List.dropWhile_eq_nil_iff.mpr hrun]
  rw [lexemes, hsplit, lexemes]

/-- The value of a name is that of the variable. -/
theorem evaluate_eq {name : String} (h : IsName name.toList) (store : Store) :
    evaluate store name.toList = store.lookup name := by
  have htokens : tokenize name.toList = .ok [.name name] := by
    rw [tokenize, h.lexemes_eq, List.filterMapM_cons, Lexeme.token?, String.ofList_toList]
    rfl
  have hvalue (value : Value) : reduce [.value value] = .ok value := by
    rw [reduce]
    rfl
  have hresolve : evaluate store name.toList = evaluateTokens store [.name name] := by
    rw [evaluate, htokens]
    rfl
  rw [hresolve, evaluateTokens, List.filterMapM_cons, Item.resolve]
  cases store.lookup name with
  | error cause => rfl
  | ok value => exact hvalue value

end IsName

/-! ## The targets of statements -/

/-- A text with the layout of no token is blank. -/
theorem LaidOut.isBlank_of_nil {tokens : List Token} {text : List Char} (h : LaidOut tokens text)
    (htokens : tokens = []) : ∀ c ∈ text, isBlank c = true := by
  induction h with
  | nil => exact List.forall_mem_nil _
  | blank hblank _ ih => exact List.forall_mem_cons.mpr ⟨hblank, ih htokens⟩
  | word => cases htokens

/-- A text with the layout of one name is that name with blanks around it. -/
theorem LaidOut.exists_isName {tokens : List Token} {text : List Char} (h : LaidOut tokens text)
    {name : String} (htokens : tokens = [.name name]) :
    ∃ front back, (∀ c ∈ front, isBlank c = true) ∧ (∀ c ∈ back, isBlank c = true) ∧
      ∃ word, IsName word ∧ text = front ++ (word ++ back) := by
  induction h with
  | nil => cases htokens
  | @blank _ c _ hblank _ ih =>
    obtain ⟨front, back, hfront, hback, word, hword, rfl⟩ := ih htokens
    exact ⟨c :: front, back, List.forall_mem_cons.mpr ⟨hblank, hfront⟩, hback, word, hword, rfl⟩
  | @word _ _ word rest written _ later =>
    obtain ⟨rfl, hlater⟩ := List.cons.inj htokens
    cases written with
    | name starts continues =>
      exact ⟨[], rest, List.forall_mem_nil _, later.isBlank_of_nil hlater, _,
        ⟨_, _, rfl, starts, continues⟩, rfl⟩

/-- **A target is a name**, with nothing around it. -/
theorem isName_of_targetName? {text : List Char} {name : String}
    (h : targetName? text = some name) : IsName name.toList := by
  simp only [targetName?, Option.ite_none_right_eq_some, Option.some.injEq] at h
  obtain ⟨hidentifier, rfl⟩ := h
  unfold isIdentifier at hidentifier
  split at hidentifier
  · next found htokens =>
    have hlayout := (@tokensAt_eq_ok_iff 0 _ _).mp (tokensAt_of_ok htokens)
    obtain ⟨front, back, hfront, hback, word, hword, htext⟩ := hlayout.exists_isName rfl
    have htrim : Text.trim text = word := by
      calc Text.trim text
        _ = Text.trim (Text.trim text) := (Text.trim_trim text).symm
        _ = Text.trim (front ++ (word ++ back)) := by rw [htext]
        _ = Text.trim word := Text.trim_surrounded (fun c hc => isSpace_of_isBlank (hfront c hc))
          word fun c hc => isSpace_of_isBlank (hback c hc)
        _ = word := Text.trim_of_solid hword.isSpace
    rwa [String.toList_ofList, htrim]
  · cases hidentifier

/-- The variable that a statement sets. -/
def Statement.target? : Statement → Option String
  | .input name _ | .assignment name _ => some name
  | .empty | .print _ | .conditional _ | .loop _ | .unrecognized _ => none

namespace Statement

variable {line : List Char} {name : String}

theorem isName_of_ofInputCode (h : (ofInputCode line).target? = some name) :
    IsName name.toList := by
  unfold ofInputCode at h
  split at h
  · cases h
  · split at h
    · cases h
    · next htarget =>
      obtain rfl := Option.some.inj h
      exact isName_of_targetName? htarget

theorem isName_of_ofOtherCode (h : (ofOtherCode line).target? = some name) :
    IsName name.toList := by
  unfold ofOtherCode at h
  split at h
  · cases h
  · split at h
    · cases h
    · next htarget =>
      obtain rfl := Option.some.inj h
      exact isName_of_targetName? htarget

/-- **Whatever a line sets has a name.** -/
theorem isName_of_ofLine (h : (ofLine line).target? = some name) : IsName name.toList := by
  unfold ofLine ofCode at h
  split at h
  · cases h
  split at h
  · cases h
  split at h
  · exact isName_of_ofInputCode h
  split at h
  · cases h
  split at h
  · cases h
  · exact isName_of_ofOtherCode h

end Statement

/-! ## How the store changes -/

namespace Machine

variable {machine next : Machine}

/-- A machine whose program has a statement on some line. -/
def HasStatement (machine : Machine) (statement : Statement) : Prop :=
  ∃ line ∈ machine.program, line.statement = statement

/-- A step that makes no call keeps the store or executes an assignment. -/
theorem store_of_silent (h : machine.step = .silent next) :
    next.store = machine.store ∨ ∃ name expression value,
      machine.HasStatement (.assignment name expression) ∧
        evaluate machine.store expression = .ok value ∧
          next.store = machine.store.set name value := by
  cases takes_of_step h with
  | @iterate frame below repetition hstack hrepetition =>
    left
    unfold iterate
    split <;> rfl
  | leave => exact .inl rfl
  | @proceed frame below line _ after hat haction =>
    rcases acts_of_action haction with hnothing | ⟨found, hfound, hacts⟩
    · cases hnothing
      exact .inl rfl
    · generalize hstatement : found.statement = statement at hacts
      cases hacts with
      | empty => exact .inl rfl
      | @assignment name expression value hvalue =>
        exact .inr ⟨name, expression, value,
          ⟨found, List.mem_of_getElem? hfound, hstatement⟩, hvalue, rfl⟩
  | enter => exact .inl rfl

/-- Printing keeps the store. -/
theorem store_of_append {text : String} (h : machine.step = .append text next) :
    next.store = machine.store := by
  cases takes_of_step h with
  | print => rfl

/-- A step that asks for input executes an input statement and stores the reply. -/
theorem store_of_request {prompt : String} {next : String → Machine}
    (h : machine.step = .request prompt next) :
    ∃ name, machine.HasStatement (.input name prompt) ∧
      ∀ reply, (next reply).store = machine.store.set name (.ofInput reply) := by
  cases takes_of_step h with
  | @request frame below line _ _ name hat haction =>
    rcases acts_of_action haction with hnothing | ⟨found, hfound, hacts⟩
    · cases hnothing
    · generalize hstatement : found.statement = statement at hacts
      cases hacts with
      | input name prompt =>
        exact ⟨name, ⟨found, List.mem_of_getElem? hfound, hstatement⟩, fun _ => rfl⟩

/-- **A step keeps the store or sets the target of a statement.** -/
theorem store_of_leads (h : Leads machine.step next) :
    next.store = machine.store ∨ ∃ statement name value, machine.HasStatement statement ∧
      statement.target? = some name ∧ next.store = machine.store.set name value := by
  generalize hstep : machine.step = step at h
  cases h with
  | silent next =>
    rcases store_of_silent hstep with hsame | ⟨name, expression, value, hstatement, -, hset⟩
    · exact .inl hsame
    · exact .inr ⟨_, name, value, hstatement, rfl, hset⟩
  | append text next => exact .inl (store_of_append hstep)
  | request prompt next reply =>
    obtain ⟨name, hstatement, hset⟩ := store_of_request hstep
    exact .inr ⟨_, name, _, hstatement, rfl, hset reply⟩

/-- What the lines of a source text set has a name. -/
theorem isName_of_hasStatement {source : String} {statement : Statement} {name : String}
    (hprogram : machine.program = Program.ofSource source)
    (hstatement : machine.HasStatement statement) (htarget : statement.target? = some name) :
    IsName name.toList := by
  obtain ⟨line, hline, rfl⟩ := hstatement
  rw [hprogram] at hline
  obtain ⟨text, -, rfl⟩ := List.mem_map.mp hline
  exact Statement.isName_of_ofLine htarget

/-! ## The variables of a run -/

/-- A machine whose variables all have names. -/
def HasNames (machine : Machine) : Prop :=
  ∀ name value, machine.store.get? name = some value → IsName name.toList

theorem hasNames_of_reaches {source : String} {calls : List HostCall}
    (h : (start source).Reaches calls machine) : machine.HasNames := by
  have hkeeps := h.keeps
    (fun machine => machine.program = Program.ofSource source ∧ machine.HasNames) ?_
    ⟨rfl, fun name value hvalue => by simp [start] at hvalue⟩
  · exact hkeeps.2
  · rintro machine next hleads ⟨hprogram, hnames⟩
    refine ⟨(program_of_leads hleads).trans hprogram, fun name value hvalue => ?_⟩
    rcases store_of_leads hleads with hsame | ⟨statement, target, found, hstatement, htarget, hset⟩
    · exact hnames name value (hsame ▸ hvalue)
    · rw [hset, Store.get?_set] at hvalue
      split at hvalue
      · next heq => exact heq ▸ isName_of_hasStatement hprogram hstatement htarget
      · exact hnames name value hvalue

/-- A variable that has a value keeps having one. -/
theorem Reaches.get?_isSome {calls : List HostCall} {later : Machine}
    (h : machine.Reaches calls later) {name : String} (hname : (machine.store.get? name).isSome) :
    (later.store.get? name).isSome := by
  refine h.keeps (fun machine => (machine.store.get? name).isSome) ?_ hname
  intro machine next hleads hname
  rcases store_of_leads hleads with hsame | ⟨_, target, value, -, -, hset⟩
  · rwa [hsame]
  · rw [hset, Store.get?_set]
    split
    · rfl
    · exact hname

/-- **Every variable can be read under its own name.**  In all that a run reaches, a
variable has a name: a single lexeme of letters, digits and underscores, with no white
space around it.  An expression that is that name has the value of the variable, and
from then on the variable always has a value. -/
theorem variables_readable {source : String} {calls : List HostCall}
    (h : (start source).Reaches calls machine) :
    ∀ name value, machine.store.get? name = some value →
      IsName name.toList ∧ lexemes name.toList = [.name name.toList] ∧
        (∀ c ∈ name.toList, Text.isSpace c = false) ∧
          evaluate machine.store name.toList = .ok value ∧
            ∀ calls later, machine.Reaches calls later →
              ∃ value, later.store.get? name = some value := by
  intro name value hvalue
  have hname := hasNames_of_reaches h name value hvalue
  have hlookup : machine.store.lookup name = .ok value := by
    rw [Store.lookup, hvalue]
  refine ⟨hname, hname.lexemes_eq, hname.isSpace, (hname.evaluate_eq _).trans hlookup, ?_⟩
  intro calls later hlater
  exact Option.isSome_iff_exists.mp (hlater.get?_isSome (Option.isSome_of_eq_some hvalue))

/-- A program whose only variable is set by an input. -/
def askingAge : String := " 나이\t= 입력(\"몇 살?\") # 한 번"

/-- After a reply, the variable is read under its name, and it stays bound. -/
theorem variables_readable_afterReply :
    ∃ resume, (start askingAge).step = .request "몇 살?" resume ∧
      (start askingAge).Reaches [.request "몇 살?" "열 살"] (resume "열 살") ∧
        evaluate (resume "열 살").store "나이".toList = .ok (.text "열 살") ∧
          ∀ calls later, (resume "열 살").Reaches calls later →
            ∃ value, later.store.get? "나이" = some value := by
  have hat : (start askingAge).At (.ofBlock ⟨0, 1⟩) [] 0 := ⟨rfl, rfl, rfl⟩
  have hstatement : (Line.ofText askingAge.toList).statement = .input "나이" "몇 살?" := by
    decide +kernel
  have haction : (start askingAge).program.action (start askingAge).store 1 0 =
      .ok (.request "몇 살?" "나이" 1) := by
    have hline : (start askingAge).program[0]? = some (Line.ofText askingAge.toList) := rfl
    rw [Program.action, hline]
    simp only [hstatement, Program.actionOf, locate]
  have hstep := hat.step_of_ok haction
  have hreaches : (start askingAge).Reaches [.request "몇 살?" "열 살"] _ :=
    .request "열 살" hstep (.refl _)
  have hreply : Value.ofInput "열 살" = .text "열 살" := by decide +kernel
  have hvalue : (Store.empty.set "나이" (.ofInput "열 살")).get? "나이" = some (.text "열 살") := by
    rw [Store.get?_set, if_pos rfl, hreply]
  obtain ⟨-, -, -, hread, hstays⟩ := variables_readable hreaches "나이" _ hvalue
  exact ⟨_, hstep, hreaches, hread, hstays⟩

end Machine

end KoreanScript
