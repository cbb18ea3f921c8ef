import Mathlib.Data.Finset.Card
import KoreanScript.CommandLine
import KoreanScript.Proofs.Encoding

/-!
# Variables after assignments

A store is written by single assignments, and all that can be seen of it afterwards is
which value each name was given last.  The look-ups say so directly.  The list of all
variables has each name that was given a value just once, in the order of the bytes of
the names, and a list in a strict order is told by its members.  So assignments that
leave every name with the same value leave one list, in whatever order they were made,
and a dump of the variables shows nothing else.
-/

set_option autoImplicit false

namespace KoreanScript

/-! ## What a name was given last -/

/-- The value that a name was given last by some assignments, the first of which was made
first. -/
def lastGiven? (assignments : List (String × Value)) (name : String) : Option Value :=
  assignments.reverse.lookup name

theorem lastGiven?_append_singleton (assignments : List (String × Value)) (name other : String)
    (value : Value) :
    lastGiven? (assignments ++ [(name, value)]) other =
      if name = other then some value else lastGiven? assignments other := by
  rw [lastGiven?, List.reverse_append, List.reverse_singleton, List.singleton_append,
    List.lookup_cons, lastGiven?]
  split
  · next heq => rw [if_pos (beq_iff_eq.mp heq).symm]
  · next hne => rw [if_neg fun heq => by simp [heq] at hne]

/-- A name has a value as soon as it was given one. -/
theorem isSome_lastGiven? {assignments : List (String × Value)} {name : String} :
    (lastGiven? assignments name).isSome = true ↔ name ∈ assignments.map Prod.fst := by
  rw [lastGiven?, ← Option.ne_none_iff_isSome, ne_eq, List.lookup_eq_none_iff]
  simp

namespace Store

/-- A new store after some assignments. -/
def assigned (assignments : List (String × Value)) : Store :=
  assignments.foldl (fun store assignment => store.set assignment.1 assignment.2) empty

theorem assigned_append_singleton (assignments : List (String × Value)) (name : String)
    (value : Value) :
    assigned (assignments ++ [(name, value)]) = (assigned assignments).set name value :=
  List.foldl_append

/-! ## Looking up -/

/-- **A variable has the value that it was given last.** -/
theorem get?_assigned (assignments : List (String × Value)) (name : String) :
    (assigned assignments).get? name = lastGiven? assignments name := by
  induction assignments using List.reverseRecOn with
  | nil => exact get?_empty name
  | append_singleton assignments assignment ih =>
    obtain ⟨other, value⟩ := assignment
    rw [assigned_append_singleton, get?_set, lastGiven?_append_singleton, ih]

theorem contains_eq_isSome_get? (store : Store) (name : String) :
    store.contains name = (store.get? name).isSome :=
  Std.TreeMap.contains_eq_isSome_getElem?

/-! ## Listing -/

/-- The names of all variables, in the order of their bytes. -/
theorem utf8_ascending (store : Store) :
    store.toList.Pairwise fun earlier later => Text.utf8 earlier.1 < Text.utf8 later.1 :=
  store.toList_ascending.imp Text.utf8_lt_iff.mpr

/-- No name is listed twice. -/
theorem nodup_names (store : Store) : (store.toList.map Prod.fst).Nodup :=
  List.pairwise_map.mpr (store.toList_ascending.imp ne_of_lt)

theorem mem_names {store : Store} {name : String} :
    name ∈ store.toList.map Prod.fst ↔ (store.get? name).isSome = true := by
  rw [Option.isSome_iff_exists, List.mem_map]
  constructor
  · rintro ⟨⟨name, value⟩, hmem, rfl⟩
    exact ⟨value, mem_toList.mp hmem⟩
  · rintro ⟨value, hvalue⟩
    exact ⟨(name, value), mem_toList.mpr hvalue, rfl⟩

/-- **Stores in which every name has the same value have one list.** -/
theorem toList_eq_of_forall_get? {store other : Store}
    (h : ∀ name, store.get? name = other.get? name) : store.toList = other.toList :=
  (Std.TreeMap.Equiv.of_forall_constGet?_eq h).toList_eq

/-- There are as many variables as names that were given a value. -/
theorem size_assigned (assignments : List (String × Value)) :
    (assigned assignments).size = (assignments.map Prod.fst).toFinset.card := by
  have hnames : ((assigned assignments).toList.map Prod.fst).toFinset =
      (assignments.map Prod.fst).toFinset := by
    ext name
    rw [List.mem_toFinset, List.mem_toFinset, mem_names, get?_assigned, isSome_lastGiven?]
  have hlength : (assigned assignments).size = (assigned assignments).toList.length :=
    Std.TreeMap.length_toList.symm
  rw [← hnames, List.toFinset_card_of_nodup (nodup_names _), List.length_map, hlength]

theorem isEmpty_assigned (assignments : List (String × Value)) :
    (assigned assignments).isEmpty = true ↔ assignments = [] := by
  have hsize : (assigned assignments).isEmpty = ((assigned assignments).size == 0) :=
    Std.TreeMap.isEmpty_eq_size_eq_zero
  rw [hsize, size_assigned, beq_iff_eq, Finset.card_eq_zero, List.toFinset_eq_empty_iff,
    List.map_eq_nil_iff]

/-- **A store is a finite map with one list of its variables.**  After any assignments to a
new store, a name has the value that it was given last.  One that was given none is unknown,
and to look it up is the fault of an undefined variable of that name, on the line of the
statement.  There are as many variables as different names, and none only without
assignments.  The list has every name that was given a value once, with its last value, in
strictly ascending order of the bytes, and it is the same for all assignments that give every
name the same value last; so is the dump of the variables. -/
theorem assigned_canonical (assignments : List (String × Value)) (line : Nat) :
    let store := assigned assignments
    (∀ name, store.get? name = lastGiven? assignments name ∧
      store.contains name = (lastGiven? assignments name).isSome ∧
      locate line (store.lookup name) =
        match lastGiven? assignments name with
        | some value => .ok value
        | none => .error ⟨line, .undefinedVariable name⟩) ∧
    (∀ name, lastGiven? assignments name = none ↔ name ∉ assignments.map Prod.fst) ∧
    store.size = (assignments.map Prod.fst).toFinset.card ∧
    (store.isEmpty = true ↔ assignments = []) ∧
    (store.toList.Pairwise fun earlier later => Text.utf8 earlier.1 < Text.utf8 later.1) ∧
    (∀ name value, (name, value) ∈ store.toList ↔ lastGiven? assignments name = some value) ∧
    (∀ name, (store.toList.map Prod.fst).count name =
      if name ∈ assignments.map Prod.fst then 1 else 0) ∧
    ∀ others, (∀ name, lastGiven? others name = lastGiven? assignments name) →
      (assigned others).toList = store.toList ∧
        dumpText (assigned others) = dumpText store := by
  intro store
  refine ⟨fun name => ⟨get?_assigned _ _, ?_, ?_⟩, ?_, size_assigned _, isEmpty_assigned _,
    utf8_ascending _, ?_, ?_, ?_⟩
  · rw [contains_eq_isSome_get?, get?_assigned]
  · rw [lookup, get?_assigned]
    cases lastGiven? assignments name <;> rfl
  · intro name
    rw [← isSome_lastGiven?, Bool.not_eq_true, Option.isSome_eq_false_iff, Option.isNone_iff_eq_none]
  · intro name value
    rw [mem_toList, get?_assigned]
  · intro name
    have hnames : name ∈ store.toList.map Prod.fst ↔ name ∈ assignments.map Prod.fst := by
      rw [mem_names, get?_assigned, isSome_lastGiven?]
    rw [(nodup_names store).count]
    exact if_congr hnames rfl rfl
  · intro others hsame
    have hlist : (assigned others).toList = store.toList := by
      apply toList_eq_of_forall_get?
      intro name
      rw [get?_assigned, get?_assigned, hsame]
    exact ⟨hlist, by rw [dumpText, dumpText, hlist]⟩

/-- Overwriting with a value of another type, and the same values in another order. -/
theorem assigned_canonical_overwritten :
    let first := [("나", .text "둘"), ("가", .text "하나"), ("나", .number 2), ("a", .number 1)]
    let second := [("a", .number 1), ("나", .number 2), ("가", .text "하나")]
    (∀ name, lastGiven? second name = lastGiven? first name) ∧
      (assigned first).get? "나" = some (.number 2) ∧
      locate 3 ((assigned first).lookup "다") = .error ⟨3, .undefinedVariable "다"⟩ ∧
      (assigned first).size = 3 ∧
      ("나", .number 2) ∈ (assigned first).toList ∧
      dumpText (assigned second) = dumpText (assigned first) := by
  intro first second
  have hsame : ∀ name, lastGiven? second name = lastGiven? first name := by
    intro name
    simp only [lastGiven?, first, second, List.reverse_cons, List.reverse_nil, List.nil_append,
      List.cons_append, List.lookup_cons, List.lookup_nil]
    grind
  obtain ⟨hlookup, -, hsize, -, -, hmem, -, hlist⟩ := assigned_canonical first 3
  exact ⟨hsame, (hlookup "나").1, (hlookup "다").2.2, hsize, (hmem "나" _).mpr rfl,
    (hlist second hsame).2⟩

end Store

end KoreanScript
