import ContextFree.Proofs.Operation
import ContextFree.Proofs.UnitFree
import Mathlib.Algebra.GroupWithZero.Nat

namespace ContextFree

open Std Relation

section

variable {α : Type} [Ord α] [TransOrd α] {xs ys : List α}

theorem nodup_of_ordered (ordered : xs.Pairwise fun x y => compare x y = .lt) : xs.Nodup := by
  refine ordered.imp fun {x y} less equal => ?_
  have same : compare y y = .eq := ReflCmp.compare_self
  rw [equal, same] at less
  cases less

/-- Lists in increasing order are equal if they have the same members. -/
theorem eq_of_ordered (first : xs.Pairwise fun x y => compare x y = .lt)
    (second : ys.Pairwise fun x y => compare x y = .lt) (same : ∀ x, x ∈ xs ↔ x ∈ ys) : xs = ys := by
  have perm : xs.Perm ys := (List.perm_ext_iff_of_nodup (nodup_of_ordered first) (nodup_of_ordered second)).mpr same
  refine perm.eq_of_pairwise (fun x y _ _ less greater => ?_) first second
  exact absurd greater (OrientedCmp.not_lt_of_lt less)

end

section

variable {β : Type} (rows : ExtTreeMap Name β) (fallback : β)

theorem getElem?_eq_ite_getD (a : Name) : rows[a]? = if a ∈ rows then some (rows.getD a fallback) else none := by
  simp only [ExtTreeMap.getD_eq_getD_getElem?, ExtTreeMap.mem_iff_isSome_getElem?]
  cases rows[a]? <;> rfl

theorem getD_insert_eq_ite (a b : Name) (entry : β) :
    (rows.insert a entry).getD b fallback = if a = b then entry else rows.getD b fallback := by
  rw [ExtTreeMap.getD_insert]
  simp only [LawfulEqCmp.compare_eq_iff_eq]

theorem mem_toList_iff_getD {entry : Name × β} :
    entry ∈ rows.toList ↔ entry.1 ∈ rows ∧ entry.2 = rows.getD entry.1 fallback := by
  obtain ⟨a, row⟩ := entry
  rw [ExtTreeMap.mem_toList_iff_getElem?_eq_some, getElem?_eq_ite_getD rows fallback, Option.ite_none_right_eq_some,
    Option.some_inj, eq_comm (a := row)]

end

/-- Two searches go the same way if `view` takes the steps of one to the steps of the other and
shows every change. -/
theorem map_trail {α β : Type} [DecidableEq α] [DecidableEq β] {step : α → α} {missing : α → Nat}
    {shrinks : ∀ s, step s ≠ s → missing (step s) < missing s} {other : β → β} {lacking : β → Nat}
    {reduces : ∀ t, other t ≠ t → lacking (other t) < lacking t} {view : α → β} (holds : α → Prop)
    (kept : ∀ s, holds s → holds (step s)) (follows : ∀ s, holds s → view (step s) = other (view s))
    (shows : ∀ s, holds s → view (step s) = view s → step s = s) {s : α} (initial : holds s) :
    (trail step missing shrinks s).map view = trail other lacking reduces (view s) := by
  fun_induction trail step missing shrinks s with
  | case1 s settled =>
    have still : other (view s) = view s := by rw [← follows s initial, settled]
    rw [trail_eq (view s), if_pos still, List.map_singleton]
  | case2 s unsettled ih =>
    have moves : other (view s) ≠ view s := by
      rw [← follows s initial]
      exact fun same => unsettled (shows s initial same)
    rw [trail_eq (view s), if_neg moves, List.map_cons, ih (kept s initial), follows s initial]

/-- A relation kept by rows, each source with its targets. -/
abbrev UnitRows := ExtTreeMap Name NameSet

namespace UnitRows

/-- The targets of a source. One without a row has none. -/
def row (rows : UnitRows) (a : Name) : NameSet := rows.getD a ∅

def contains (rows : UnitRows) (a b : Name) : Bool := rows[a]?.any (·.contains b)

/-- The pairs row by row. -/
def pairs (rows : UnitRows) : List UnitPair :=
  rows.toList.flatMap fun entry => entry.2.toList.map (UnitPair.mk entry.1)

def len (rows : UnitRows) : Nat := (rows.toList.map fun entry => entry.2.size).sum

/-- Puts a pair into the row of its source, which is made if there is none. -/
def enter (rows : UnitRows) (x : UnitPair) : UnitRows :=
  rows.insert x.source ((rows.row x.source).insert x.target)

/-- Adds the targets of the targets of a row to the row. A target without a row adds nothing. -/
def extendRow (rows : UnitRows) (a : Name) : UnitRows :=
  rows.insert a ((rows.row a).insertMany ((rows.row a).toList.flatMap fun b => (rows.row b).toList))

/-- Extends some rows in order; a row extended earlier counts as extended. -/
def extend (rows : UnitRows) (heads : List Name) : UnitRows :=
  heads.foldl extendRow rows

def relation (rows : UnitRows) : UnitRelation := .ofList rows.pairs

variable {rows other : UnitRows}

theorem getElem?_eq (rows : UnitRows) (a : Name) : rows[a]? = if a ∈ rows then some (rows.row a) else none :=
  getElem?_eq_ite_getD rows ∅ a

theorem row_insert (rows : UnitRows) (a b : Name) (targets : NameSet) :
    UnitRows.row (rows.insert a targets) b = if a = b then targets else rows.row b :=
  getD_insert_eq_ite rows ∅ a b targets

theorem mem_insert_iff {a b : Name} {targets : NameSet} : b ∈ rows.insert a targets ↔ a = b ∨ b ∈ rows := by
  rw [ExtTreeMap.mem_insert, LawfulEqCmp.compare_eq_iff_eq]

theorem contains_iff {a b : Name} : rows.contains a b = true ↔ b ∈ rows.row a := by
  rw [contains, row, ExtTreeMap.getD_eq_getD_getElem?]
  cases rows[a]? with
  | none => simp
  | some targets => simp

theorem mem_pairs {x : UnitPair} : x ∈ rows.pairs ↔ x.target ∈ rows.row x.source := by
  obtain ⟨a, b⟩ := x
  simp only [pairs, List.mem_flatMap, List.mem_map, ExtTreeSet.mem_toList, UnitPair.mk.injEq]
  rw [← contains_iff, contains, Option.any_eq_true]
  constructor
  · intro found
    obtain ⟨⟨c, targets⟩, member, d, inside, rfl, rfl⟩ := found
    exact ⟨targets, ExtTreeMap.mem_toList_iff_getElem?_eq_some.mp member, ExtTreeSet.contains_iff_mem.mpr inside⟩
  · intro found
    obtain ⟨targets, stands, inside⟩ := found
    exact ⟨(a, targets), ExtTreeMap.mem_toList_iff_getElem?_eq_some.mpr stands, b,
      ExtTreeSet.contains_iff_mem.mp inside, rfl, rfl⟩

theorem mem_relation {x : UnitPair} : x ∈ rows.relation ↔ x.target ∈ rows.row x.source := by
  rw [relation, FiniteSet.mem_ofList_iff, mem_pairs]

/-- Rows follow each other by source, and the pairs of one row by target. -/
theorem pairs_ordered (rows : UnitRows) : rows.pairs.Pairwise fun x y => compare x y = .lt := by
  refine List.pairwise_flatMap.mpr ⟨fun entry _ => ?_, ?_⟩
  · refine List.pairwise_map.mpr (ExtTreeSet.ordered_toList.imp fun {b d} less => ?_)
    have same : compare entry.1 entry.1 = .eq := ReflCmp.compare_self
    change (compare entry.1 entry.1).then (compare b d) = .lt
    rw [same]
    exact less
  · refine ExtTreeMap.ordered_keys_toList.imp fun {first second} less x inFirst y inSecond => ?_
    obtain ⟨b, _, rfl⟩ := List.mem_map.mp inFirst
    obtain ⟨d, _, rfl⟩ := List.mem_map.mp inSecond
    change (compare first.1 second.1).then (compare b d) = .lt
    rw [less]
    rfl

theorem pairs_eq (rows : UnitRows) : rows.pairs = rows.relation.toList := by
  refine eq_of_ordered rows.pairs_ordered ExtTreeSet.ordered_toList fun x => ?_
  rw [ExtTreeSet.mem_toList, relation, FiniteSet.mem_ofList_iff]

theorem len_eq (rows : UnitRows) : rows.len = rows.pairs.length := by
  simp only [len, pairs, List.length_flatMap, List.length_map, ExtTreeSet.length_toList]

/-- Rows are known by their sources and their pairs. -/
theorem ext_relation (sources : ∀ a, a ∈ rows ↔ a ∈ other) (same : rows.relation = other.relation) : rows = other := by
  refine ExtTreeMap.ext_getElem? fun a => ?_
  have targets : rows.row a = other.row a := by
    refine ExtTreeSet.ext_mem fun b => ?_
    rw [← mem_relation (x := ⟨a, b⟩), same, mem_relation]
  rw [getElem?_eq, getElem?_eq, targets]
  simp only [sources a]

theorem relation_extendRow (rows : UnitRows) (a : Name) : (rows.extendRow a).relation = rows.relation.extendRow a := by
  refine ExtTreeSet.ext_mem fun x => ?_
  rw [mem_relation, extendRow, row_insert, UnitRelation.mem_extendRow]
  simp only [mem_relation]
  by_cases here : a = x.source
  · subst here
    rw [if_pos rfl, FiniteSet.mem_insertMany_iff, List.mem_flatMap]
    simp only [ExtTreeSet.mem_toList, true_and]
  · rw [if_neg here, or_iff_left fun found => here found.1.symm]

theorem relation_extend (rows : UnitRows) (heads : List Name) :
    (rows.extend heads).relation = rows.relation.extend heads := by
  induction heads generalizing rows with
  | nil => rfl
  | cons a rest ih => exact (ih _).trans (congrArg (UnitRelation.extend · rest) (relation_extendRow rows a))

theorem mem_extend {heads : List Name} {a : Name} : a ∈ rows.extend heads ↔ a ∈ rows ∨ a ∈ heads := by
  induction heads generalizing rows with
  | nil => simp [extend]
  | cons b rest ih =>
    refine ih.trans ?_
    rw [extendRow, mem_insert_iff, List.mem_cons, eq_comm, or_assoc, or_left_comm]

/-- Rows get longer, but there are no more of them. -/
theorem keys_extend (rows : UnitRows) : (rows.extend rows.keys).keys = rows.keys := by
  refine eq_of_ordered ExtTreeMap.ordered_keys ExtTreeMap.ordered_keys fun a => ?_
  rw [ExtTreeMap.mem_keys, mem_extend, ExtTreeMap.mem_keys, or_self]

theorem extend_eq_self (same : (rows.extend rows.keys).relation = rows.relation) : rows.extend rows.keys = rows := by
  refine ext_relation (fun a => ?_) same
  rw [mem_extend, ExtTreeMap.mem_keys, or_self]

def missing (rows : UnitRows) : Nat :=
  (UnitRelation.candidates rows.keys rows.relation \ rows.relation).size

theorem extend_shrinks (rows : UnitRows) (changed : rows.extend rows.keys ≠ rows) :
    (rows.extend rows.keys).missing < rows.missing := by
  rw [missing, keys_extend, relation_extend]
  refine UnitRelation.extend_shrinks rows.keys rows.relation fun same => changed (extend_eq_self ?_)
  rw [relation_extend, same]

/-- The rows that rounds over all of them go through until a round adds nothing. -/
def extensions : UnitRows → List UnitRows :=
  trail (fun rows => rows.extend rows.keys) missing extend_shrinks

/-- The rows to which a round over all of them adds nothing more. -/
def closure : UnitRows → UnitRows :=
  settle (fun rows => rows.extend rows.keys) missing extend_shrinks

def ofPairs (xs : List UnitPair) : UnitRows := xs.foldl enter ∅

theorem mem_foldl_enter {xs : List UnitPair} {a : Name} :
    a ∈ xs.foldl enter rows ↔ a ∈ rows ∨ ∃ x ∈ xs, x.source = a := by
  induction xs generalizing rows with
  | nil => simp
  | cons x rest ih =>
    rw [List.foldl_cons, ih, enter, mem_insert_iff, List.exists_mem_cons_iff, or_assoc, or_left_comm]

theorem mem_relation_foldl_enter {xs : List UnitPair} {y : UnitPair} :
    y ∈ relation (xs.foldl enter rows) ↔ y ∈ rows.relation ∨ y ∈ xs := by
  induction xs generalizing rows with
  | nil => simp
  | cons x rest ih =>
    have entered : y ∈ (rows.enter x).relation ↔ y = x ∨ y ∈ rows.relation := by
      obtain ⟨a, b⟩ := x
      obtain ⟨c, d⟩ := y
      rw [mem_relation, mem_relation, enter, row_insert, UnitPair.mk.injEq]
      by_cases same : a = c
      · subst same
        rw [if_pos rfl, FiniteSet.mem_insert_iff, and_iff_right rfl]
      · rw [if_neg same, or_iff_right fun equal => same equal.1.symm]
    rw [List.foldl_cons, ih, entered, List.mem_cons, or_assoc, or_left_comm]

theorem relation_ofPairs (xs : List UnitPair) : (ofPairs xs).relation = .ofList xs := by
  refine ExtTreeSet.ext_mem fun x => ?_
  rw [ofPairs, mem_relation_foldl_enter, FiniteSet.mem_ofList_iff, or_iff_right]
  rw [mem_relation, row, ExtTreeMap.getD_empty]
  exact ExtTreeSet.not_mem_empty

/-- No row is made but for a pair. -/
theorem keys_ofPairs (xs : List UnitPair) : (ofPairs xs).keys = (ofPairs xs).relation.sources.toList := by
  refine eq_of_ordered ExtTreeMap.ordered_keys ExtTreeSet.ordered_toList fun a => ?_
  rw [ExtTreeMap.mem_keys, ofPairs, mem_foldl_enter, or_iff_right ExtTreeMap.not_mem_empty, ExtTreeSet.mem_toList,
    ← ofPairs, relation_ofPairs]
  simp [UnitRelation.sources]

/-- Rows are extended round by round as the relation is that they keep. -/
theorem relation_extensions (xs : List UnitPair) :
    (ofPairs xs).extensions.map relation = (ofPairs xs).relation.extensions := by
  refine map_trail (fun rows => rows.keys = (ofPairs xs).keys) (fun rows same => ?_) (fun rows same => ?_)
    (fun rows _ => extend_eq_self) rfl
  · rw [keys_extend, same]
  · rw [relation_extend, same, keys_ofPairs]

theorem relation_closure (xs : List UnitPair) : (ofPairs xs).closure.relation = (ofPairs xs).relation.closure := by
  have last := congrArg List.getLast? (relation_extensions xs)
  rw [List.getLast?_map, extensions, UnitRelation.extensions, List.getLast?_eq_some_getLast (trail_ne_nil _),
    List.getLast?_eq_some_getLast (trail_ne_nil _)] at last
  exact Option.some.inj last

end UnitRows

namespace Grammar

variable {g : Grammar}

/-- The unit pairs, kept by rows: a row for each declared nonterminal, which stands in it itself, and
for each left-hand side of a unit production. -/
def unitRows (g : Grammar) : UnitRows :=
  (UnitRows.ofPairs (g.nonterminals.toList.map (fun a => UnitPair.mk a a) ++
    g.productions.toList.filterMap fun p => p.unitTarget.map (UnitPair.mk p.lhs))).closure

theorem relation_unitRows (g : Grammar) : g.unitRows.relation = g.unitPairs := by
  rw [unitRows, UnitRows.relation_closure, UnitRows.relation_ofPairs]
  rfl

/-- The rows that are extended in place until nothing changes end up with the chains of unit
productions: every chain from a declared nonterminal to any nonterminal, and nothing else. They list
the pairs in order and each of them once. -/
theorem Built.unitRows_exact (built : g.Built) :
    (∀ a b, g.unitRows.contains a b = true ↔ a ∈ g.nonterminals ∧ ReflTransGen g.UnitStep a b) ∧
      (∀ a b, ⟨a, b⟩ ∈ g.unitRows.pairs ↔ a ∈ g.nonterminals ∧ ReflTransGen g.UnitStep a b) ∧
      (g.unitRows.pairs.Pairwise fun x y => compare x y = .lt) ∧ g.unitRows.pairs.Nodup ∧
      g.unitRows.len = g.unitRows.pairs.length ∧
      g.unitRows.pairs = g.unitPairs.toList ∧ g.unitRows.len = g.unitPairs.size := by
  have ordered := g.unitRows.pairs_ordered
  have listed : g.unitRows.pairs = g.unitPairs.toList := by rw [UnitRows.pairs_eq, relation_unitRows]
  have pairs (a b : Name) : ⟨a, b⟩ ∈ g.unitRows.pairs ↔ a ∈ g.nonterminals ∧ ReflTransGen g.UnitStep a b := by
    rw [listed, ExtTreeSet.mem_toList, mem_unitPairs_iff built.coherent]
  refine ⟨fun a b => ?_, pairs, ordered, nodup_of_ordered ordered, g.unitRows.len_eq, listed, ?_⟩
  · rw [UnitRows.contains_iff, ← pairs, UnitRows.mem_pairs]
  · rw [UnitRows.len_eq, listed, ExtTreeSet.length_toList]

/-- A grammar with a cycle of unit productions that can be left to a nonterminal which is not
declared. -/
def looped : Grammar :=
  (ofStart "S").after [.declareNonterminal "A", .addProduction ⟨"S", [.nonterminal "A"]⟩,
    .addProduction ⟨"A", [.nonterminal "S"]⟩, .addProduction ⟨"A", [.nonterminal "Z"]⟩]

theorem looped_unitRows : looped.Built ∧ looped.unitRows.contains "S" "Z" = true ∧
    looped.unitRows.contains "S" "S" = true ∧ ¬ looped.unitRows.contains "Z" "Z" = true := by
  have built : looped.Built := ⟨_, _, .ofStart _, rfl⟩
  have declared : "S" ∈ looped.nonterminals := by decide +kernel
  have undeclared : "Z" ∉ looped.nonterminals := by decide +kernel
  have forth : looped.UnitStep "S" "A" := by
    rw [UnitStep]
    decide +kernel
  have back : looped.UnitStep "A" "S" := by
    rw [UnitStep]
    decide +kernel
  have out : looped.UnitStep "A" "Z" := by
    rw [UnitStep]
    decide +kernel
  obtain ⟨contains, _⟩ := built.unitRows_exact
  refine ⟨built, (contains _ _).mpr ⟨declared, ?_⟩, (contains _ _).mpr ⟨declared, ?_⟩, fun found => ?_⟩
  · exact .tail (.single forth) out
  · exact .tail (.single forth) back
  · exact undeclared ((contains _ _).mp found).1

end Grammar

end ContextFree
