import ContextFree.Log.Narration
import ContextFree.Proofs.Nullability
import ContextFree.Proofs.Pruning
import ContextFree.Proofs.UnitRows
import Mathlib.Data.List.Perm.Subperm
import Mathlib.Data.Nat.Log

namespace ContextFree

open Std Relation

/-- What a loop reports when it comes to a round. -/
def Log.iteration (component : Component) (subject : String) (i : Nat) : Record :=
  ⟨.trace, component, s!"{subject} iteration {i}"⟩

theorem Log.rounds_eq (component : Component) (subject : String) (n : Nat) :
    rounds component subject n = (List.range' 1 n).map (iteration component subject) := by
  rw [List.range'_eq_map_range, List.map_map, rounds]
  refine List.map_congr_left fun i _ => ?_
  rw [Function.comp_apply, Nat.add_comm 1 i, iteration]

/-- A loop with nothing to bound its rounds. A round is reported under its number and then carried
out, and the first one that notes no change is the last: the loop that comes to round `i` with `s`
breaks in round `k` with `t`. -/
inductive Runs {α : Type} (round : α → α × Bool) (report : Nat → Log.Record) :
    (i : Nat) → (s : α) → (log : List Log.Record) → (k : Nat) → (t : α) → Prop
  | last {i : Nat} {s t : α} : round s = (t, false) → Runs round report i s [report i] i t
  | next {i k : Nat} {s t u : α} {log : List Log.Record} : round s = (t, true) →
      Runs round report (i + 1) t log k u → Runs round report i s (report i :: log) k u

/-- The loop that starts with `s` breaks in round `last` with `t`, and in no other way. Its rounds are
numbered from 1. -/
def Breaks {α : Type} (round : α → α × Bool) (component : Log.Component) (subject : String) (s : α) (last : Nat)
    (t : α) : Prop :=
  ∀ log k u, Runs round (Log.iteration component subject) 1 s log k u ↔
    log = Log.rounds component subject last ∧ k = last ∧ u = t

section

variable {α β : Type} {round : α → α × Bool} {report : Nat → Log.Record}

theorem Runs.unique {i k l : Nat} {s t u : α} {log other : List Log.Record} (run : Runs round report i s log k t)
    (again : Runs round report i s other l u) : log = other ∧ k = l ∧ t = u := by
  induction run generalizing other l u with
  | last settled =>
    cases again with
    | last same =>
      cases settled.symm.trans same
      exact ⟨rfl, rfl, rfl⟩
    | next changed => cases settled.symm.trans changed
  | next changed _ ih =>
    cases again with
    | last settled => cases changed.symm.trans settled
    | next same behind =>
      cases changed.symm.trans same
      obtain ⟨rfl, rfl, rfl⟩ := ih behind
      exact ⟨rfl, rfl, rfl⟩

variable [DecidableEq β] {step : β → β} {missing : β → Nat} {shrinks : ∀ s, step s ≠ s → missing (step s) < missing s}
  (view : α → β)

/-- A loop that notes exactly the changes of a search takes a round for each of its states. -/
theorem exists_runs (report : Nat → Log.Record) (steps : ∀ s, view (round s).1 = step (view s))
    (notes : ∀ s, (round s).2 = true ↔ step (view s) ≠ view s) (i : Nat) (s : α) :
    ∃ t, view t = settle step missing shrinks (view s) ∧
      Runs round report (i + 1) s ((List.range' (i + 1) (trail step missing shrinks (view s)).length).map report)
        (i + (trail step missing shrinks (view s)).length) t := by
  generalize same : view s = seen
  fun_induction trail step missing shrinks seen generalizing i s with
  | case1 seen settled =>
    subst same
    have silent : (round s).2 = false := Bool.eq_false_iff.mpr fun noted => (notes s).mp noted settled
    refine ⟨(round s).1, ?_, .last (Prod.ext rfl silent)⟩
    rw [steps, settle_eq, if_pos settled, settled]
  | case2 seen unsettled ih =>
    subst same
    have noted : (round s).2 = true := (notes s).mpr unsettled
    obtain ⟨t, final, run⟩ := ih (i + 1) (round s).1 (steps s)
    refine ⟨t, ?_, ?_⟩
    · rw [settle_eq, if_neg unsettled, final]
    · rw [Nat.add_right_comm i 1 (List.length _)] at run
      exact .next (Prod.ext rfl noted) run

theorem exists_breaks (steps : ∀ s, view (round s).1 = step (view s))
    (notes : ∀ s, (round s).2 = true ↔ step (view s) ≠ view s) (component : Log.Component) (subject : String) (s : α) :
    ∃ t, view t = settle step missing shrinks (view s) ∧
      Breaks round component subject s (trail step missing shrinks (view s)).length t := by
  obtain ⟨t, final, run⟩ := exists_runs view (Log.iteration component subject) steps notes 0 s
  rw [Nat.zero_add, Nat.zero_add, ← Log.rounds_eq] at run
  refine ⟨t, final, fun log k u => ⟨fun other => other.unique run, ?_⟩⟩
  rintro ⟨rfl, rfl, rfl⟩
  exact run

/-- A search is over when its steps have come to a state that stays. -/
theorem length_trail_le_of_iterate {k : Nat} {s : β} (settled : step (step^[k] s) = step^[k] s) :
    (trail step missing shrinks s).length ≤ k + 1 := by
  induction k generalizing s with
  | zero =>
    rw [Function.iterate_zero_apply] at settled
    rw [trail_eq, if_pos settled, List.length_singleton]
  | succ k ih =>
    rw [trail_eq]
    split
    · simp
    · rw [List.length_cons]
      exact Nat.succ_le_succ (ih settled)

end

section

variable {α β ι : Type} {step : α → ι → α} {note : α × Bool → ι → α × Bool} (view : α → β) (size : β → Nat)
  (grows : ∀ s x, view (step s x) = view s ∨ size (view s) < size (view (step s x)))
include grows

/-- Where every change makes something larger, nothing is changed back. -/
theorem foldl_eq_or_lt (xs : List ι) (s : α) :
    view (xs.foldl step s) = view s ∨ size (view s) < size (view (xs.foldl step s)) := by
  induction xs generalizing s with
  | nil => exact .inl rfl
  | cons x rest ih =>
    rw [List.foldl_cons]
    rcases grows s x with same | larger
    · rw [← same]
      exact ih (step s x)
    · rcases ih (step s x) with still | later
      · rw [still]
        exact .inr larger
      · exact .inr (larger.trans later)

/-- A pass that notes each change notes whether there is one in the end. -/
theorem foldl_noting (notes : ∀ s noted x, (note (s, noted) x).1 = step s x ∧
      ((note (s, noted) x).2 = true ↔ noted = true ∨ view (step s x) ≠ view s)) (xs : List ι) (s : α) (noted : Bool) :
    (xs.foldl note (s, noted)).1 = xs.foldl step s ∧
      ((xs.foldl note (s, noted)).2 = true ↔ noted = true ∨ view (xs.foldl step s) ≠ view s) := by
  induction xs generalizing s noted with
  | nil => simp
  | cons x rest ih =>
    obtain ⟨state, flag⟩ := notes s noted x
    have split : note (s, noted) x = (step s x, (note (s, noted) x).2) := Prod.ext state rfl
    obtain ⟨final, flags⟩ := ih (step s x) (note (s, noted) x).2
    rw [List.foldl_cons, List.foldl_cons, split]
    refine ⟨final, flags.trans ?_⟩
    rw [flag, or_assoc]
    refine or_congr_right ?_
    rcases grows s x with same | larger
    · rw [same, or_iff_right (not_not_intro rfl)]
    · refine iff_of_true (.inl fun same => ?_) fun same => ?_
      · rw [same] at larger
        exact lt_irrefl _ larger
      · rcases foldl_eq_or_lt view size grows rest (step s x) with still | later
        · rw [← same, still] at larger
          exact lt_irrefl _ larger
        · rw [same] at later
          exact lt_asymm larger later

end

namespace UnitRows

/-- Puts a target into a row and notes whether it is a new one. -/
def put (noted : NameSet × Bool) (b : Name) : NameSet × Bool :=
  (noted.1.insert b, noted.2 || !noted.1.contains b)

/-- Collects the targets of the targets of a row and puts them into the row one by one. -/
def noteRow (noted : UnitRows × Bool) (a : Name) : UnitRows × Bool :=
  let found : NameSet := .ofList ((noted.1.row a).toList.flatMap fun b => (noted.1.row b).toList)
  let into := found.toList.foldl put (noted.1.row a, noted.2)
  (noted.1.insert a into.1, into.2)

/-- A round over all rows, which notes whether any of them gets longer. -/
def note (rows : UnitRows) : UnitRows × Bool :=
  rows.keys.foldl noteRow (rows, false)

variable {rows : UnitRows}

theorem foldl_put (found : List Name) (targets : NameSet) (noted : Bool) :
    (found.foldl put (targets, noted)).1 = targets.insertMany found ∧
      ((found.foldl put (targets, noted)).2 = true ↔ noted = true ∨ targets.insertMany found ≠ targets) := by
  have many : found.foldl (·.insert ·) targets = targets.insertMany found := by
    induction found generalizing targets with
    | nil => rfl
    | cons b rest ih => rw [List.foldl_cons, ih, ExtTreeSet.insertMany_cons]
  rw [← many]
  refine foldl_noting id ExtTreeSet.size (fun into b => ?_) (fun into noted b => ⟨rfl, ?_⟩) _ _ _
  · exact FiniteSet.eq_or_size_lt fun a old => FiniteSet.mem_insert_iff.mpr (.inr old)
  · simp [put, FiniteSet.insert_eq_self_iff, ← ExtTreeSet.contains_iff_mem]

/-- What is noted of a row is noted of the relation. -/
theorem noteRow_spec (rows : UnitRows) (noted : Bool) (a : Name) :
    (noteRow (rows, noted) a).1 = rows.extendRow a ∧
      ((noteRow (rows, noted) a).2 = true ↔ noted = true ∨ (rows.extendRow a).relation ≠ rows.relation) := by
  have into : (rows.row a).insertMany (ExtTreeSet.ofList ((rows.row a).toList.flatMap fun b => (rows.row b).toList) :
      NameSet).toList = (rows.row a).insertMany ((rows.row a).toList.flatMap fun b => (rows.row b).toList) := by
    refine ExtTreeSet.ext_mem fun b => ?_
    simp only [FiniteSet.mem_insertMany_iff, ExtTreeSet.mem_toList, FiniteSet.mem_ofList_iff]
  obtain ⟨state, flag⟩ := foldl_put (ExtTreeSet.ofList ((rows.row a).toList.flatMap fun b => (rows.row b).toList) :
    NameSet).toList (rows.row a) noted
  rw [into] at state flag
  refine ⟨?_, flag.trans (or_congr_right (not_congr ⟨fun same => ?_, fun same => ?_⟩))⟩
  · rw [noteRow, extendRow]
    exact congrArg (rows.insert a) state
  · refine ExtTreeSet.ext_mem fun x => ?_
    rw [mem_relation, mem_relation, extendRow, row_insert, same]
    split
    · next here => rw [here]
    · rfl
  · refine ExtTreeSet.ext_mem fun b => ?_
    have member := (Iff.of_eq (congrArg (⟨a, b⟩ ∈ ·) same))
    rwa [mem_relation, mem_relation, extendRow, row_insert, if_pos rfl] at member

theorem mem_relation_extendRow_of_mem (rows : UnitRows) (a : Name) :
    ∀ x ∈ rows.relation, x ∈ (rows.extendRow a).relation := by
  intro x old
  rw [relation_extendRow]
  exact UnitRelation.mem_extendRow.mpr (.inl old)

theorem note_spec (rows : UnitRows) :
    rows.note.1 = rows.extend rows.keys ∧ (rows.note.2 = true ↔ rows.extend rows.keys ≠ rows) := by
  obtain ⟨state, flag⟩ := foldl_noting relation ExtTreeSet.size
    (fun rows a => FiniteSet.eq_or_size_lt (rows.mem_relation_extendRow_of_mem a)) noteRow_spec rows.keys rows false
  refine ⟨state, flag.trans ?_⟩
  rw [or_iff_right Bool.false_ne_true]
  exact not_congr ⟨extend_eq_self, fun same => congrArg relation same⟩

end UnitRows

/-! ### Chains of unit productions and how far rows reach -/

namespace Grammar

/-- Unit productions lead from one nonterminal to another. Their left-hand sides are listed. -/
inductive UnitPath (g : Grammar) : List Name → Name → Name → Prop
  | nil (a : Name) : UnitPath g [] a a
  | cons {a b d : Name} {path : List Name} : g.UnitStep a b → UnitPath g path b d → UnitPath g (a :: path) a d

variable {g : Grammar} {path : List Name} {a b d : Name}

theorem UnitPath.split (way : g.UnitPath path a d) (n : Nat) :
    ∃ b, g.UnitPath (path.take n) a b ∧ g.UnitPath (path.drop n) b d := by
  induction way generalizing n with
  | nil a =>
    rw [List.take_nil, List.drop_nil]
    exact ⟨a, .nil a, .nil a⟩
  | @cons a b d path step rest ih =>
    cases n with
    | zero => exact ⟨a, .nil a, .cons step rest⟩
    | succ n =>
      obtain ⟨c, first, second⟩ := ih n
      exact ⟨c, .cons step first, second⟩

theorem UnitPath.heads (coherent : g.Coherent) (way : g.UnitPath path a b) : ∀ c ∈ path, c ∈ g.nonterminals := by
  induction way with
  | nil a => exact List.forall_mem_nil _
  | cons step _ ih => exact List.forall_mem_cons.mpr ⟨coherent.heads _ step, ih⟩

theorem UnitPath.eq_or_declared (coherent : g.Coherent) (way : g.UnitPath path a b) : a = b ∨ a ∈ g.nonterminals := by
  cases way with
  | nil => exact .inl rfl
  | cons step _ => exact .inr (coherent.heads _ step)

/-- A way can be joined wherever it leads through. -/
theorem UnitPath.from_mem (way : g.UnitPath path a d) {c : Name} (member : c ∈ path) :
    ∃ rest, (c :: rest) <:+ path ∧ g.UnitPath (c :: rest) c d := by
  induction way with
  | nil a => cases member
  | @cons a b d path step behind ih =>
    rcases List.mem_cons.mp member with rfl | later
    · exact ⟨path, List.suffix_rfl, .cons step behind⟩
    · obtain ⟨rest, isSuffix, way⟩ := ih later
      exact ⟨rest, isSuffix.trans (List.suffix_cons _ _), way⟩

/-- No left-hand side is needed twice. -/
theorem exists_nodup_unitPath (chain : ReflTransGen g.UnitStep a d) : ∃ path, g.UnitPath path a d ∧ path.Nodup := by
  induction chain using ReflTransGen.head_induction_on with
  | refl => exact ⟨[], .nil d, .nil⟩
  | @head a b step _ ih =>
    obtain ⟨path, way, distinct⟩ := ih
    by_cases member : a ∈ path
    · obtain ⟨rest, isSuffix, shorter⟩ := way.from_mem member
      exact ⟨a :: rest, shorter, isSuffix.sublist.nodup distinct⟩
    · exact ⟨a :: path, .cons step way, List.nodup_cons.mpr ⟨member, distinct⟩⟩

/-- There is a way with no more steps than there are declared nonterminals, even if it leads to one that is not. -/
theorem Coherent.exists_short_unitPath (coherent : g.Coherent) (chain : ReflTransGen g.UnitStep a b) :
    ∃ path, g.UnitPath path a b ∧ path.length ≤ g.nonterminals.size := by
  obtain ⟨path, way, distinct⟩ := exists_nodup_unitPath chain
  refine ⟨path, way, ?_⟩
  have inside : path ⊆ g.nonterminals.toList := fun c member => ExtTreeSet.mem_toList.mpr (way.heads coherent c member)
  rw [← ExtTreeSet.length_toList]
  exact (distinct.subperm inside).length_le

end Grammar

namespace UnitRelation

/-- A round makes a pair of every two that meet in its rows. -/
theorem mem_extend_of_pair {r : UnitRelation} {sources : List Name} {a b d : Name} (isSource : a ∈ sources)
    (outer : ⟨a, b⟩ ∈ r) (inner : ⟨b, d⟩ ∈ r) : ⟨a, d⟩ ∈ r.extend sources := by
  induction sources generalizing r with
  | nil => cases isSource
  | cons c rest ih =>
    rcases List.mem_cons.mp isSource with rfl | later
    · have added : ⟨a, d⟩ ∈ r.extendRow a := mem_extendRow.mpr (.inr ⟨rfl, b, outer, inner⟩)
      show ⟨a, d⟩ ∈ (r.extendRow a).extend rest
      exact mem_extend_of_mem added
    · exact ih later (mem_extendRow.mpr (.inl outer)) (mem_extendRow.mpr (.inl inner))

end UnitRelation

namespace UnitRows

variable {g : Grammar} {rows : UnitRows} {length : Nat}

/-- The chains of unit productions from declared nonterminals, up to a length, are in the rows. -/
def Covers (g : Grammar) (rows : UnitRows) (length : Nat) : Prop :=
  ∀ path a b, g.UnitPath path a b → path.length ≤ length → a ∈ g.nonterminals → rows.contains a b = true

theorem contains_iff_mem_relation {a b : Name} : rows.contains a b = true ↔ ⟨a, b⟩ ∈ rows.relation := by
  rw [contains_iff, mem_relation]

theorem mem_of_contains {a b : Name} (contained : rows.contains a b = true) : a ∈ rows := by
  obtain ⟨targets, stands, _⟩ := (Option.any_eq_true _ _).mp contained
  rw [ExtTreeMap.mem_iff_isSome_getElem?, stands]
  rfl

/-- A round puts two chains together, so that they may be twice as long. What rows have got in the same round can only
add to that. -/
theorem Covers.double (coherent : g.Coherent) (covers : rows.Covers g length) :
    (rows.extend rows.keys).Covers g (2 * length) := by
  intro path a d way short declared
  obtain ⟨b, first, second⟩ := way.split length
  have firstShort : (path.take length).length ≤ length := List.length_take_le length path
  have secondShort : (path.drop length).length ≤ length := by
    rw [List.length_drop]
    omega
  have outer : rows.contains a b = true := covers _ a b first firstShort declared
  have isKey : a ∈ rows.keys := ExtTreeMap.mem_keys.mpr (mem_of_contains outer)
  rw [contains_iff_mem_relation] at outer
  rw [contains_iff_mem_relation, relation_extend]
  rcases second.eq_or_declared coherent with rfl | further
  · exact UnitRelation.mem_extend_of_mem outer
  · have inner := contains_iff_mem_relation.mp (covers _ b d second secondShort further)
    exact UnitRelation.mem_extend_of_pair isKey outer inner

/-- What some rounds make of rows. -/
def after (rows : UnitRows) (k : Nat) : UnitRows :=
  (fun rows => rows.extend rows.keys)^[k] rows

theorem after_succ (rows : UnitRows) (k : Nat) :
    rows.after (k + 1) = (rows.after k).extend (rows.after k).keys :=
  Function.iterate_succ_apply' _ k rows

theorem Covers.after (coherent : g.Coherent) (covers : rows.Covers g 1) (k : Nat) :
    (rows.after k).Covers g (2 ^ k) := by
  induction k with
  | zero => exact covers
  | succ k ih =>
    rw [after_succ, Nat.pow_succ']
    exact ih.double coherent

/-- What is in the rows is a chain from a declared nonterminal. -/
def Sound (g : Grammar) (rows : UnitRows) : Prop :=
  ∀ x ∈ rows.relation, x.source ∈ g.nonterminals ∧ ReflTransGen g.UnitStep x.source x.target

theorem Sound.extend (sound : rows.Sound g) (heads : List Name) : (rows.extend heads).Sound g := by
  rw [Sound, relation_extend]
  refine UnitRelation.extend_induction (fun a b d first second => ?_) sound
  exact ⟨first.1, first.2.trans second.2⟩

theorem Sound.after (sound : rows.Sound g) (k : Nat) : (rows.after k).Sound g := by
  induction k with
  | zero => exact sound
  | succ k ih =>
    rw [after_succ]
    exact ih.extend _

/-- Once the shortest chains are covered, there is nothing left for a round to find. -/
theorem Covers.settled (coherent : g.Coherent) (covers : rows.Covers g length) (sound : rows.Sound g)
    (enough : g.nonterminals.size ≤ length) : rows.extend rows.keys = rows := by
  refine extend_eq_self (ExtTreeSet.ext_mem fun x => ⟨fun found => ?_, fun old => ?_⟩)
  · obtain ⟨declared, chain⟩ := sound.extend rows.keys x found
    obtain ⟨path, way, short⟩ := coherent.exists_short_unitPath chain
    exact contains_iff_mem_relation.mp (covers path _ _ way (short.trans enough) declared)
  · rw [relation_extend]
    exact UnitRelation.mem_extend_of_mem old

end UnitRows

namespace Grammar

variable {g : Grammar}

/-- The rows before the first round: each declared nonterminal and the targets of its unit productions. -/
def firstRows (g : Grammar) : UnitRows :=
  .ofPairs (g.nonterminals.toList.map (fun a => UnitPair.mk a a) ++
    g.productions.toList.filterMap fun p => p.unitTarget.map (UnitPair.mk p.lhs))

theorem relation_firstRows (g : Grammar) : g.firstRows.relation = g.unitSteps :=
  UnitRows.relation_ofPairs _

theorem length_extensions_firstRows (g : Grammar) : g.firstRows.extensions.length = g.unitSteps.extensions.length := by
  rw [← relation_firstRows, firstRows, ← UnitRows.relation_extensions, List.length_map]

theorem firstRows_covers (g : Grammar) : g.firstRows.Covers g 1 := by
  intro path a b way short declared
  rw [UnitRows.contains_iff_mem_relation, relation_firstRows, mem_unitSteps]
  cases way with
  | nil => exact .inl ⟨declared, rfl⟩
  | cons step rest =>
    cases rest with
    | nil => exact .inr step
    | cons _ _ => simp at short

theorem Coherent.firstRows_sound (coherent : g.Coherent) : g.firstRows.Sound g := by
  intro x first
  rw [relation_firstRows] at first
  rcases mem_unitSteps.mp first with ⟨declared, same⟩ | step
  · rw [same]
    exact ⟨same ▸ declared, .refl⟩
  · exact ⟨coherent.heads _ step, .single step⟩

theorem Coherent.length_extensions_le (coherent : g.Coherent) :
    g.unitSteps.extensions.length ≤ Nat.clog 2 g.nonterminals.size + 1 := by
  have enough : g.nonterminals.size ≤ 2 ^ Nat.clog 2 g.nonterminals.size := Nat.le_pow_clog Nat.one_lt_two _
  have covers := g.firstRows_covers.after coherent (Nat.clog 2 g.nonterminals.size)
  have settled := covers.settled coherent (coherent.firstRows_sound.after _) enough
  rw [← length_extensions_firstRows]
  exact length_trail_le_of_iterate settled

end Grammar

/-! ### The loops -/

/-- A round of the search for what can be reached. Only nonterminals that are met for the first time keep it going. -/
def Met.note (g : Grammar) (met : Met) : Met × Bool :=
  let into := met.round g
  (into, into.nonterminals != met.nonterminals)

theorem Met.eq_search_of_runs {g : Grammar} {report : Nat → Log.Record} {i k : Nat} {met last : Met}
    {log : List Log.Record} (run : Runs (note g) report i met log k last) : last = met.search g := by
  induction run with
  | @last i met last settled =>
    obtain ⟨rfl, same⟩ := Prod.mk.inj settled
    rw [search]
    simp_all
  | @next i k met between last log changed _ ih =>
    obtain ⟨rfl, different⟩ := Prod.mk.inj changed
    rw [ih, search.eq_def g met]
    simp_all

namespace Grammar

variable {g : Grammar}

/-- The nonterminals that are declared and those that are only mentioned. -/
def allNonterminals (g : Grammar) : NameSet := g.nonterminals ∪ g.mentioned

theorem breaks_mark (g : Grammar) (terminals : Bool) (component : Log.Component) (subject : String) (known : NameSet) :
    Breaks (mark terminals · g.productions.toList) component subject known (g.absorptions terminals known).length
      (g.absorbed terminals known) := by
  have steps (known : NameSet) : id (mark terminals known g.productions.toList).1 =
      absorb terminals known g.productions.toList := mark_fst
  have notes (known : NameSet) : (mark terminals known g.productions.toList).2 = true ↔
      absorb terminals known g.productions.toList ≠ known := mark_snd_iff
  have found : ∃ last, id last = g.absorbed terminals known ∧ Breaks (mark terminals · g.productions.toList) component
      subject known (g.absorptions terminals known).length last := exists_breaks id steps notes component subject known
  obtain ⟨_, rfl, breaks⟩ := found
  exact breaks

theorem breaks_note_met (g : Grammar) :
    Breaks (Met.note g) .useful "Reachable set" ⟨{g.start}, ∅⟩ g.reachableRounds.length g.met := by
  have notes (met : Met) : (met.note g).2 = true ↔ g.reach met.nonterminals ≠ met.nonterminals := by
    rw [Met.note, Met.round_nonterminals, bne_iff_ne]
  have found : ∃ last : Met, last.nonterminals = g.reachable ∧
      Breaks (Met.note g) .useful "Reachable set" ⟨{g.start}, ∅⟩ g.reachableRounds.length last :=
    exists_breaks Met.nonterminals (Met.round_nonterminals g) notes .useful "Reachable set" ⟨{g.start}, ∅⟩
  obtain ⟨last, _, breaks⟩ := found
  obtain rfl := Met.eq_search_of_runs ((breaks _ _ last).mpr ⟨rfl, rfl, rfl⟩)
  exact breaks

theorem breaks_note_rows (g : Grammar) :
    Breaks UnitRows.note .unitFree "Unit pair" g.firstRows g.unitSteps.extensions.length g.unitRows := by
  have found : ∃ last, id last = g.unitRows ∧
      Breaks UnitRows.note .unitFree "Unit pair" g.firstRows g.firstRows.extensions.length last :=
    exists_breaks id (fun rows => rows.note_spec.1) (fun rows => rows.note_spec.2) .unitFree "Unit pair" g.firstRows
  obtain ⟨_, rfl, breaks⟩ := found
  rwa [length_extensions_firstRows] at breaks

theorem Coherent.length_generatingPasses_le (coherent : g.Coherent) :
    g.generatingPasses.length ≤ g.nonterminals.size + 1 := by
  have passes : g.generatingPasses.length ≤ (g.heads \ ∅).size + 1 := length_trail_le ∅
  have inside : ∀ a ∈ g.heads \ ∅, a ∈ g.nonterminals := by
    intro a member
    obtain ⟨p, stored, rfl⟩ := mem_heads.mp (ExtTreeSet.mem_diff_iff.mp member).1
    exact coherent.heads p stored
  exact passes.trans (Nat.succ_le_succ (FiniteSet.size_le_of_subset inside))

theorem Coherent.length_reachableRounds_le (coherent : g.Coherent) :
    g.reachableRounds.length ≤ g.allNonterminals.size := by
  have fewer : (g.mentioned \ {g.start}).size < g.allNonterminals.size := by
    refine FiniteSet.size_lt_of_ssubset (x := g.start) (fun a member => ?_) ?_ ?_
    · exact ExtTreeSet.mem_union_iff.mpr (.inr (ExtTreeSet.mem_diff_iff.mp member).1)
    · exact ExtTreeSet.mem_union_iff.mpr (.inl coherent.start)
    · intro member
      exact (ExtTreeSet.mem_diff_iff.mp member).2 (FiniteSet.mem_singleton_iff.mpr rfl)
  have rounds : g.reachableRounds.length ≤ (g.mentioned \ {g.start}).size + 1 := length_trail_le {g.start}
  exact rounds.trans fewer

/-- None of the loops can go on for long. A pass of the searches for nullable and for generating nonterminals that is
not the last one finds a declared nonterminal, and a round of the search for reachable ones finds one that is declared
or mentioned. Rows of unit pairs need fewer rounds: each of them doubles the length of the chains that are covered, and
no chain has to be longer than there are declared nonterminals. -/
theorem Built.loops_break (built : g.Built) :
    (Breaks (mark false · g.productions.toList) .epsilonFree "Nullable set" g.epsilonHeads g.nullablePasses.length
        g.nullable ∧ g.nullablePasses.length ≤ g.nonterminals.size) ∧
      (Breaks (mark true · g.productions.toList) .useful "Generating set" ∅ g.generatingPasses.length g.generating ∧
        g.generatingPasses.length ≤ g.nonterminals.size + 1) ∧
      (Breaks (Met.note g) .useful "Reachable set" ⟨{g.start}, ∅⟩ g.reachableRounds.length g.met ∧
        g.reachableRounds.length ≤ g.allNonterminals.size) ∧
      (Breaks UnitRows.note .unitFree "Unit pair" g.firstRows g.unitSteps.extensions.length g.unitRows ∧
        g.unitSteps.extensions.length ≤ Nat.clog 2 g.nonterminals.size + 1) ∧
      g.firstRows.Covers g 1 ∧
      ∀ (rows : UnitRows) (length : Nat), rows.Covers g length → rows.note.1.Covers g (2 * length) := by
  have coherent := built.coherent
  refine ⟨⟨g.breaks_mark false _ _ _, coherent.length_nullablePasses_le⟩,
    ⟨g.breaks_mark true _ _ _, coherent.length_generatingPasses_le⟩,
    ⟨g.breaks_note_met, coherent.length_reachableRounds_le⟩, ⟨g.breaks_note_rows, coherent.length_extensions_le⟩,
    g.firstRows_covers, fun rows length covers => ?_⟩
  rw [rows.note_spec.1]
  exact covers.double coherent

/-- A grammar with which each loop takes all the rounds that it may. -/
def sluggish : Grammar :=
  (ofStart "A").after [.declareNonterminal "B", .declareNonterminal "C", .addProduction ⟨"A", [.nonterminal "B"]⟩,
    .addProduction ⟨"B", [.nonterminal "C"]⟩, .addProduction ⟨"C", [.nonterminal "Z"]⟩, .addProduction ⟨"C", []⟩]

theorem sluggish_loops_break : sluggish.Built ∧ sluggish.nonterminals.size = 3 ∧ sluggish.allNonterminals.size = 4 ∧
    Breaks (mark false · sluggish.productions.toList) .epsilonFree "Nullable set" sluggish.epsilonHeads 3
      sluggish.nullable ∧
    Breaks (mark true · sluggish.productions.toList) .useful "Generating set" ∅ 4 sluggish.generating ∧
    Breaks (Met.note sluggish) .useful "Reachable set" ⟨{"A"}, ∅⟩ 4 sluggish.met ∧
    Breaks UnitRows.note .unitFree "Unit pair" sluggish.firstRows 3 sluggish.unitRows := by
  have built : sluggish.Built := ⟨_, _, .ofStart _, rfl⟩
  have nullable : sluggish.nullablePasses.length = 3 := by decide +kernel
  have generating : sluggish.generatingPasses.length = 4 := by decide +kernel
  have reachable : sluggish.reachableRounds.length = 4 := by decide +kernel
  have units : sluggish.unitSteps.extensions.length = 3 := by decide +kernel
  obtain ⟨⟨first, _⟩, ⟨second, _⟩, ⟨third, _⟩, ⟨fourth, _⟩, _⟩ := built.loops_break
  rw [nullable] at first
  rw [generating] at second
  rw [reachable] at third
  rw [units] at fourth
  exact ⟨built, by decide +kernel, by decide +kernel, first, second, third, fourth⟩

end Grammar

end ContextFree
