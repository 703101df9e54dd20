import ContextFree.Proofs.Assertion
import ContextFree.Spec

namespace ContextFree

/-- What can be done with a grammar. New names may come from any supply. -/
inductive Operation where
  | declareTerminal (name : Name)
  | declareNonterminal (name : Name)
  | addProduction (p : Production)
  | mint (supply : NameSupply)
  | mintNamed (supply : NameSupply) (name : Name)
  | withoutProductions
  | copy
  | withoutEpsilon
  | withoutUnits
  | withoutNonGenerating
  | withoutUnreachable
  | withoutUseless
  | isolateTerminals (supply : NameSupply) (stem : String)
  | binarize (supply : NameSupply)
  | toNormalForm
  | convert (options : Options)
  deriving DecidableEq, Repr

namespace Operation

/-- The grammar that an operation makes, its passes taken as a whole. -/
def perform (g : Grammar) : Operation → Except Interruption Grammar
  | declareTerminal name => .ok (g.declareTerminal name)
  | declareNonterminal name => .ok (g.declareNonterminal name)
  | addProduction p => g.assertAdd p
  | mint supply => .ok (supply.mint g).grammar
  | mintNamed supply name => .ok (supply.mintNamed g name).grammar
  | withoutProductions => .ok g.withoutProductions
  | copy => .ok g
  | withoutEpsilon => refuse g.withoutEpsilon
  | withoutUnits => .ok g.withoutUnits
  | withoutNonGenerating => .ok g.withoutNonGenerating
  | withoutUnreachable => .ok g.withoutUnreachable
  | withoutUseless => .ok g.withoutUseless
  | isolateTerminals supply stem => .ok (g.isolateTerminals supply stem).grammar
  | binarize supply => .ok (g.binarize supply).grammar
  | toNormalForm => refuse g.toNormalForm
  | convert options => refuse ((·.grammar) <$> g.convert options)

/-- The same with each assertion inside the passes: whatever they add goes through the question
whether its left-hand side is declared. -/
def assert (g : Grammar) : Operation → Except Interruption Grammar
  | withoutEpsilon => Asserted.withoutEpsilon g
  | withoutUnits => Asserted.withoutUnits g
  | withoutNonGenerating => Asserted.withoutNonGenerating g
  | withoutUnreachable => Asserted.withoutUnreachable g
  | withoutUseless => Asserted.withoutUseless g
  | isolateTerminals supply stem => (·.grammar) <$> Asserted.isolateTerminals g supply stem
  | binarize supply => (·.grammar) <$> Asserted.binarize g supply
  | toNormalForm => (·.grammar) <$> Asserted.convert g {}
  | convert options => (·.grammar) <$> Asserted.convert g options
  | simple => simple.perform g

end Operation

namespace Grammar

/-- What is there after an operation. One that is interrupted leaves the grammar as it was. -/
def apply (g : Grammar) (operation : Operation) : Grammar :=
  match operation.assert g with
  | .ok out => out
  | .error _ => g

def after (g : Grammar) (operations : List Operation) : Grammar :=
  operations.foldl apply g

/-- The grammars to begin with. -/
inductive New : Grammar → Prop
  | ofStart (start : Name) : New (ofStart start)
  | build {spec : Spec} {g : Grammar} (built : spec.build = .ok g) : New g

/-- The grammars that some operations lead to, in whatever order. -/
def Built (g : Grammar) : Prop :=
  ∃ origin operations, New origin ∧ origin.after operations = g

variable {g : Grammar}

theorem Coherent.declareNonterminal (coherent : g.Coherent) (name : Name) : (g.declareNonterminal name).Coherent where
  start := FiniteSet.mem_insert_iff.mpr (.inr coherent.start)
  heads p stored := FiniteSet.mem_insert_iff.mpr (.inr (coherent.heads p stored))

theorem Coherent.minted (coherent : g.Coherent) {minted : Minted} (fresh : minted.IsFresh g) :
    minted.grammar.Coherent := by
  rw [fresh.declared]
  exact coherent.declareNonterminal minted.name

theorem Coherent.insert (coherent : g.Coherent) {p : Production} (declared : p.lhs ∈ g.nonterminals) :
    (g.insert p).Coherent where
  start := coherent.start
  heads q stored := by
    rcases FiniteSet.mem_insert_iff.mp stored with rfl | old
    · exact declared
    · exact coherent.heads q old

theorem Coherent.assertAdd (coherent : g.Coherent) {p : Production} {out : Grammar}
    (added : g.assertAdd p = .ok out) : out.Coherent := by
  by_cases declared : p.lhs ∈ g.nonterminals
  · rw [assertAdd_of_mem declared] at added
    cases added
    exact coherent.insert declared
  · rw [assertAdd_of_not_mem declared] at added
    cases added

theorem Coherent.withoutProductions (coherent : g.Coherent) : g.withoutProductions.Coherent where
  start := coherent.start
  heads _ stored := absurd stored Std.ExtTreeSet.not_mem_empty

theorem New.coherent (isNew : New g) : g.Coherent := by
  cases isNew with
  | ofStart start =>
    exact ⟨FiniteSet.mem_singleton_iff.mpr rfl, fun p stored => absurd stored Std.ExtTreeSet.not_mem_empty⟩
  | build built =>
    obtain ⟨_, _, rest⟩ := bind_eq_ok_iff.mp built
    obtain ⟨_, checked, same⟩ := bind_eq_ok_iff.mp rest
    cases same
    exact (check_eq_ok_iff.mp checked).toCoherent

theorem refuse_eq_ok_iff {α : Type} {answer : Except GrammarError α} {a : α} :
    refuse answer = .ok a ↔ answer = .ok a := by
  cases answer <;> simp

theorem coherent_of_convert {options : Options} {out : Grammar}
    (converted : (·.grammar) <$> g.convert options = .ok out) : out.Coherent := by
  obtain ⟨c, result, rfl⟩ := map_eq_ok_iff.mp converted
  exact (wellFormed_of_convert result).toCoherent

/-- Every operation that succeeds leads from a coherent grammar to a coherent one. -/
theorem Coherent.perform (coherent : g.Coherent) {operation : Operation} {out : Grammar}
    (performed : operation.perform g = .ok out) : out.Coherent := by
  cases operation with
  | declareTerminal name =>
    cases performed
    exact ⟨coherent.start, coherent.heads⟩
  | declareNonterminal name =>
    cases performed
    exact coherent.declareNonterminal name
  | addProduction p => exact coherent.assertAdd performed
  | mint supply =>
    cases performed
    exact coherent.minted (supply.mint_isFresh g)
  | mintNamed supply name =>
    cases performed
    exact coherent.minted (supply.mintNamed_isFresh g name)
  | withoutProductions =>
    cases performed
    exact coherent.withoutProductions
  | copy =>
    cases performed
    exact coherent
  | withoutEpsilon => exact coherent.withoutEpsilon (refuse_eq_ok_iff.mp performed)
  | withoutUnits =>
    cases performed
    exact coherent.withoutUnits
  | withoutNonGenerating =>
    cases performed
    exact Coherent.withoutNonGenerating g
  | withoutUnreachable =>
    cases performed
    exact Coherent.withoutUnreachable g
  | withoutUseless =>
    cases performed
    exact Coherent.withoutUseless g
  | isolateTerminals supply stem =>
    cases performed
    exact coherent.isolateTerminals supply stem
  | binarize supply =>
    cases performed
    exact coherent.binarize supply
  | toNormalForm => exact coherent_of_convert (refuse_eq_ok_iff.mp performed)
  | convert options => exact coherent_of_convert (refuse_eq_ok_iff.mp performed)

theorem map_refuse {α β : Type} (f : α → β) (answer : Except GrammarError α) :
    f <$> refuse answer = refuse (f <$> answer) := by
  cases answer <;> rfl

/-- On a coherent grammar the assertions inside a pass change nothing: each of them holds. -/
theorem Coherent.assert_eq_perform (coherent : g.Coherent) (operation : Operation) :
    operation.assert g = operation.perform g := by
  cases operation with
  | withoutEpsilon => exact Asserted.withoutEpsilon_eq coherent
  | withoutUnits => exact Asserted.withoutUnits_eq coherent
  | withoutNonGenerating => exact Asserted.withoutNonGenerating_eq g
  | withoutUnreachable => exact Asserted.withoutUnreachable_eq g
  | withoutUseless => exact Asserted.withoutUseless_eq g
  | isolateTerminals supply stem =>
    rw [Operation.assert, Asserted.isolateTerminals_eq coherent]
    rfl
  | binarize supply =>
    rw [Operation.assert, Asserted.binarize_eq coherent]
    rfl
  | toNormalForm =>
    rw [Operation.assert, Asserted.convert_eq, map_refuse]
    rfl
  | convert options =>
    rw [Operation.assert, Asserted.convert_eq, map_refuse]
    rfl
  | declareTerminal | declareNonterminal | addProduction | mint | mintNamed | withoutProductions | copy => rfl

theorem Coherent.apply (coherent : g.Coherent) (operation : Operation) : (g.apply operation).Coherent := by
  rw [Grammar.apply, coherent.assert_eq_perform]
  split
  · rename_i out performed
    exact coherent.perform performed
  · exact coherent

theorem Coherent.after (coherent : g.Coherent) (operations : List Operation) : (g.after operations).Coherent := by
  induction operations generalizing g with
  | nil => exact coherent
  | cons operation rest ih => exact ih (coherent.apply operation)

theorem Built.coherent (built : g.Built) : g.Coherent := by
  obtain ⟨origin, operations, isNew, rfl⟩ := built
  exact isNew.coherent.after operations

theorem perform_eq_error {operation : Operation} {e : Interruption} (interrupted : operation.perform g = .error e) :
    (∃ cause, e = .refused cause) ∨
      ∃ p, operation = .addProduction p ∧ p.lhs ∉ g.nonterminals ∧ e = .undeclaredLhs ⟨p.lhs⟩ := by
  have refused {α : Type} {answer : Except GrammarError α} (failed : refuse answer = .error e) :
      ∃ cause, e = .refused cause := by
    cases answer with
    | error cause => exact ⟨cause, (Except.error.inj failed).symm⟩
    | ok a => cases failed
  cases operation with
  | addProduction p =>
    by_cases declared : p.lhs ∈ g.nonterminals
    · rw [Operation.perform, assertAdd_of_mem declared] at interrupted
      cases interrupted
    · rw [Operation.perform, assertAdd_of_not_mem declared] at interrupted
      exact .inr ⟨p, rfl, declared, (Except.error.inj interrupted).symm⟩
  | withoutEpsilon | toNormalForm | convert => exact .inl (refused interrupted)
  | declareTerminal | declareNonterminal | mint | mintNamed | withoutProductions | copy => cases interrupted
  | withoutUnits | withoutNonGenerating | withoutUnreachable | withoutUseless => cases interrupted
  | isolateTerminals | binarize => cases interrupted

/-- What the check still finds in a coherent grammar is about names and right-hand sides. -/
theorem Coherent.fault_cases (coherent : g.Coherent) {fault : GrammarError} (found : fault ∈ g.faults) :
    fault = .emptyName ∨ (∃ a, fault = .ambiguousSymbol a) ∨ ∃ lhs s, fault = .undeclaredSymbol lhs s := by
  simp only [faults, List.mem_append, List.mem_filterMap, List.mem_flatMap, Std.ExtTreeSet.mem_toList] at found
  rcases found with ((start | ⟨a, _, terminal⟩) | nonterminal) | ⟨p, stored, head | rhs⟩
  · rw [if_pos (Std.ExtTreeSet.contains_iff_mem.mpr coherent.start)] at start
    cases start
  · split at terminal
    · exact .inl (Option.some.inj terminal).symm
    · split at terminal
      · exact .inr (.inl ⟨a, (Option.some.inj terminal).symm⟩)
      · cases terminal
  · split at nonterminal
    · exact .inl (List.mem_singleton.mp nonterminal)
    · cases nonterminal
  · rw [if_pos (Std.ExtTreeSet.contains_iff_mem.mpr (coherent.heads p stored))] at head
    cases head
  · obtain ⟨s, _, rfl⟩ := List.mem_map.mp rhs
    exact .inr (.inr ⟨p.lhs, s.name, rfl⟩)

theorem mem_of_raise_eq_error {faults : List GrammarError} {cause : GrammarError}
    (raised : GrammarError.raise faults = .error cause) : cause ∈ faults := by
  cases faults with
  | nil => cases raised
  | cons first rest =>
    cases raised
    exact .head _

/-- Whatever was done to a grammar, its start symbol and its left-hand sides are declared. So no
assertion inside a pass is ever broken, only a caller can offer a production for an undeclared
nonterminal, and the check has nothing to say about the start symbol and the left-hand sides. -/
theorem Built.assertions_hold (built : g.Built) :
    g.start ∈ g.nonterminals ∧ (∀ p ∈ g.productions, p.lhs ∈ g.nonterminals) ∧
      (∀ operation : Operation, operation.assert g = operation.perform g) ∧
      (∀ (operation : Operation) (e : Interruption), operation.assert g = .error e →
        (∃ cause, e = .refused cause) ∨
          ∃ p, operation = .addProduction p ∧ p.lhs ∉ g.nonterminals ∧ e = .undeclaredLhs ⟨p.lhs⟩) ∧
      (∀ p : Production, p.lhs ∉ g.nonterminals →
        (Operation.addProduction p).assert g = .error (.undeclaredLhs ⟨p.lhs⟩) ∧ g.apply (.addProduction p) = g) ∧
      ∀ cause, g.check = .error cause →
        (∀ a, cause ≠ .undeclaredStart a) ∧ ∀ a, cause ≠ .undeclaredNonterminal a := by
  have coherent := built.coherent
  refine ⟨coherent.start, coherent.heads, coherent.assert_eq_perform, ?_, ?_, ?_⟩
  · intro operation e interrupted
    rw [coherent.assert_eq_perform] at interrupted
    exact perform_eq_error interrupted
  · intro p undeclared
    have refused : (Operation.addProduction p).assert g = .error (.undeclaredLhs ⟨p.lhs⟩) :=
      assertAdd_of_not_mem undeclared
    rw [Grammar.apply, refused]
    exact ⟨rfl, rfl⟩
  · intro cause found
    rcases coherent.fault_cases (mem_of_raise_eq_error found) with rfl | ⟨a, rfl⟩ | ⟨lhs, s, rfl⟩
    all_goals exact ⟨nofun, nofun⟩

/-- A grammar that mentions a nonterminal which is never declared, so that a production for it is
turned down, and that went through two passes. -/
def stray : Grammar :=
  (ofStart "S").after [.declareTerminal "a",
    .addProduction ⟨"S", [.terminal "a", .nonterminal "B", .nonterminal "S"]⟩, .addProduction ⟨"B", []⟩,
    .isolateTerminals (.ofStem "X") "T_", .mint (.ofStem "X"), .binarize (.ofStem "X")]

theorem stray_assertions_hold : stray.Built ∧ stray.start ∈ stray.nonterminals ∧
    (Operation.addProduction ⟨"B", []⟩).assert stray = .error (.undeclaredLhs ⟨"B"⟩) ∧
    Operation.assert stray .withoutUseless = .ok stray.withoutUseless ∧
    ∃ cause, stray.check = .error cause ∧ ∀ a, cause ≠ .undeclaredNonterminal a := by
  have built : stray.Built := ⟨_, _, .ofStart _, rfl⟩
  have undeclared : "B" ∉ stray.nonterminals := by decide +kernel
  have found : stray.check = .error (.undeclaredSymbol "X1" "B") := by decide +kernel
  obtain ⟨start, _, same, _, refused, clean⟩ := built.assertions_hold
  exact ⟨built, start, (refused ⟨"B", []⟩ undeclared).1, same _, _, found, (clean _ found).2⟩

end Grammar

end ContextFree
