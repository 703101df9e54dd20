import ContextFree.Proofs.NormalForm

namespace ContextFree

/-- A loop that may fail ends as the loop that cannot, if no step fails where `safe` holds. -/
theorem foldlM_eq_ok {ε α β : Type} {step : β → α → Except ε β} {run : β → α → β} (safe : β → Prop) {xs : List α}
    (steps : ∀ x ∈ xs, ∀ b, safe b → step b x = .ok (run b x) ∧ safe (run b x)) {b : β} (initial : safe b) :
    xs.foldlM step b = .ok (xs.foldl run b) := by
  induction xs generalizing b with
  | nil => rfl
  | cons x rest ih =>
    obtain ⟨same, next⟩ := steps x (.head _) b initial
    rw [List.foldlM_cons, same, ok_bind, List.foldl_cons]
    exact ih (fun y later => steps y (.tail _ later)) next

/-- Why an operation on a grammar ends without a result. A refusal is an answer; the others are
broken assertions. -/
inductive Interruption where
  | refused (cause : GrammarError)
  | undeclaredLhs (e : Grammar.UndeclaredLhs)
  | abnormal (p : Production)
  deriving DecidableEq, Repr

/-- Passes an answer on. -/
def refuse {α : Type} (answer : Except GrammarError α) : Except Interruption α :=
  answer.mapError .refused

@[simp] theorem refuse_ok {α : Type} (a : α) : refuse (.ok a) = .ok a := rfl

@[simp] theorem refuse_error {α : Type} (cause : GrammarError) :
    refuse (.error cause : Except GrammarError α) = .error (.refused cause) := rfl

namespace Grammar

/-- Adds a production whose left-hand side is taken to be declared. -/
def assertAdd (g : Grammar) (p : Production) : Except Interruption Grammar :=
  match g.addProduction p with
  | .ok (out, _) => .ok out
  | .error e => .error (.undeclaredLhs e)

def assertAddAll (g : Grammar) (productions : List Production) : Except Interruption Grammar :=
  productions.foldlM assertAdd g

theorem assertAdd_of_mem {g : Grammar} {p : Production} (declared : p.lhs ∈ g.nonterminals) :
    g.assertAdd p = .ok (g.insert p) := by
  simp only [assertAdd, addProduction, if_pos declared]

theorem assertAdd_of_not_mem {g : Grammar} {p : Production} (undeclared : p.lhs ∉ g.nonterminals) :
    g.assertAdd p = .error (.undeclaredLhs ⟨p.lhs⟩) := by
  simp only [assertAdd, addProduction, if_neg undeclared]

theorem assertAddAll_of_mem {g : Grammar} {productions : List Production}
    (declared : ∀ p ∈ productions, p.lhs ∈ g.nonterminals) :
    g.assertAddAll productions = .ok (g.insertAll productions) := by
  rw [insertAll_eq_foldl]
  refine foldlM_eq_ok (fun out => ∀ p ∈ productions, p.lhs ∈ out.nonterminals) ?_ declared
  intro p member out inOut
  exact ⟨assertAdd_of_mem (inOut p member), inOut⟩

end Grammar

/-- The terminals of a right-hand side of two or more symbols. -/
def Production.innerTerminals (p : Production) : List Name :=
  if 2 ≤ p.rhs.length then p.rhs.filterMap Symbol.terminal? else []

-- The passes as they go about it: production by production, each with the question whether its
-- left-hand side is declared in what has been built so far.
namespace Asserted

/-- Adds the variants of a production unless it has too many. They have one left-hand side, so that
the question has one answer for all of them. -/
def expand (nullable : NameSet) (out : Grammar) (p : Production) : Except Interruption Grammar :=
  if p.isEpsilon then .ok out
  else if expansionCap < nullablePositions nullable p.rhs then
    .error (.refused (.expansionLimit p.lhs (nullablePositions nullable p.rhs) expansionCap))
  else out.assertAddAll (Grammar.nonemptyVariants nullable p)

def withoutEpsilon (g : Grammar) : Except Interruption Grammar := do
  let nullable := g.nullable
  let out ← g.productions.toList.foldlM (expand nullable) g.withoutProductions
  if nullable.contains g.start then out.assertAdd ⟨g.start, []⟩ else .ok out

def withoutUnits (g : Grammar) : Except Interruption Grammar :=
  g.withoutProductions.assertAddAll <| g.unitPairs.toList.flatMap fun pair =>
    ((g.productionsOf pair.target).filter fun p =>
      p.unitTarget.isNone && (!p.isEpsilon || pair.source == g.start)).map fun p => ⟨pair.source, p.rhs⟩

/-- The symbols are declared from nothing, the start symbol apart. -/
def withoutNonGenerating (g : Grammar) : Except Interruption Grammar :=
  let generating := g.generating
  let withTerminals := g.terminals.toList.foldl Grammar.declareTerminal (.ofStart g.start)
  let out := generating.toList.foldl Grammar.declareNonterminal withTerminals
  out.assertAddAll <| g.productions.toList.filter fun p =>
    generating.contains p.lhs && p.rhs.all (·.within true generating)

/-- Each nonterminal is declared just before its productions are added. -/
def withoutUnreachable (g : Grammar) : Except Interruption Grammar :=
  let withTerminals := g.reachableTerminals.toList.foldl Grammar.declareTerminal (.ofStart g.start)
  g.reachable.toList.foldlM (fun out a => (out.declareNonterminal a).assertAddAll (g.productionsOf a)) withTerminals

def withoutUseless (g : Grammar) : Except Interruption Grammar :=
  withoutNonGenerating g >>= withoutUnreachable

/-- Names the terminals of one right-hand side and adds the production with them replaced. -/
def isolate (stem : String) (isolation : Isolation) (p : Production) : Except Interruption Isolation := do
  let named := p.innerTerminals.foldl (Isolation.assign stem) isolation
  let grammar ← named.grammar.assertAdd (Isolation.substitute named.assigned p)
  return { named with grammar }

def isolateTerminals (g : Grammar) (supply : NameSupply) (stem : String) : Except Interruption Isolation := do
  let isolation ← g.productions.toList.foldlM (isolate stem) ⟨g.withoutProductions, supply, []⟩
  let grammar ← isolation.grammar.assertAddAll (isolation.assigned.map fun (t, a) => ⟨a, [.terminal t]⟩)
  return { isolation with grammar }

def shorten (split : Binarization) : List Symbol → Except Interruption (Binarization × List Symbol)
  | s :: t :: u :: rest => do
    let (split, pair) ← shorten split (t :: u :: rest)
    let fresh := split.supply.mint split.grammar
    let grammar ← fresh.grammar.assertAdd ⟨fresh.name, pair⟩
    return ({ grammar, supply := fresh.supply, minted := split.minted ++ [fresh.name] },
      [s, .nonterminal fresh.name])
  | short => .ok (split, short)

def add (split : Binarization) (p : Production) : Except Interruption Binarization := do
  let (split, rhs) ← shorten split p.rhs
  let grammar ← split.grammar.assertAdd ⟨p.lhs, rhs⟩
  return { split with grammar }

def binarize (g : Grammar) (supply : NameSupply) : Except Interruption Binarization :=
  g.productions.toList.foldlM add ⟨g.withoutProductions, supply, []⟩

def runPasses (g : Grammar) (options : Options) : Except Interruption Passes := do
  let epsilonFree ← withoutEpsilon g
  let unitFree ← withoutUnits epsilonFree
  let useful ← withoutUseless unitFree
  let isolation ← isolateTerminals useful (.ofStem options.freshPrefix) options.terminalPrefix
  let binarization ← binarize isolation.grammar isolation.supply
  return { epsilonFree, unitFree, useful, isolation, binarization }

/-- The result is taken to be in Chomsky normal form. -/
def convert (g : Grammar) (options : Options) : Except Interruption Conversion := do
  refuse g.check
  refuse (g.checkExpansion options.maxNullable)
  let passes ← runPasses g options
  match passes.binarization.grammar.firstAbnormal? with
  | some p => .error (.abnormal p)
  | none =>
    return {
      grammar := passes.binarization.grammar
      stages := if options.keepStages then passes.stages else [] }

section

variable {nullable : NameSet} {out : Grammar}

theorem expansionFaults_cons (p : Production) (rest : List Production) :
    Grammar.expansionFaults nullable expansionCap (p :: rest) =
      (if expansionCap < nullablePositions nullable p.rhs then
        [.expansionLimit p.lhs (nullablePositions nullable p.rhs) expansionCap] else []) ++
        Grammar.expansionFaults nullable expansionCap rest := by
  by_cases exceeds : expansionCap < nullablePositions nullable p.rhs
  · simp only [Grammar.expansionFaults, List.filterMap_cons, Nat.min_self, if_pos exceeds, List.singleton_append]
  · simp only [Grammar.expansionFaults, List.filterMap_cons, Nat.min_self, if_neg exceeds, List.nil_append]

/-- The first production with too many variants ends the pass, whatever was added before it. -/
theorem foldlM_expand {productions : List Production} (declared : ∀ p ∈ productions, p.lhs ∈ out.nonterminals) :
    productions.foldlM (expand nullable) out =
      (refuse (GrammarError.raise
        (Grammar.expansionFaults nullable expansionCap (productions.filter (!·.isEpsilon)))) >>= fun _ =>
        .ok (out.insertAll ((productions.filter (!·.isEpsilon)).flatMap (Grammar.nonemptyVariants nullable)))) := by
  induction productions generalizing out with
  | nil => rfl
  | cons p rest ih =>
    have later : ∀ q ∈ rest, q.lhs ∈ out.nonterminals := fun q member => declared q (.tail _ member)
    rw [List.foldlM_cons, expand]
    by_cases epsilon : p.isEpsilon = true
    · rw [if_pos epsilon, ok_bind, ih later, List.filter_cons_of_neg (by simpa using epsilon)]
    · rw [if_neg epsilon, List.filter_cons_of_pos (by simpa using epsilon), expansionFaults_cons]
      by_cases exceeds : expansionCap < nullablePositions nullable p.rhs
      · rw [if_pos exceeds, if_pos exceeds]
        rfl
      · have variants : ∀ q ∈ Grammar.nonemptyVariants nullable p, q.lhs ∈ out.nonterminals := by
          intro q member
          rw [(Grammar.mem_nonemptyVariants.mp member).1]
          exact declared p (.head _)
        have tail := @ih (out.insertAll (Grammar.nonemptyVariants nullable p)) later
        rw [if_neg exceeds, if_neg exceeds, Grammar.assertAddAll_of_mem variants, ok_bind, tail, List.nil_append,
          List.flatMap_cons, Grammar.insertAll_append]

end

section

variable {g : Grammar}

/-- The pass for ε-productions refuses what it refused, and adds no production that it should not. -/
theorem withoutEpsilon_eq (coherent : g.Coherent) : withoutEpsilon g = refuse g.withoutEpsilon := by
  have declared : ∀ p ∈ g.productions.toList, p.lhs ∈ g.withoutProductions.nonterminals :=
    fun p member => coherent.heads p (Std.ExtTreeSet.mem_toList.mp member)
  unfold withoutEpsilon Grammar.withoutEpsilon
  dsimp only
  rw [foldlM_expand declared]
  cases GrammarError.raise
      (Grammar.expansionFaults g.nullable expansionCap (g.productions.toList.filter (!·.isEpsilon))) with
  | error cause => rfl
  | ok =>
    rw [refuse_ok, ok_bind, ok_bind, ok_bind, Grammar.withoutProductions_insertAll]
    by_cases nullable : g.nullable.contains g.start = true
    · rw [if_pos nullable, if_pos nullable, ← Grammar.withoutProductions_insertAll,
        ← Grammar.withoutProductions_insertAll, Grammar.assertAdd_of_mem coherent.start, Grammar.insertAll_append,
        Grammar.insertAll_cons]
      rfl
    · rw [if_neg nullable, if_neg nullable, List.append_nil]
      rfl

theorem withoutUnits_eq (coherent : g.Coherent) : withoutUnits g = .ok g.withoutUnits := by
  unfold withoutUnits Grammar.withoutUnits
  rw [← Grammar.withoutProductions_insertAll]
  refine Grammar.assertAddAll_of_mem fun p member => ?_
  obtain ⟨pair, inPairs, copied⟩ := List.mem_flatMap.mp member
  obtain ⟨original, _, rfl⟩ := List.mem_map.mp copied
  exact Grammar.source_of_mem_unitPairs coherent (Std.ExtTreeSet.mem_toList.mp inPairs)

theorem foldl_declareTerminal (out : Grammar) (names : List Name) : names.foldl Grammar.declareTerminal out =
    { out with terminals := out.terminals.insertMany names } := by
  induction names generalizing out with
  | nil => rfl
  | cons t rest ih => rw [List.foldl_cons, ih, Std.ExtTreeSet.insertMany_cons, Grammar.declareTerminal]

theorem foldl_declareNonterminal (out : Grammar) (names : List Name) : names.foldl Grammar.declareNonterminal out =
    { out with nonterminals := out.nonterminals.insertMany names } := by
  induction names generalizing out with
  | nil => rfl
  | cons a rest ih => rw [List.foldl_cons, ih, Std.ExtTreeSet.insertMany_cons, Grammar.declareNonterminal]

theorem withoutNonGenerating_eq (g : Grammar) : withoutNonGenerating g = .ok g.withoutNonGenerating := by
  unfold withoutNonGenerating
  dsimp only
  rw [foldl_declareTerminal, foldl_declareNonterminal, Grammar.assertAddAll_of_mem]
  · refine congrArg Except.ok (Grammar.ext_mem (fun a => ?_) (fun t => ?_) (fun p => ?_) rfl)
    · simp [Grammar.insertAll, Grammar.ofStart, Grammar.withoutNonGenerating]
    · simp [Grammar.insertAll, Grammar.ofStart, Grammar.withoutNonGenerating]
    · simp [Grammar.insertAll, Grammar.ofStart, Grammar.withoutNonGenerating, and_left_comm]
  · intro p member
    have generating : p.lhs ∈ g.generating := by simp_all
    simp [generating]

/-- Whatever is added for the nonterminals that are declared one by one, its left-hand side was
declared just before. -/
theorem foldlM_declare (out : Grammar) (names : List Name) :
    names.foldlM (fun out a => (out.declareNonterminal a).assertAddAll (g.productionsOf a)) out =
      .ok (Grammar.insertAll { out with nonterminals := out.nonterminals.insertMany names }
        (names.flatMap g.productionsOf)) := by
  induction names generalizing out with
  | nil => rfl
  | cons a rest ih =>
    have declared : ∀ p ∈ g.productionsOf a, p.lhs ∈ (out.declareNonterminal a).nonterminals := by
      intro p member
      rw [(Grammar.mem_productionsOf.mp member).2]
      exact FiniteSet.mem_insert_iff.mpr (.inl rfl)
    rw [List.foldlM_cons, Grammar.assertAddAll_of_mem declared, ok_bind, ih, List.flatMap_cons,
      Std.ExtTreeSet.insertMany_cons, Grammar.insertAll_append]
    rfl

theorem withoutUnreachable_eq (g : Grammar) : withoutUnreachable g = .ok g.withoutUnreachable := by
  unfold withoutUnreachable
  dsimp only
  rw [foldl_declareTerminal, foldlM_declare]
  refine congrArg Except.ok (Grammar.ext_mem (fun a => ?_) (fun t => ?_) (fun p => ?_) rfl)
  · have start : g.start = a → a ∈ g.reachable := fun same => same ▸ Grammar.start_mem_reachable
    simpa [Grammar.insertAll, Grammar.ofStart, Grammar.withoutUnreachable] using start
  · simp [Grammar.insertAll, Grammar.ofStart, Grammar.withoutUnreachable]
  · simp [Grammar.ofStart, Grammar.withoutUnreachable, and_comm]

theorem withoutUseless_eq (g : Grammar) : withoutUseless g = .ok g.withoutUseless := by
  rw [withoutUseless, withoutNonGenerating_eq, ok_bind, withoutUnreachable_eq, Grammar.withoutUseless]

end

section

variable {g : Grammar} {met : List Name} {isolation : Isolation} {stem : String}

theorem mintNamed_insertAll (supply : NameSupply) (g : Grammar) (productions : List Production) (name : Name) :
    supply.mintNamed (g.insertAll productions) name =
      { supply.mintNamed g name with grammar := (supply.mintNamed g name).grammar.insertAll productions } := by
  have same : (g.insertAll productions).usesName name = g.usesName name := rfl
  rw [NameSupply.mintNamed, NameSupply.mintNamed, same]
  split <;> rfl

/-- Which names are given does not depend on the productions that were added in between. -/
theorem foldl_assign_insertAll (isolation : Isolation) (productions : List Production) (terminals : List Name) :
    terminals.foldl (Isolation.assign stem) { isolation with grammar := isolation.grammar.insertAll productions } =
      { terminals.foldl (Isolation.assign stem) isolation with
        grammar := (terminals.foldl (Isolation.assign stem) isolation).grammar.insertAll productions } := by
  induction terminals generalizing isolation with
  | nil => rfl
  | cons t rest ih =>
    have same : Isolation.assign stem { isolation with grammar := isolation.grammar.insertAll productions } t =
        { Isolation.assign stem isolation t with
          grammar := (Isolation.assign stem isolation t).grammar.insertAll productions } := by
      simp only [Isolation.assign, mintNamed_insertAll]
      split <;> rfl
    rw [List.foldl_cons, same, ih, List.foldl_cons]

theorem foldl_assign_productions (stem : String) (isolation : Isolation) (terminals : List Name) :
    (terminals.foldl (Isolation.assign stem) isolation).grammar.productions = isolation.grammar.productions := by
  induction terminals generalizing isolation with
  | nil => rfl
  | cons t rest ih =>
    rw [List.foldl_cons, ih, Isolation.assign]
    split
    · rfl
    · dsimp only
      rw [(isolation.supply.mintNamed_isFresh isolation.grammar (stem ++ t)).declared]
      rfl

theorem exists_foldl_assign_assigned (stem : String) (isolation : Isolation) (terminals : List Name) :
    ∃ more, (terminals.foldl (Isolation.assign stem) isolation).assigned = isolation.assigned ++ more := by
  induction terminals generalizing isolation with
  | nil => exact ⟨[], (List.append_nil _).symm⟩
  | cons t rest ih =>
    obtain ⟨more, later⟩ := ih (Isolation.assign stem isolation t)
    rw [List.foldl_cons, later, Isolation.assign]
    split
    · exact ⟨more, rfl⟩
    · exact ⟨_, List.append_assoc ..⟩

/-- Once the terminals of a production have names, further names change nothing about it. -/
theorem substitute_append {assigned more : List (Name × Name)} {p : Production}
    (named : ∀ t ∈ p.innerTerminals, t ∈ assigned.map Prod.fst) :
    Isolation.substitute (assigned ++ more) p = Isolation.substitute assigned p := by
  unfold Isolation.substitute
  by_cases long : 2 ≤ p.rhs.length
  · rw [if_pos long, if_pos long]
    refine congrArg (Production.mk p.lhs) (List.map_congr_left fun s member => ?_)
    cases s with
    | nonterminal a => rfl
    | terminal t =>
      have inner : t ∈ p.innerTerminals := by
        rw [Production.innerTerminals, if_pos long]
        exact List.mem_filterMap.mpr ⟨_, member, rfl⟩
      obtain ⟨a, found⟩ := Option.isSome_iff_exists.mp (Isolation.lookup_isSome_iff.mpr (named t inner))
      rw [Isolation.replace, Isolation.replace, List.lookup_append, found, Option.some_or]
  · rw [if_neg long, if_neg long]

/-- Naming the terminals production by production is naming all of them first. -/
theorem foldlM_isolate (named : isolation.Named g met) {productions : List Production}
    (declared : ∀ p ∈ productions, p.lhs ∈ g.nonterminals) {final : Isolation}
    (all : (productions.flatMap Production.innerTerminals).foldl (Isolation.assign stem) isolation = final) :
    productions.foldlM (isolate stem) isolation =
      .ok { final with
        grammar := final.grammar.insertAll (productions.map (Isolation.substitute final.assigned)) } := by
  induction productions generalizing isolation met final with
  | nil =>
    subst all
    rfl
  | cons p rest ih =>
    have next := named.foldl stem p.innerTerminals
    rw [List.flatMap_cons, List.foldl_append] at all
    generalize between : p.innerTerminals.foldl (Isolation.assign stem) isolation = middle at next all
    have kept : (Isolation.substitute middle.assigned p).lhs ∈ middle.grammar.nonterminals := by
      rw [Isolation.substitute_lhs, next.nonterminals]
      exact .inl (declared p (.head _))
    have first : isolate stem isolation p = .ok { middle with
        grammar := middle.grammar.insertAll [Isolation.substitute middle.assigned p] } := by
      rw [isolate, between, Grammar.assertAdd_of_mem kept]
      rfl
    have same : Isolation.substitute final.assigned p = Isolation.substitute middle.assigned p := by
      obtain ⟨more, later⟩ := exists_foldl_assign_assigned stem middle (rest.flatMap Production.innerTerminals)
      rw [← all, later]
      exact substitute_append fun t inner => (next.keys t).mpr (List.mem_append_right _ inner)
    have added : Isolation.Named g (met ++ p.innerTerminals) { middle with
        grammar := middle.grammar.insertAll [Isolation.substitute middle.assigned p] } :=
      { next with }
    have tail := ih added (fun q later => declared q (.tail _ later)) (foldl_assign_insertAll middle _ _)
    rw [all] at tail
    rw [List.foldlM_cons, first, ok_bind, tail, List.map_cons, same, ← Grammar.insertAll_append]
    rfl

theorem innerTerminals_eq_flatMap (g : Grammar) :
    g.innerTerminals = g.productions.toList.flatMap Production.innerTerminals := by
  unfold Grammar.innerTerminals
  generalize g.productions.toList = productions
  induction productions with
  | nil => rfl
  | cons p rest ih =>
    rw [List.flatMap_cons, ← ih, Production.innerTerminals]
    by_cases long : 2 ≤ p.rhs.length
    · simp [long]
    · simp [long]

theorem isolateTerminals_eq (coherent : g.Coherent) (supply : NameSupply) (stem : String) :
    isolateTerminals g supply stem = .ok (g.isolateTerminals supply stem) := by
  have declared : ∀ p ∈ g.productions.toList, p.lhs ∈ g.nonterminals :=
    fun p member => coherent.heads p (Std.ExtTreeSet.mem_toList.mp member)
  have named := (Isolation.Named.nil g supply).foldl stem g.innerTerminals
  have empty := foldl_assign_productions stem ⟨g.withoutProductions, supply, []⟩ g.innerTerminals
  unfold isolateTerminals Grammar.isolateTerminals
  rw [foldlM_isolate (.nil g supply) declared rfl, ok_bind, ← innerTerminals_eq_flatMap]
  generalize g.innerTerminals.foldl (Isolation.assign stem) ⟨g.withoutProductions, supply, []⟩ = final at named empty
  have own : ∀ p ∈ final.assigned.map fun entry => Production.mk entry.2 [.terminal entry.1],
      p.lhs ∈ final.grammar.nonterminals := by
    intro p member
    obtain ⟨entry, assigned, rfl⟩ := List.mem_map.mp member
    exact (named.nonterminals _).mpr (.inr (List.mem_map_of_mem assigned))
  dsimp only
  rw [Grammar.assertAddAll_of_mem (g := final.grammar.insertAll _) own, ok_bind, ← Grammar.insertAll_append,
    Grammar.insertAll_of_empty empty]
  rfl

end

section

variable {g : Grammar}

theorem shorten_eq (split : Binarization) (rhs : List Symbol) : shorten split rhs = .ok (split.shorten rhs) := by
  fun_induction Binarization.shorten split rhs with
  | case1 s t u rest after pair ran fresh ih =>
    have declared : fresh.name ∈ fresh.grammar.nonterminals := by
      rw [(after.supply.mint_isFresh after.grammar).declared]
      exact FiniteSet.mem_insert_iff.mpr (.inl rfl)
    rw [shorten, ih, ran, ok_bind]
    dsimp only
    rw [Grammar.assertAdd_of_mem declared]
    rfl
  | case2 rhs short =>
    unfold shorten
    split
    · exact absurd rfl (short _ _ _ _)
    · rfl

theorem add_eq {split : Binarization} {p : Production} (declared : p.lhs ∈ split.grammar.nonterminals) :
    add split p = .ok (split.add p) := by
  obtain ⟨names, shortened⟩ := Binarization.exists_shortened split p.rhs
  have kept : p.lhs ∈ (split.shorten p.rhs).1.grammar.nonterminals := (shortened.nonterminals _).mpr (.inl declared)
  rw [add, shorten_eq, ok_bind]
  dsimp only
  rw [Grammar.assertAdd_of_mem (p := ⟨p.lhs, (split.shorten p.rhs).2⟩) kept]
  rfl

theorem binarize_eq (coherent : g.Coherent) (supply : NameSupply) : binarize g supply = .ok (g.binarize supply) := by
  refine foldlM_eq_ok (fun split => ∀ a ∈ g.nonterminals, a ∈ split.grammar.nonterminals) ?_ fun _ => id
  intro p member split safe
  have declared := coherent.heads p (Std.ExtTreeSet.mem_toList.mp member)
  obtain ⟨names, shortened⟩ := Binarization.exists_shortened split p.rhs
  exact ⟨add_eq (safe _ declared), fun a old => (shortened.nonterminals a).mpr (.inl (safe a old))⟩

variable {options : Options}

theorem runPasses_eq (coherent : g.Coherent) : runPasses g options = refuse (g.runPasses options) := by
  rw [runPasses, withoutEpsilon_eq coherent, Grammar.runPasses]
  cases ran : g.withoutEpsilon with
  | error cause => rfl
  | ok epsilonFree =>
    have first := coherent.withoutEpsilon ran
    have useful := Grammar.Coherent.withoutUseless epsilonFree.withoutUnits
    rw [refuse_ok, ok_bind, withoutUnits_eq first, ok_bind, withoutUseless_eq, ok_bind, isolateTerminals_eq useful,
      ok_bind, binarize_eq (useful.isolateTerminals _ _), ok_bind]
    rfl

/-- A conversion answers as it did: no assertion on the way to the result is broken, and the
result passes its own. -/
theorem convert_eq (g : Grammar) (options : Options) : convert g options = refuse (g.convert options) := by
  rw [convert, Grammar.convert]
  cases checked : g.check with
  | error cause => rfl
  | ok =>
    have formed := Grammar.check_eq_ok_iff.mp checked
    rw [refuse_ok, ok_bind, ok_bind]
    cases g.checkExpansion options.maxNullable with
    | error cause => rfl
    | ok =>
      rw [refuse_ok, ok_bind, ok_bind, runPasses_eq formed.toCoherent]
      cases result : g.runPasses options with
      | error cause => rfl
      | ok passes =>
        have ran := Grammar.ran_of_runPasses result
        have normal := Grammar.firstAbnormal?_eq_none_iff.mpr (ran.binarization_isNormal formed)
        rw [refuse_ok, ok_bind, ok_bind, normal]
        rfl

end

end Asserted

end ContextFree
