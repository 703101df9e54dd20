import ContextFree.Conversion
import ContextFree.Log.Record
import ContextFree.Spec

namespace ContextFree.Log

def braced (names : List Name) : String :=
  "\x7b" ++ ", ".intercalate names ++ "\x7d"

/-- A record for each of `n` rounds. A search takes at most one round more than there are nonterminals, so
32 bits are enough for their numbers, and no bound is set here. -/
def rounds (component : Component) (subject : String) (n : Nat) : List Record :=
  (List.range n).map fun i => ⟨.trace, component, s!"{subject} iteration {i + 1}"⟩

/-- The productions before the first fault of a list of rules. -/
def faultless (spec : Spec) : List Rule → List Production
  | [] => []
  | rule :: rest =>
    if (spec.ruleFaults rule).isEmpty then
      rule.choices.map (spec.production rule.name) ++ faultless spec rest
    else if spec.nonterminals.contains rule.name then
      let declared := rule.choices.takeWhile (·.all fun name => (spec.symbol? name).isSome)
      declared.map (spec.production rule.name)
    else
      []

/-- The productions that occurred before, or belong to `seen`. -/
def repeated (seen : FiniteSet Production) : List Production → List Production
  | [] => []
  | p :: rest => if seen.contains p then p :: repeated seen rest else repeated (seen.insert p) rest

/-- What is logged while a grammar is built. -/
def ofBuild (spec : Spec) : List Record :=
  let duplicates := if spec.declarationFaults.isEmpty then repeated ∅ (faultless spec spec.rules) else []
  ⟨.info, .building,
      s!"Building grammar with {spec.nonterminals.length} nonterminals, {spec.terminals.length} terminals"⟩ ::
    duplicates.map (fun p => ⟨.trace, .building, s!"Ignoring duplicate alternative of {p.lhs}"⟩) ++
    match spec.build with
    | .error _ => []
    | .ok g => [⟨.debug, .building, s!"Built grammar with {g.productions.size} productions"⟩]

def nullableRounds (g : Grammar) : List Record :=
  rounds .epsilonFree "Nullable set" g.nullablePasses.length

def afterStage (stage : Stage) (g : Grammar) : Record :=
  ⟨.trace, .conversion, s!"After {stage.render}:\n{g.render}"⟩

/-- What is logged before the number of nullable positions is checked again. -/
def ofEpsilonSearch (g : Grammar) : List Record :=
  ⟨.debug, .epsilonFree, "Removing ε-productions"⟩ :: nullableRounds g ++
    [⟨.debug, .epsilonFree, s!"Nullable nonterminals: {braced g.nullable.toList}"⟩]

def ofEpsilonFree (out : Grammar) : List Record :=
  [⟨.debug, .epsilonFree, s!"{out.productions.size} productions after removing ε-productions"⟩]

def ofUnitFree (g out : Grammar) : List Record :=
  ⟨.debug, .unitFree, "Removing unit productions"⟩ :: rounds .unitFree "Unit pair" g.unitSteps.extensions.length ++
    [⟨.debug, .unitFree, s!"{g.unitPairs.size} unit pairs"⟩,
      ⟨.debug, .unitFree, s!"{out.productions.size} productions after removing unit productions"⟩]

def ofNonGenerating (g : Grammar) : List Record :=
  rounds .useful "Generating set" g.generatingPasses.length ++
    ⟨.debug, .useful, s!"Generating nonterminals: {braced g.generating.toList}"⟩ ::
    if g.generating.contains g.start then []
    else [⟨.info, .useful, s!"Start symbol {g.start} generates nothing; the language is empty"⟩]

def ofUnreachable (g : Grammar) : List Record :=
  rounds .useful "Reachable set" g.reachableRounds.length ++
    [⟨.debug, .useful, s!"Reachable symbols: {braced (g.reachable.toList ++ g.reachableTerminals.toList)}"⟩]

def ofUseful (g out : Grammar) : List Record :=
  ⟨.debug, .useful, "Removing useless symbols"⟩ ::
    ofNonGenerating g ++ ofUnreachable g.withoutNonGenerating ++
    [⟨.debug, .useful, s!"{out.nonterminals.size} nonterminals, {out.terminals.size} terminals, " ++
      s!"{out.productions.size} productions after removing useless symbols"⟩]

def ofMinted (name : Name) : Record :=
  ⟨.trace, .names, s!"Allocated fresh nonterminal {name}"⟩

def ofIsolation (isolation : Isolation) : List Record :=
  ⟨.debug, .isolation, "Isolating terminals"⟩ ::
    (isolation.assigned.flatMap fun (t, a) => [ofMinted a, ⟨.trace, .isolation, s!"Isolating {t} as {a}"⟩]) ++
    [⟨.debug, .isolation, s!"Isolated {isolation.assigned.length} terminals"⟩]

def ofBinarization (split : Binarization) : List Record :=
  ⟨.debug, .binarization, "Binarizing productions"⟩ :: split.minted.map ofMinted ++
    [⟨.debug, .binarization, s!"Created {split.minted.length} nonterminals while binarizing"⟩]

def counts (verb : String) (g : Grammar) : Record :=
  ⟨.info, .conversion, s!"{verb} {g.productions.size} productions, {g.nonterminals.size} nonterminals, " ++
    s!"{g.terminals.size} terminals"⟩

def ofPasses (passes : Passes) : List Record :=
  ofEpsilonFree passes.epsilonFree ++ [afterStage .epsilonFree passes.epsilonFree] ++
    ofUnitFree passes.epsilonFree passes.unitFree ++ [afterStage .unitFree passes.unitFree] ++
    ofUseful passes.unitFree passes.useful ++ [afterStage .useful passes.useful] ++
    ofIsolation passes.isolation ++ [afterStage .isolation passes.isolation.grammar] ++
    ofBinarization passes.binarization ++ [afterStage .binarization passes.binarization.grammar] ++
    [counts "Grammar has" passes.binarization.grammar]

/-- What is logged while a grammar is converted, as far as the conversion comes. -/
def ofConversion (g : Grammar) (options : Options) : List Record :=
  match g.check with
  | .error _ => []
  | .ok () =>
    nullableRounds g ++
      match g.checkExpansion options.maxNullable with
      | .error _ => []
      | .ok () =>
        counts "Converting grammar with" g :: ofEpsilonSearch g ++
          match g.runPasses options with
          | .error _ => []
          | .ok passes => ofPasses passes

end ContextFree.Log
