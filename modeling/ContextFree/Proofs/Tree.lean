import ContextFree.Proofs.Yields

namespace ContextFree

/-- Derivation trees that stand side by side. A node has its children below it and the trees to the
right of it beside it, so that a single tree is a forest with a single root. -/
inductive Forest
  | nil
  | leaf (t : Name) (rest : Forest)
  | node (a : Name) (children rest : Forest)

namespace Forest

def roots : Forest → List Symbol
  | nil => []
  | leaf t rest => .terminal t :: rest.roots
  | node a _ rest => .nonterminal a :: rest.roots

def word : Forest → List Name
  | nil => []
  | leaf t rest => t :: rest.word
  | node _ children rest => children.word ++ rest.word

/-- What the nodes make of their nonterminals. -/
def productions : Forest → List Production
  | nil => []
  | leaf _ rest => rest.productions
  | node a children rest => ⟨a, children.roots⟩ :: (children.productions ++ rest.productions)

def labels (forest : Forest) : List Name := forest.productions.map Production.lhs

/-- The leaves are roots, or they hang below a node. -/
theorem mem_word_iff {forest : Forest} {t : Name} :
    t ∈ forest.word ↔ .terminal t ∈ forest.roots ∨ ∃ p ∈ forest.productions, .terminal t ∈ p.rhs := by
  induction forest with
  | nil => simp [word, roots, productions]
  | leaf u rest ih =>
    rw [word, roots, productions, List.mem_cons, List.mem_cons, ih, Symbol.terminal.injEq, or_assoc]
  | node a children rest ihChildren ihRest =>
    have split : (∃ p ∈ (node a children rest).productions, .terminal t ∈ p.rhs) ↔
        (.terminal t ∈ children.roots ∨ ∃ p ∈ children.productions, .terminal t ∈ p.rhs) ∨
          ∃ p ∈ rest.productions, .terminal t ∈ p.rhs := by
      simp only [productions, List.mem_cons, List.mem_append, or_and_right, exists_or, exists_eq_left, or_assoc]
    rw [split, ← ihChildren, word, roots, List.mem_append, List.mem_cons, ihRest]
    simp [or_left_comm]

theorem exists_split {forest : Forest} {x y : List Symbol} (split : forest.roots = x ++ y) :
    ∃ left right : Forest, left.roots = x ∧ right.roots = y ∧ forest.word = left.word ++ right.word ∧
      ∀ p, p ∈ forest.productions ↔ p ∈ left.productions ∨ p ∈ right.productions := by
  induction x generalizing forest with
  | nil => exact ⟨nil, forest, rfl, split, rfl, fun p => by simp [productions]⟩
  | cons s x ih =>
    cases forest with
    | nil => cases split
    | leaf t rest =>
      obtain ⟨same, split⟩ := List.cons.inj split
      obtain ⟨left, right, leftRoots, rightRoots, words, followed⟩ := ih split
      refine ⟨leaf t left, right, ?_, rightRoots, ?_, followed⟩
      · rw [roots, leftRoots, same]
      · rw [word, word, words, List.cons_append]
    | node a children rest =>
      obtain ⟨same, split⟩ := List.cons.inj split
      obtain ⟨left, right, leftRoots, rightRoots, words, followed⟩ := ih split
      refine ⟨node a children left, right, ?_, rightRoots, ?_, fun p => ?_⟩
      · rw [roots, leftRoots, same]
      · rw [word, word, words, List.append_assoc]
      · simp only [productions, List.mem_cons, List.mem_append, followed p, or_assoc]

/-- Puts a node above the roots that make up the right-hand side of a production. -/
theorem exists_node {forest : Forest} {p : Production} {before after : List Symbol}
    (split : forest.roots = before ++ p.rhs ++ after) :
    ∃ taller : Forest, taller.roots = before ++ .nonterminal p.lhs :: after ∧ taller.word = forest.word ∧
      ∀ q, q ∈ taller.productions ↔ q = p ∨ q ∈ forest.productions := by
  rw [List.append_assoc] at split
  induction before generalizing forest with
  | nil =>
    rw [List.nil_append] at split
    obtain ⟨children, rest, childrenRoots, restRoots, words, followed⟩ := exists_split split
    refine ⟨node p.lhs children rest, ?_, words.symm, fun q => ?_⟩
    · rw [roots, restRoots, List.nil_append]
    · simp only [productions, childrenRoots, List.mem_cons, List.mem_append, followed q]
  | cons s before ih =>
    cases forest with
    | nil => cases split
    | leaf t rest =>
      obtain ⟨same, split⟩ := List.cons.inj split
      obtain ⟨taller, tallerRoots, words, followed⟩ := ih split
      refine ⟨leaf t taller, ?_, ?_, followed⟩
      · rw [roots, tallerRoots, same, List.cons_append]
      · rw [word, word, words]
    | node a children rest =>
      obtain ⟨same, split⟩ := List.cons.inj split
      obtain ⟨taller, tallerRoots, words, followed⟩ := ih split
      refine ⟨node a children taller, ?_, ?_, fun q => ?_⟩
      · rw [roots, tallerRoots, same, List.cons_append]
      · rw [word, word, words]
      · simp only [productions, List.mem_cons, List.mem_append, followed q, or_left_comm]

end Forest

namespace Grammar

variable {g : Grammar}

/-- Every node of the forest follows a production of the grammar. -/
def Licenses (g : Grammar) (forest : Forest) : Prop :=
  ∀ p ∈ forest.productions, p ∈ g.productions

/-- A derivation tree from the start symbol to a word of terminals. -/
structure IsTree (g : Grammar) (tree : Forest) : Prop where
  roots : tree.roots = [.nonterminal g.start]
  licensed : g.Licenses tree

theorem licenses_node_iff {a : Name} {children rest : Forest} :
    g.Licenses (.node a children rest) ↔
      ⟨a, children.roots⟩ ∈ g.productions ∧ g.Licenses children ∧ g.Licenses rest := by
  simp only [Licenses, Forest.productions, List.forall_mem_cons, List.forall_mem_append]

theorem Licenses.yields {forest : Forest} (licensed : g.Licenses forest) : g.Yields forest.roots forest.word := by
  induction forest with
  | nil => exact .nil
  | leaf t rest ih => exact .terminal (ih licensed)
  | node a children rest ihChildren ihRest =>
    obtain ⟨stored, below, beside⟩ := licenses_node_iff.mp licensed
    exact .nonterminal stored (ihChildren below) (ihRest beside)

theorem Yields.exists_forest {form : List Symbol} {word : List Name} (yields : g.Yields form word) :
    ∃ forest : Forest, forest.roots = form ∧ forest.word = word ∧ g.Licenses forest := by
  induction yields with
  | nil => exact ⟨.nil, rfl, rfl, fun p member => by cases member⟩
  | @terminal t _ _ _ ih =>
    obtain ⟨rest, roots, word, licensed⟩ := ih
    exact ⟨.leaf t rest, congrArg _ roots, congrArg _ word, licensed⟩
  | @nonterminal a rhs _ _ _ stored _ _ ihInner ihRest =>
    obtain ⟨children, childrenRoots, childrenWord, below⟩ := ihInner
    obtain ⟨rest, restRoots, restWord, beside⟩ := ihRest
    rw [← childrenRoots] at stored
    refine ⟨.node a children rest, ?_, ?_, licenses_node_iff.mpr ⟨stored, below, beside⟩⟩
    · rw [Forest.roots, restRoots]
    · rw [Forest.word, childrenWord, restWord]

theorem IsTree.mem_word_iff {tree : Forest} (isTree : g.IsTree tree) {t : Name} :
    t ∈ tree.word ↔ ∃ p ∈ tree.productions, .terminal t ∈ p.rhs := by
  rw [Forest.mem_word_iff, isTree.roots, or_iff_right]
  simp

/-- A word is accepted exactly if it has a derivation tree. -/
theorem accepts_iff_exists_tree {word : List Name} :
    g.Accepts word ↔ ∃ tree : Forest, g.IsTree tree ∧ tree.word = word := by
  rw [Accepts, generates_iff_yields]
  constructor
  · intro yields
    obtain ⟨tree, roots, same, licensed⟩ := yields.exists_forest
    exact ⟨tree, ⟨roots, licensed⟩, same⟩
  · intro found
    obtain ⟨tree, ⟨roots, licensed⟩, same⟩ := found
    rw [← roots, ← same]
    exact licensed.yields

/-- A derivation grows the trees above its last form, and nothing that stood there is lost. -/
theorem Derives.exists_forest {form last : List Symbol} (derivation : g.Derives form last) {forest : Forest}
    (roots : forest.roots = last) (licensed : g.Licenses forest) :
    ∃ taller : Forest, taller.roots = form ∧ g.Licenses taller ∧ forest.productions ⊆ taller.productions := by
  induction derivation with
  | refl => exact ⟨forest, roots, licensed, fun _ member => member⟩
  | step first _ ih =>
    obtain ⟨middle, middleRoots, middleLicensed, kept⟩ := ih roots
    obtain ⟨before, after, stored⟩ := first
    obtain ⟨taller, tallerRoots, _, followed⟩ := Forest.exists_node middleRoots
    refine ⟨taller, tallerRoots, fun q member => ?_, fun q member => (followed q).mpr (.inr (kept member))⟩
    rcases (followed q).mp member with same | old
    · exact same ▸ stored
    · exact middleLicensed q old

/-- A derivation of some word from the start symbol follows the production. -/
def Uses (g : Grammar) (p : Production) : Prop :=
  ∃ before after word, g.Derives [.nonterminal g.start] (before ++ .nonterminal p.lhs :: after) ∧
    g.Yields (before ++ p.rhs ++ after) word

theorem Uses.exists_yields {p : Production} (used : g.Uses p) : ∃ word, g.Yields p.rhs word := by
  obtain ⟨_, _, _, _, yields⟩ := used
  obtain ⟨_, word, _, _, _, inner, _⟩ := yields.split
  exact ⟨word, inner⟩

theorem Uses.exists_tree {p : Production} (used : g.Uses p) (stored : p ∈ g.productions) :
    ∃ tree : Forest, g.IsTree tree ∧ p ∈ tree.productions := by
  obtain ⟨before, after, word, derivation, yields⟩ := used
  obtain ⟨forest, roots, _, licensed⟩ := yields.exists_forest
  obtain ⟨taller, tallerRoots, _, followed⟩ := Forest.exists_node roots
  have tallerLicensed : g.Licenses taller := by
    intro q member
    rcases (followed q).mp member with same | old
    · exact same ▸ stored
    · exact licensed q old
  obtain ⟨tree, treeRoots, treeLicensed, kept⟩ := derivation.exists_forest tallerRoots tallerLicensed
  exact ⟨tree, ⟨treeRoots, treeLicensed⟩, kept ((followed p).mpr (.inl rfl))⟩

end Grammar

end ContextFree
