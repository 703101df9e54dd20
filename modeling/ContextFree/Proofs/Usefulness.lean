import ContextFree.Proofs.Language
import ContextFree.Proofs.Tree

namespace ContextFree

namespace Grammar

variable {g h : Grammar}

/-- A derivation from the start symbol meets the nonterminal between forms that have words. -/
def Meets (g : Grammar) (a : Name) : Prop :=
  ∃ before after u v, g.Derives [.nonterminal g.start] (before ++ .nonterminal a :: after) ∧
    g.Yields before u ∧ g.Yields after v

theorem meets_start (g : Grammar) : g.Meets g.start :=
  ⟨[], [], [], [], .refl _, .nil, .nil⟩

theorem Meets.of_mem {p : Production} (meets : g.Meets p.lhs) (stored : p ∈ g.productions) {word : List Name}
    (yields : g.Yields p.rhs word) {a : Name} (member : .nonterminal a ∈ p.rhs) : g.Meets a := by
  obtain ⟨before, after, u, v, derivation, left, right⟩ := meets
  obtain ⟨front, back, split⟩ := List.append_of_mem member
  rw [split, List.append_cons] at yields
  obtain ⟨x, _, y, _, frontYields, _, backYields⟩ := yields.split
  have step := Step.apply before after stored
  rw [split] at step
  refine ⟨before ++ front, back ++ after, u ++ x, y ++ v, ?_, left.append frontYields, backYields.append right⟩
  exact derivation.trans (.step (by simpa using step) (.refl _))

theorem Meets.uses {p : Production} (meets : g.Meets p.lhs) {word : List Name} (yields : g.Yields p.rhs word) :
    g.Uses p := by
  obtain ⟨before, after, u, v, derivation, left, right⟩ := meets
  exact ⟨before, after, u ++ word ++ v, derivation, (left.append yields).append right⟩

/-- Nothing is there for nothing, except that the start symbol need not have a word. -/
structure Trim (g : Grammar) : Prop where
  used : ∀ p ∈ g.productions, g.Uses p
  defined : ∀ a ∈ g.nonterminals, a ≠ g.start → ∃ p ∈ g.productions, p.lhs = a

theorem exists_yields_withoutUseless {p : Production} (stored : p ∈ g.withoutUseless.productions) :
    ∃ word, g.withoutUseless.Yields p.rhs word := by
  obtain ⟨productive, _⟩ := mem_withoutUnreachable.mp stored
  obtain ⟨_, _, generating⟩ := mem_withoutNonGenerating.mp productive
  obtain ⟨word, yields⟩ := exists_yields fun a member => mem_generating_iff.mp (generating a member)
  have kept := yields.withoutUseless (fun _ => id) (fun _ _ => id)
    fun a member => mentioned_withoutUseless stored member
  exact ⟨word, kept⟩

/-- Productions that do not generate are gone before reachability is looked at, so that what lies
on the way to a nonterminal generates as well. -/
theorem withoutUseless_meets : ∀ a ∈ g.withoutUseless.nonterminals, g.withoutUseless.Meets a := by
  have both : ∀ a ∈ g.withoutNonGenerating.reachable,
      a ∈ g.withoutNonGenerating.reachable ∧ g.withoutUseless.Meets a := by
    refine reachable_induction ⟨start_mem_reachable, meets_start _⟩ fun p stored reached a member => ?_
    have kept : p ∈ g.withoutUseless.productions := mem_withoutUnreachable.mpr ⟨stored, reached.1⟩
    obtain ⟨word, yields⟩ := exists_yields_withoutUseless kept
    exact ⟨mentioned_withoutUseless kept member, reached.2.of_mem kept yields member⟩
  exact fun a declared => (both a declared).2

theorem withoutUseless_trim (g : Grammar) : g.withoutUseless.Trim where
  used p stored := by
    obtain ⟨word, yields⟩ := exists_yields_withoutUseless stored
    exact (withoutUseless_meets p.lhs ((Coherent.withoutUseless g).heads p stored)).uses yields
  defined a declared different := by
    have generates : ∀ a ∈ g.withoutUseless.nonterminals, a = g.start ∨ a ∈ g.generating := by
      refine reachable_induction (.inl rfl) fun p stored _ a member => .inr ?_
      exact (mem_withoutNonGenerating.mp stored).2.2 a member
    rcases generates a declared with same | generating
    · exact absurd same different
    · obtain ⟨word, yields⟩ := mem_generating_iff.mp generating
      obtain ⟨rhs, stored, inner⟩ := yields_nonterminal_iff.mp yields
      exact ⟨_, mem_withoutUseless_of_yields stored declared inner, rfl⟩

/-- A trim grammar that declares what its productions mention and no other terminal. -/
structure Tidy (g : Grammar) : Prop extends Closed g, Trim g where
  letters : ∀ t, t ∈ g.terminals ↔ ∃ p ∈ g.productions, .terminal t ∈ p.rhs

theorem Tidy.withoutNonGenerating_eq_self (tidy : g.Tidy) : g.withoutNonGenerating = g := by
  have generating : ∀ p ∈ g.productions,
      p.lhs ∈ g.generating ∧ ∀ a, .nonterminal a ∈ p.rhs → a ∈ g.generating := by
    intro p stored
    obtain ⟨word, yields⟩ := (tidy.used p stored).exists_yields
    exact (mem_withoutNonGenerating.mp (mem_withoutNonGenerating_of_yields stored yields)).2
  refine Grammar.withoutNonGenerating_eq_self (fun a => ⟨fun found => ?_, fun declared => ?_⟩) generating
  · rcases found with same | productive
    · exact same ▸ tidy.start
    · obtain ⟨word, yields⟩ := mem_generating_iff.mp productive
      obtain ⟨rhs, stored, _⟩ := yields_nonterminal_iff.mp yields
      exact tidy.heads _ stored
  · by_cases same : a = g.start
    · exact .inl same
    · obtain ⟨p, stored, rfl⟩ := tidy.defined a declared same
      exact .inr (generating p stored).1

theorem Tidy.withoutUnreachable_eq_self (tidy : g.Tidy) : g.withoutUnreachable = g := by
  have reached : ∀ p ∈ g.productions, p.lhs ∈ g.reachable := by
    intro p stored
    obtain ⟨before, after, _, derivation, _⟩ := tidy.used p stored
    refine reachable_of_derives derivation (fun a member => ?_) p.lhs (by simp)
    obtain rfl : a = g.start := by simpa using member
    exact start_mem_reachable
  have declared : ∀ a, a ∈ g.reachable ↔ a ∈ g.nonterminals := by
    intro a
    constructor
    · revert a
      exact reachable_induction tidy.start fun p stored _ a member => tidy.mentioned p stored a member
    · intro declared
      by_cases same : a = g.start
      · exact same ▸ start_mem_reachable
      · obtain ⟨p, stored, rfl⟩ := tidy.defined a declared same
        exact reached p stored
  refine Grammar.withoutUnreachable_eq_self declared (fun t => ?_) reached
  refine mem_reachableTerminals.trans (Iff.trans ?_ (tidy.letters t).symm)
  refine exists_congr fun p => and_congr_right fun stored => ?_
  exact and_iff_right (reached p stored)

/-- Nothing is dropped where nothing is useless. -/
theorem Tidy.withoutUseless_eq_self (tidy : g.Tidy) : g.withoutUseless = g := by
  rw [withoutUseless, tidy.withoutNonGenerating_eq_self, tidy.withoutUnreachable_eq_self]

theorem withoutUseless_tidy (g : Grammar) : g.withoutUseless.Tidy where
  toCoherent := Coherent.withoutUseless g
  mentioned _ stored _ member := mentioned_withoutUseless stored member
  used := (withoutUseless_trim g).used
  defined := (withoutUseless_trim g).defined
  letters t := by
    refine mem_reachableTerminals.trans (exists_congr fun p => ?_)
    rw [withoutUseless, mem_withoutUnreachable, and_assoc]

/-- No node of a forest is lost below roots that are left. -/
theorem Licenses.withoutUseless {forest : Forest} (licensed : g.Licenses forest)
    (declared : ∀ a, .nonterminal a ∈ forest.roots → a ∈ g.withoutUseless.nonterminals) :
    g.withoutUseless.Licenses forest := by
  induction forest with
  | nil => exact fun p member => by cases member
  | leaf t rest ih => exact ih licensed fun a member => declared a (.tail _ member)
  | node a children rest ihChildren ihRest =>
    obtain ⟨stored, below, beside⟩ := licenses_node_iff.mp licensed
    have kept := mem_withoutUseless_of_yields stored (declared a (.head _)) below.yields
    refine licenses_node_iff.mpr ⟨kept, ?_, ?_⟩
    · exact ihChildren below fun b inRoots => mentioned_withoutUseless kept inRoots
    · exact ihRest beside fun b inRoots => declared b (.tail _ inRoots)

theorem withoutUseless_isTree_iff {tree : Forest} : g.withoutUseless.IsTree tree ↔ g.IsTree tree := by
  constructor
  · intro isTree
    exact ⟨isTree.roots, fun p member => mem_of_mem_withoutUseless (isTree.licensed p member)⟩
  · intro isTree
    refine ⟨isTree.roots, isTree.licensed.withoutUseless fun a member => ?_⟩
    obtain rfl : a = g.start := by simpa [isTree.roots] using member
    exact (Coherent.withoutUseless g).start

theorem mem_withoutUseless_iff {p : Production} :
    p ∈ g.withoutUseless.productions ↔ ∃ tree : Forest, g.IsTree tree ∧ p ∈ tree.productions := by
  constructor
  · intro kept
    obtain ⟨tree, isTree, followed⟩ := ((withoutUseless_trim g).used p kept).exists_tree kept
    exact ⟨tree, withoutUseless_isTree_iff.mp isTree, followed⟩
  · intro found
    obtain ⟨tree, isTree, followed⟩ := found
    exact (withoutUseless_isTree_iff.mpr isTree).licensed p followed

/-- Just what stands in the derivation trees of the grammar is left, and the start symbol, and the
trees stay as they are. -/
theorem withoutUseless_exact (g : Grammar) :
    (∀ p, p ∈ g.withoutUseless.productions ↔
      p ∈ g.productions ∧ ∃ tree : Forest, g.IsTree tree ∧ p ∈ tree.productions) ∧
    (∀ a, a ∈ g.withoutUseless.nonterminals ↔ a = g.start ∨ ∃ tree : Forest, g.IsTree tree ∧ a ∈ tree.labels) ∧
    (∀ t, t ∈ g.withoutUseless.terminals ↔ ∃ tree : Forest, g.IsTree tree ∧ t ∈ tree.word) ∧
    g.withoutUseless.start = g.start ∧
    (∀ tree, g.withoutUseless.IsTree tree ↔ g.IsTree tree) ∧
    ∀ word, g.withoutUseless.Accepts word ↔ g.Accepts word := by
  have tidy := withoutUseless_tidy g
  refine ⟨fun p => ?_, fun a => ⟨fun declared => ?_, fun found => ?_⟩, fun t => ⟨fun declared => ?_, fun found => ?_⟩,
    rfl, fun _ => withoutUseless_isTree_iff, fun word => ?_⟩
  · refine mem_withoutUseless_iff.trans (and_iff_right_of_imp fun found => ?_).symm
    obtain ⟨tree, isTree, followed⟩ := found
    exact isTree.licensed p followed
  · by_cases same : a = g.start
    · exact .inl same
    · obtain ⟨p, kept, rfl⟩ := tidy.defined a declared same
      obtain ⟨tree, isTree, followed⟩ := mem_withoutUseless_iff.mp kept
      exact .inr ⟨tree, isTree, List.mem_map_of_mem followed⟩
  · rcases found with rfl | ⟨tree, isTree, inLabels⟩
    · exact tidy.start
    · obtain ⟨p, followed, rfl⟩ := List.mem_map.mp inLabels
      exact tidy.heads p (mem_withoutUseless_iff.mpr ⟨tree, isTree, followed⟩)
  · obtain ⟨p, kept, inRhs⟩ := (tidy.letters t).mp declared
    obtain ⟨tree, isTree, followed⟩ := mem_withoutUseless_iff.mp kept
    exact ⟨tree, isTree, isTree.mem_word_iff.mpr ⟨p, followed, inRhs⟩⟩
  · obtain ⟨tree, isTree, inWord⟩ := found
    obtain ⟨p, followed, inRhs⟩ := isTree.mem_word_iff.mp inWord
    exact (tidy.letters t).mpr ⟨p, mem_withoutUseless_iff.mpr ⟨tree, isTree, followed⟩, inRhs⟩
  · rw [accepts_iff_exists_tree, accepts_iff_exists_tree]
    exact exists_congr fun _ => and_congr_left fun _ => withoutUseless_isTree_iff

theorem Abbreviated.trim {short : Abbreviations} (abbreviated : Abbreviated g h short) (trim : g.Trim) : h.Trim where
  used p stored := by
    obtain ⟨q, inG, front, back, first, second⟩ := abbreviated.needed p stored
    obtain ⟨before, after, word, derivation, yields⟩ := trim.used q inG
    have start := abbreviated.derives derivation
    rw [← abbreviated.start] at start
    have down := first.frame before after
    have up := second.frame before after
    have words := abbreviated.derives yields.derives
    refine ⟨before ++ front, back ++ after, word, start.trans (by simpa using down), yields_iff_derives.mpr ?_⟩
    exact Derives.trans (by simpa using up) words
  defined a declared different := by
    rcases (abbreviated.nonterminals a).mp declared with old | isNew
    · rw [abbreviated.start] at different
      obtain ⟨p, stored, rfl⟩ := trim.defined a old different
      obtain ⟨word, inner⟩ := (trim.used p stored).exists_yields
      have words := abbreviated.derives (inner.of_mem stored).derives
      obtain ⟨rhs, inH, _⟩ := yields_nonterminal_iff.mp (yields_iff_derives.mpr words)
      exact ⟨_, inH, rfl⟩
    · exact abbreviated.defined a isNew

end Grammar

namespace Passes.Ran

variable {g : Grammar} {options : Options} {passes : Passes} (ran : passes.Ran g options) (formed : g.WellFormed)
include ran formed

theorem binarization_trim : passes.binarization.grammar.Trim := by
  obtain ⟨short, binarization⟩ := ran.exists_binarization_abbreviated formed
  have useful : passes.useful.Trim := by
    rw [ran.useful]
    exact Grammar.withoutUseless_trim _
  exact binarization.trim ((ran.isolation_abbreviated formed).trim useful)

theorem binarization_terminals : passes.binarization.grammar.terminals = passes.useful.terminals := by
  obtain ⟨short, binarization⟩ := ran.exists_binarization_abbreviated formed
  rw [binarization.terminals, (ran.isolation_abbreviated formed).terminals]

theorem exists_terminal_mem_binarization {word : List Name} (accepts : g.Accepts word) {t : Name} (member : t ∈ word) :
    ∃ p ∈ passes.binarization.grammar.productions, .terminal t ∈ p.rhs := by
  have nonempty : word ≠ [] := List.ne_nil_of_mem member
  have solid := ran.solid_generates formed (ran.start_mem_useful formed) nonempty accepts
  rcases (Grammar.generates_iff_yields.mp solid).exists_terminal_mem member with inForm | ⟨p, stored, inRhs⟩
  · simp at inForm
  · exact ⟨p, (Grammar.mem_solid.mp stored).1, inRhs⟩

/-- The terminals that are left are those of the language. -/
theorem mem_binarization_terminals_iff {t : Name} :
    t ∈ passes.binarization.grammar.terminals ↔ ∃ word, g.Accepts word ∧ t ∈ word := by
  constructor
  · intro declared
    rw [ran.binarization_terminals formed, ran.useful] at declared
    obtain ⟨p, stored, reached, member⟩ := Grammar.mem_reachableTerminals.mp declared
    have kept : p ∈ passes.unitFree.withoutUseless.productions := Grammar.mem_withoutUnreachable.mpr ⟨stored, reached⟩
    obtain ⟨before, after, word, derivation, yields⟩ := (Grammar.withoutUseless_trim _).used p kept
    have accepts : passes.useful.Accepts word := by
      have whole := yields.derives
      rw [Grammar.Accepts, Grammar.Generates, ran.useful]
      refine derivation.trans (.step ?_ whole)
      exact .apply before after kept
    rw [Grammar.Accepts, Grammar.Generates, ran.useful_start] at accepts
    have inside : .terminal t ∈ before ++ p.rhs ++ after := by simp [member]
    exact ⟨word, ran.derives_of_useful accepts, yields.terminal_mem inside⟩
  · intro found
    obtain ⟨word, accepts, member⟩ := found
    obtain ⟨p, stored, inRhs⟩ := ran.exists_terminal_mem_binarization formed accepts member
    exact (ran.binarization_wellFormed formed).letters p stored t inRhs

theorem binarization_tidy : passes.binarization.grammar.Tidy where
  toClosed := (ran.binarization_wellFormed formed).toClosed
  used := (ran.binarization_trim formed).used
  defined := (ran.binarization_trim formed).defined
  letters t := by
    constructor
    · intro declared
      obtain ⟨word, accepts, member⟩ := (ran.mem_binarization_terminals_iff formed).mp declared
      exact ran.exists_terminal_mem_binarization formed accepts member
    · intro found
      obtain ⟨p, stored, inRhs⟩ := found
      exact (ran.binarization_wellFormed formed).letters p stored t inRhs

end Passes.Ran

namespace Grammar

variable {g : Grammar} {options : Options} {c : Conversion}

/-- All that is left by a conversion is needed: the terminals are those of the language, and every
production and every nonterminal but the start symbol stands in a derivation tree. -/
theorem convert_trim (converted : g.convert options = .ok c) :
    (∀ t, t ∈ c.grammar.terminals ↔ ∃ word, g.Accepts word ∧ t ∈ word) ∧
      (∀ p ∈ c.grammar.productions, ∃ tree : Forest, c.grammar.IsTree tree ∧ p ∈ tree.productions) ∧
      ∀ a ∈ c.grammar.nonterminals, a ≠ c.grammar.start →
        ∃ tree : Forest, c.grammar.IsTree tree ∧ a ∈ tree.labels := by
  obtain ⟨formed, passes, result, same, _⟩ := convert_eq_ok converted
  have ran := ran_of_runPasses result
  have trim : c.grammar.Trim := same ▸ ran.binarization_trim formed
  refine ⟨fun t => ?_, fun p stored => (trim.used p stored).exists_tree stored, fun a declared different => ?_⟩
  · rw [same]
    exact ran.mem_binarization_terminals_iff formed
  · obtain ⟨p, stored, head⟩ := trim.defined a declared different
    obtain ⟨tree, isTree, followed⟩ := (trim.used p stored).exists_tree stored
    exact ⟨tree, isTree, List.mem_map.mpr ⟨p, followed, head⟩⟩

theorem nested_trim : ∃ c, nested.convert {} = .ok c ∧
    (∀ t, t ∈ c.grammar.terminals ↔ ∃ word, nested.Accepts word ∧ t ∈ word) ∧
      ∀ p ∈ c.grammar.productions, ∃ tree : Forest, c.grammar.IsTree tree ∧ p ∈ tree.productions := by
  obtain ⟨c, converted⟩ := nested_converts
  obtain ⟨terminals, productions, _⟩ := convert_trim converted
  exact ⟨c, converted, terminals, productions⟩

end Grammar

end ContextFree
