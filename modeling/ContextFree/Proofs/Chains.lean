import ContextFree.Proofs.Operation
import ContextFree.Proofs.Unfolding
import Mathlib.Data.List.Perm.Subperm

namespace ContextFree

namespace Binarization

/-- Makes a pair the only production of a new nonterminal. -/
def foldPair (split : Binarization) (pair : List Symbol) : Binarization :=
  let fresh := split.supply.mint split.grammar
  { grammar := fresh.grammar.insert ⟨fresh.name, pair⟩
    supply := fresh.supply
    minted := split.minted ++ [fresh.name] }

/-- Folds the last two symbols into a new nonterminal as long as there are more than two. -/
def foldEnds (split : Binarization) (form : List Symbol) : Binarization × List Symbol :=
  if 2 < form.length then
    (split.foldPair (form.drop (form.length - 2))).foldEnds
      (form.take (form.length - 2) ++ [.nonterminal (split.supply.mint split.grammar).name])
  else (split, form)
termination_by form.length
decreasing_by
  simp only [List.length_append, List.length_take, List.length_singleton]
  omega

def addFolded (split : Binarization) (p : Production) : Binarization :=
  let (split, rhs) := split.foldEnds p.rhs
  { split with grammar := split.grammar.insert ⟨p.lhs, rhs⟩ }

theorem shorten_cons (split : Binarization) (s : Symbol) {form : List Symbol} (long : 2 ≤ form.length) :
    split.shorten (s :: form) =
      let (after, pair) := split.shorten form
      (after.foldPair pair, [s, .nonterminal (after.supply.mint after.grammar).name]) := by
  rcases form with _ | ⟨t, _ | ⟨u, rest⟩⟩
  · simp at long
  · simp at long
  · rfl

/-- The last two symbols are folded before anything else is. -/
theorem shorten_append (split : Binarization) {init pair : List Symbol} (some : init ≠ []) (two : pair.length = 2) :
    split.shorten (init ++ pair) =
      (split.foldPair pair).shorten (init ++ [.nonterminal (split.supply.mint split.grammar).name]) := by
  induction init with
  | nil => exact absurd rfl some
  | cons s init ih =>
    rw [List.cons_append, List.cons_append]
    rcases init with _ | ⟨t, init⟩
    · rw [List.nil_append, shorten_cons split s two.ge, shorten_of_short split two.le]
      exact (shorten_of_short _ (by simp)).symm
    · have longer : 2 ≤ (t :: init ++ pair).length := by
        rw [List.length_append]
        omega
      rw [shorten_cons split s longer, ih (List.cons_ne_nil t init), shorten_cons _ s (by simp)]

theorem foldEnds_eq_shorten (split : Binarization) (form : List Symbol) : split.foldEnds form = split.shorten form := by
  fun_induction foldEnds split form with
  | case1 split form long ih =>
    have some : form.take (form.length - 2) ≠ [] := by
      rw [Ne, List.take_eq_nil_iff, not_or, ← List.length_eq_zero_iff]
      omega
    have two : (form.drop (form.length - 2)).length = 2 := by
      rw [List.length_drop]
      omega
    rw [ih, ← shorten_append split some two, List.take_append_drop]
  | case2 split form short => exact (shorten_of_short split (Nat.le_of_not_lt short)).symm

theorem length_lt_of_mem_suffixes {rhs : List Symbol} {names : List Name} {a : Name} {form : List Symbol}
    (member : (a, form) ∈ suffixes rhs names) : form.length < rhs.length := by
  cases names with
  | nil => cases rhs <;> cases member
  | cons y names =>
    cases rhs with
    | nil => cases member
    | cons s rest =>
      rw [List.length_cons, Nat.lt_succ_iff]
      rcases List.mem_cons.mp member with first | later
      · cases first
        exact Nat.le_refl _
      · exact (sublist_of_mem_suffixes later).length_le

/-- On the right-hand sides of a chain stand the symbols that were split, and each name once. -/
theorem rhs_chain_perm (lhs : Name) {rhs : List Symbol} {names : List Name} (enough : names.length ≤ rhs.length) :
    ((chain lhs rhs names).flatMap Production.rhs).Perm (rhs ++ names.map .nonterminal) := by
  induction names generalizing lhs rhs with
  | nil =>
    rw [chain_nil]
    simp
  | cons y names ih =>
    cases rhs with
    | nil => simp at enough
    | cons s rest =>
      have tail := @ih y rest (by simpa using enough)
      have head : (chain lhs (s :: rest) (y :: names)).flatMap Production.rhs =
          s :: .nonterminal y :: (chain y rest names).flatMap Production.rhs := by simp [chain]
      rw [head]
      exact ((tail.cons _).cons s).trans (List.perm_middle.symm.cons s)

end Binarization

namespace Grammar

variable {g : Grammar}

def folded (g : Grammar) (supply : NameSupply) : Binarization :=
  g.productions.toList.foldl Binarization.addFolded ⟨g.withoutProductions, supply, []⟩

/-- It makes no difference whether right-hand sides are folded from their ends or split recursively. -/
theorem folded_eq (g : Grammar) (supply : NameSupply) : g.folded supply = g.binarize supply := by
  have same : Binarization.addFolded = Binarization.add := by
    funext split p
    rw [Binarization.addFolded, Binarization.foldEnds_eq_shorten]
    rfl
  rw [folded, same]
  rfl

section

variable {split : Binarization} {splits : List Binarization.Split}
  (listed : splits.map Binarization.Split.production = g.productions.toList) (chained : split.Chained g splits)
  (closed : g.Closed)
include listed chained closed

theorem map_written_split {s : Binarization.Split} (member : s ∈ splits) :
    s.chain.map (Binarization.abbreviations splits).written = s.production :: s.suffixes.rules := by
  refine Binarization.map_written_chain ?_ (fun _ suffix => List.mem_flatMap.mpr ⟨s, member, suffix⟩)
    (not_mem_names_of_chained listed chained closed member)
  rw [Binarization.names_abbreviations chained.length]
  exact chained.distinct

/-- Written out, all chains are the productions that they take the place of, and what the new
nonterminals stand for. -/
theorem map_written_chains_perm : ((splits.flatMap Binarization.Split.chain).map
    (Binarization.abbreviations splits).written).Perm
      (g.productions.toList ++ (Binarization.abbreviations splits).rules) := by
  have written : (splits.flatMap Binarization.Split.chain).map (Binarization.abbreviations splits).written =
      splits.flatMap fun s => s.production :: s.suffixes.rules := by
    rw [List.map_flatMap]
    exact List.flatMap_congr fun s member => map_written_split listed chained closed member
  have rules : (Binarization.abbreviations splits).rules = splits.flatMap fun s => s.suffixes.rules := by
    rw [Abbreviations.rules, Binarization.abbreviations, List.map_flatMap]
    rfl
  rw [written, rules, ← listed]
  exact (List.map_append_flatMap_perm splits _ _).symm

theorem nodup_written_chains : ((splits.flatMap Binarization.Split.chain).map
    (Binarization.abbreviations splits).written).Nodup := by
  have abbreviated := abbreviated_of_chained listed chained closed
  have distinct := abbreviated.nodup_append_rules closed.toCoherent
  exact (map_written_chains_perm listed chained closed).nodup_iff.mpr distinct

/-- No two productions of the chains are the same. -/
theorem productions_perm_chains :
    split.grammar.productions.toList.Perm (splits.flatMap Binarization.Split.chain) := by
  refine FiniteSet.toList_perm (.of_map _ (nodup_written_chains listed chained closed)) fun p => ?_
  rw [chained.productions, List.mem_flatMap]

theorem chained_foldings : Foldings g split.grammar (Binarization.abbreviations splits) := by
  have names := Binarization.names_abbreviations chained.length
  constructor
  case toAbbreviated => exact abbreviated_of_chained listed chained closed
  case nonempty =>
    intro a form stands
    obtain ⟨s, member, suffix⟩ := List.mem_flatMap.mp stands
    exact Binarization.ne_nil_of_mem_suffixes (chained.length s member).le suffix
  case bounded =>
    -- The start symbol and the names of a chain are as many as the symbols of its longest suffix.
    intro a form stands
    obtain ⟨s, member, suffix⟩ := List.mem_flatMap.mp stands
    have less := Binarization.length_lt_of_mem_suffixes suffix
    have count := chained.length s member
    have isNew : ∀ y ∈ s.names, y ∈ splits.flatMap Binarization.Split.names := fun y inside =>
      List.mem_flatMap.mpr ⟨s, member, inside⟩
    have distinct : (g.start :: s.names).Nodup := by
      refine List.nodup_cons.mpr ⟨fun inside => ?_, (List.nodup_flatMap.mp chained.distinct).1 s member⟩
      exact (usesName_eq_false_iff.mp (chained.fresh _ (isNew _ inside))).2 closed.start
    have declared : g.start :: s.names ⊆ split.grammar.nonterminals.toList := by
      intro y inside
      rw [Std.ExtTreeSet.mem_toList, chained.nonterminals]
      rcases List.mem_cons.mp inside with rfl | isName
      · exact .inl closed.start
      · exact .inr (isNew y isName)
    have enough := (distinct.subperm declared).length_le
    rw [List.length_cons, Std.ExtTreeSet.length_toList] at enough
    omega
  case long =>
    intro p stored a isNew inside
    obtain ⟨s, member, inChain⟩ := (chained.productions p).mp stored
    have count := chained.length s member
    have length := Binarization.length_of_mem_chain count inChain
    by_contra short
    have none : s.names = [] := List.length_eq_zero_iff.mp (by omega)
    rw [Binarization.Split.chain, none, Binarization.chain_nil, List.mem_singleton] at inChain
    rw [inChain] at inside
    exact not_mem_names_of_chained listed chained closed member a inside isNew
  case faithful =>
    intro p first q second
    have inFirst := List.mem_flatMap.mpr ((chained.productions p).mp first)
    have inSecond := List.mem_flatMap.mpr ((chained.productions q).mp second)
    exact List.inj_on_of_nodup_map (nodup_written_chains listed chained closed) inFirst inSecond
  case kept =>
    intro q stored
    obtain ⟨s, member, rfl⟩ := (mem_iff_exists_split listed).mp stored
    have first : s.production ∈ s.chain.map (Binarization.abbreviations splits).written := by
      rw [map_written_split listed chained closed member]
      exact .head _
    obtain ⟨p, inChain, same⟩ := List.mem_map.mp first
    exact ⟨p, mem_of_mem_chain chained member inChain, same⟩

/-- A new nonterminal stands in one place only. -/
theorem count_of_chained {a : Name} (isNew : a ∈ splits.flatMap Binarization.Split.names) :
    (split.grammar.productions.toList.flatMap Production.rhs).count (.nonterminal a) = 1 := by
  let old := splits.flatMap fun s => s.production.rhs
  let new := (splits.flatMap Binarization.Split.names).map Symbol.nonterminal
  have inChains := (productions_perm_chains listed chained closed).flatMap_right Production.rhs
  have inOrder : ((splits.flatMap Binarization.Split.chain).flatMap Production.rhs).Perm
      (splits.flatMap fun s => s.production.rhs ++ s.names.map .nonterminal) := by
    rw [List.flatMap_assoc]
    refine List.Perm.flatMap_left splits fun s member => Binarization.rhs_chain_perm _ ?_
    have count := chained.length s member
    omega
  have apart : (old ++ new).Perm (splits.flatMap fun s => s.production.rhs ++ s.names.map .nonterminal) := by
    change (old ++ (splits.flatMap Binarization.Split.names).map Symbol.nonterminal).Perm _
    rw [List.map_flatMap]
    exact List.flatMap_append_perm splits _ _
  have notOld : old.count (.nonterminal a) = 0 := by
    refine List.count_eq_zero.mpr fun inside => ?_
    obtain ⟨s, member, mentioned⟩ := List.mem_flatMap.mp inside
    refine not_mem_names_of_chained listed chained closed member a mentioned ?_
    rwa [Binarization.names_abbreviations chained.length]
  have onceNew : new.count (.nonterminal a) = 1 := by
    refine List.count_eq_one_of_mem (chained.distinct.map fun _ _ => Symbol.nonterminal.inj) ?_
    exact List.mem_map_of_mem isNew
  rw [((inChains.trans inOrder).trans apart.symm).count_eq, List.count_append, notOld, onceNew]

end

/-- Binarization puts a chain in the place of each production, with new nonterminals that no other
chain uses and that stand in one place only. Nothing else is changed, so that unfolding the new
nonterminals gives the grammar back. -/
theorem Built.binarize_exact (built : g.Built)
    (mentioned : ∀ p ∈ g.productions, ∀ a, .nonterminal a ∈ p.rhs → a ∈ g.nonterminals) (supply : NameSupply) :
    Asserted.binarize g supply = .ok (g.binarize supply) ∧ g.folded supply = g.binarize supply ∧
      (g.binarize supply).grammar.unfolded g.nonterminals = g ∧
      ∃ splits : List Binarization.Split,
        splits.map Binarization.Split.production = g.productions.toList ∧
        (∀ s ∈ splits, s.names.length = s.production.rhs.length - 2) ∧
        (splits.flatMap Binarization.Split.names).Nodup ∧
        (∀ a ∈ splits.flatMap Binarization.Split.names, g.usesName a = false ∧
          (∃ p, (g.binarize supply).grammar.productionsOf a = [p]) ∧
          ((g.binarize supply).grammar.productions.toList.flatMap Production.rhs).count (.nonterminal a) = 1) ∧
        (g.binarize supply).grammar.productions.toList.Perm (splits.flatMap Binarization.Split.chain) ∧
        (∀ p ∈ g.productions, p.rhs.length ≤ 2 → p ∈ (g.binarize supply).grammar.productions) ∧
        (∀ a, a ∈ (g.binarize supply).grammar.nonterminals ↔
          a ∈ g.nonterminals ∨ a ∈ splits.flatMap Binarization.Split.names) ∧
        (g.binarize supply).grammar.terminals = g.terminals ∧ (g.binarize supply).grammar.start = g.start := by
  have closed : g.Closed := ⟨built.coherent, mentioned⟩
  obtain ⟨splits, listed, chained⟩ := exists_chained g supply
  have foldings := chained_foldings listed chained closed
  refine ⟨Asserted.binarize_eq built.coherent supply, folded_eq g supply, foldings.unfolded_eq built.coherent,
    splits, listed, chained.length, chained.distinct, fun a isNew => ⟨chained.fresh a isNew, ?_, ?_⟩,
    productions_perm_chains listed chained closed, fun p stored short => ?_, chained.nonterminals,
    chained.terminals, chained.start⟩
  · rw [← Binarization.names_abbreviations chained.length] at isNew
    obtain ⟨p, _, _, single⟩ := foldings.exists_productionsOf built.coherent isNew
    exact ⟨p, single⟩
  · exact count_of_chained listed chained closed isNew
  · obtain ⟨s, member, rfl⟩ := (mem_iff_exists_split listed).mp stored
    have count := chained.length s member
    have none : s.names = [] := List.length_eq_zero_iff.mp (by omega)
    refine mem_of_mem_chain chained member ?_
    rw [Binarization.Split.chain, none, Binarization.chain_nil]
    exact .head _

/-- Two long right-hand sides with one ending, beside a terminal that has the first of the names that
are tried. -/
def ended : Grammar :=
  (ofStart "S").after [.declareTerminal "X0", .declareTerminal "b",
    .addProduction ⟨"S", [.terminal "X0", .nonterminal "S", .terminal "b"]⟩,
    .addProduction ⟨"S", [.terminal "b", .terminal "b", .nonterminal "S", .terminal "b"]⟩, .addProduction ⟨"S", []⟩]

theorem ended_binarize : ended.Built ∧ (ended.binarize (.ofStem "X")).grammar.unfolded ended.nonterminals = ended ∧
    ∃ splits : List Binarization.Split, splits.map Binarization.Split.production = ended.productions.toList ∧
      (splits.flatMap Binarization.Split.names).Nodup ∧ "X0" ∉ splits.flatMap Binarization.Split.names ∧
      (ended.binarize (.ofStem "X")).grammar.productions.toList.Perm (splits.flatMap Binarization.Split.chain) := by
  have built : ended.Built := ⟨_, _, .ofStart _, rfl⟩
  have formed : ended.WellFormed := check_eq_ok_iff.mp (by decide +kernel)
  have taken : ended.usesName "X0" = true := by decide +kernel
  obtain ⟨_, _, back, splits, listed, _, distinct, fresh, perm, _⟩ :=
    built.binarize_exact formed.mentioned (.ofStem "X")
  refine ⟨built, back, splits, listed, distinct, fun isNew => ?_, perm⟩
  have unused := (fresh "X0" isNew).1
  rw [taken] at unused
  cases unused

end Grammar

end ContextFree
