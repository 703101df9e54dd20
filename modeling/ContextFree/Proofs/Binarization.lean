import ContextFree.Binarization
import ContextFree.Proofs.Abbreviation
import ContextFree.Proofs.NameSupply
import Mathlib.Data.List.Nodup

namespace ContextFree

namespace Binarization

/-- The productions that take the place of one with a long right-hand side: each but the last
passes all symbols but its first on to the next of the names. -/
def chain (lhs : Name) : List Symbol → List Name → List Production
  | s :: rest, y :: names => ⟨lhs, [s, .nonterminal y]⟩ :: chain y rest names
  | rhs, _ => [⟨lhs, rhs⟩]

/-- What the names of a chain stand for. -/
def suffixes : List Symbol → List Name → Abbreviations
  | _ :: rest, y :: names => (y, rest) :: suffixes rest names
  | _, _ => []

theorem chain_nil (lhs : Name) (rhs : List Symbol) : chain lhs rhs [] = [⟨lhs, rhs⟩] := by
  cases rhs <;> rfl

theorem names_suffixes {rhs : List Symbol} {names : List Name} (enough : names.length ≤ rhs.length) :
    (suffixes rhs names).names = names := by
  induction names generalizing rhs with
  | nil => cases rhs <;> rfl
  | cons y names ih =>
    cases rhs with
    | nil => simp at enough
    | cons s rest =>
      have tail : (suffixes rest names).names = names := ih (by simpa using enough)
      rw [suffixes, Abbreviations.names, List.map_cons, ← Abbreviations.names, tail]

theorem sublist_of_mem_suffixes {rhs : List Symbol} {names : List Name} {a : Name} {form : List Symbol}
    (member : (a, form) ∈ suffixes rhs names) : form.Sublist rhs := by
  induction names generalizing rhs with
  | nil => cases rhs <;> cases member
  | cons y names ih =>
    cases rhs with
    | nil => cases member
    | cons s rest =>
      rcases List.mem_cons.mp member with first | later
      · cases first
        exact List.sublist_cons_self s form
      · exact (ih later).cons s

theorem subset_of_mem_suffixes {rhs : List Symbol} {names : List Name} {a : Name} {form : List Symbol}
    (member : (a, form) ∈ suffixes rhs names) : form ⊆ rhs :=
  (sublist_of_mem_suffixes member).subset

/-- The last of the names stands for two symbols or more. -/
theorem ne_nil_of_mem_suffixes {rhs : List Symbol} {names : List Name} (fewer : names.length ≤ rhs.length - 2)
    {a : Name} {form : List Symbol} (member : (a, form) ∈ suffixes rhs names) : form ≠ [] := by
  induction names generalizing rhs with
  | nil => cases rhs <;> cases member
  | cons y names ih =>
    cases rhs with
    | nil => cases member
    | cons s rest =>
      simp only [List.length_cons] at fewer
      rcases List.mem_cons.mp member with first | later
      · cases first
        rintro rfl
        simp at fewer
      · exact ih (by omega) later

theorem exists_head_mem_chain (lhs : Name) (rhs : List Symbol) (names : List Name) :
    ∃ p ∈ chain lhs rhs names, p.lhs = lhs := by
  unfold chain
  split <;> exact ⟨_, .head _, rfl⟩

theorem exists_mem_chain (lhs : Name) {rhs : List Symbol} {names : List Name} (enough : names.length ≤ rhs.length)
    {a : Name} (member : a ∈ names) : ∃ p ∈ chain lhs rhs names, p.lhs = a := by
  induction names generalizing lhs rhs with
  | nil => cases member
  | cons y names ih =>
    cases rhs with
    | nil => simp at enough
    | cons s rest =>
      have found : ∃ p ∈ chain y rest names, p.lhs = a := by
        rcases List.mem_cons.mp member with rfl | later
        · exact exists_head_mem_chain a rest names
        · exact ih y (by simpa using enough) later
      obtain ⟨p, inChain, same⟩ := found
      exact ⟨p, .tail _ inChain, same⟩

theorem lhs_of_mem_chain {lhs : Name} {rhs : List Symbol} {names : List Name} {p : Production}
    (member : p ∈ chain lhs rhs names) : p.lhs = lhs ∨ p.lhs ∈ names := by
  induction names generalizing lhs rhs with
  | nil =>
    rw [chain_nil] at member
    obtain rfl := List.mem_singleton.mp member
    exact .inl rfl
  | cons y names ih =>
    cases rhs with
    | nil =>
      obtain rfl := List.mem_singleton.mp member
      exact .inl rfl
    | cons s rest =>
      rcases List.mem_cons.mp member with rfl | later
      · exact .inl rfl
      · rcases ih later with first | further
        · exact .inr (first ▸ .head _)
        · exact .inr (.tail _ further)

theorem length_of_mem_chain {lhs : Name} {rhs : List Symbol} {names : List Name}
    (length : names.length = rhs.length - 2) {p : Production} (member : p ∈ chain lhs rhs names) :
    p.rhs.length = min rhs.length 2 := by
  induction names generalizing lhs rhs with
  | nil =>
    rw [chain_nil] at member
    obtain rfl := List.mem_singleton.mp member
    show rhs.length = min rhs.length 2
    simp only [List.length_nil] at length
    omega
  | cons y names ih =>
    cases rhs with
    | nil => simp at length
    | cons s rest =>
      simp only [List.length_cons] at length ⊢
      rcases List.mem_cons.mp member with rfl | later
      · simp only [List.length_cons, List.length_nil]
        omega
      · have short := ih (by omega) later
        omega

theorem mem_rhs_of_mem_chain {lhs : Name} {rhs : List Symbol} {names : List Name} {p : Production}
    (member : p ∈ chain lhs rhs names) {s : Symbol} (inside : s ∈ p.rhs) :
    s ∈ rhs ∨ ∃ y ∈ names, s = .nonterminal y := by
  induction names generalizing lhs rhs with
  | nil =>
    rw [chain_nil] at member
    obtain rfl := List.mem_singleton.mp member
    exact .inl inside
  | cons y names ih =>
    cases rhs with
    | nil =>
      obtain rfl := List.mem_singleton.mp member
      cases inside
    | cons t rest =>
      rcases List.mem_cons.mp member with rfl | later
      · simp only [List.mem_cons, List.not_mem_nil, or_false] at inside
        rcases inside with rfl | rfl
        · exact .inl (.head _)
        · exact .inr ⟨y, .head _, rfl⟩
      · rcases ih later with old | ⟨z, isNew, same⟩
        · exact .inl (.tail _ old)
        · exact .inr ⟨z, .tail _ isNew, same⟩

section

variable {short : Abbreviations} (distinct : short.names.Nodup) {lhs : Name} {rhs : List Symbol} {names : List Name}
  (stands : suffixes rhs names ⊆ short) (old : ∀ a, .nonterminal a ∈ rhs → a ∉ short.names)
include distinct stands old

/-- Written out, a chain is the production that it takes the place of, and what its names stand for. -/
theorem map_written_chain :
    (chain lhs rhs names).map short.written = ⟨lhs, rhs⟩ :: (suffixes rhs names).rules := by
  induction names generalizing lhs rhs with
  | nil =>
    have none : suffixes rhs [] = [] := by cases rhs <;> rfl
    rw [chain_nil, none, List.map_singleton, Abbreviations.written, Abbreviations.writeOut_of_old old]
    rfl
  | cons y names ih =>
    cases rhs with
    | nil => rfl
    | cons s rest =>
      have first : short.writeOut [s] = [s] :=
        Abbreviations.writeOut_of_old fun a inside => old a (by simp_all)
      have second : short.writeOut [.nonterminal y] = rest := by
        rw [Abbreviations.writeOut_nonterminal]
        exact Abbreviations.meaning_of_mem distinct (stands (.head _))
      have both : short.writeOut ([s] ++ [.nonterminal y]) = s :: rest := by
        rw [Abbreviations.writeOut_append, first, second, List.singleton_append]
      have head : short.written ⟨lhs, [s, .nonterminal y]⟩ = ⟨lhs, s :: rest⟩ := congrArg (Production.mk lhs) both
      have tail := @ih y rest (fun _ inside => stands (.tail _ inside)) (fun a inside => old a (.tail _ inside))
      rw [chain, List.map_cons, head, tail]
      rfl

theorem writeOut_of_mem_chain {p : Production} (member : p ∈ chain lhs rhs names) :
    (p.lhs = lhs ∧ short.writeOut p.rhs = rhs) ∨ (p.lhs, short.writeOut p.rhs) ∈ suffixes rhs names := by
  have found := List.mem_map_of_mem (f := short.written) member
  rw [map_written_chain distinct stands old] at found
  rcases List.mem_cons.mp found with first | later
  · exact .inl ⟨congrArg Production.lhs first, congrArg Production.rhs first⟩
  · exact .inr (Abbreviations.mem_rules.mp later)

end

section

variable {h : Grammar} {lhs : Name} {rhs : List Symbol} {names : List Name}

theorem derives_of_chain (stored : ∀ p ∈ chain lhs rhs names, p ∈ h.productions) :
    h.Derives [.nonterminal lhs] rhs := by
  induction names generalizing lhs rhs with
  | nil =>
    rw [chain_nil] at stored
    exact Grammar.derives_of_mem (stored _ (.head _))
  | cons y names ih =>
    cases rhs with
    | nil => exact Grammar.derives_of_mem (stored _ (.head _))
    | cons s rest =>
      have first : h.Derives [.nonterminal lhs] [s, .nonterminal y] := Grammar.derives_of_mem (stored _ (.head _))
      exact first.trans ((Grammar.Derives.refl [s]).append (ih fun p member => stored p (.tail _ member)))

/-- Every production of a chain is used when the chain derives its right-hand side. -/
theorem needed_of_chain (stored : ∀ p ∈ chain lhs rhs names, p ∈ h.productions) {p : Production}
    (member : p ∈ chain lhs rhs names) : ∃ before after,
      h.Derives [.nonterminal lhs] (before ++ .nonterminal p.lhs :: after) ∧
        h.Derives (before ++ p.rhs ++ after) rhs := by
  induction names generalizing lhs rhs with
  | nil =>
    rw [chain_nil] at member
    obtain rfl := List.mem_singleton.mp member
    exact ⟨[], [], .refl _, by simpa using Grammar.Derives.refl rhs⟩
  | cons y names ih =>
    cases rhs with
    | nil =>
      obtain rfl := List.mem_singleton.mp member
      exact ⟨[], [], .refl _, .refl _⟩
    | cons s rest =>
      have later : ∀ p ∈ chain y rest names, p ∈ h.productions := fun p inside => stored p (.tail _ inside)
      rcases List.mem_cons.mp member with rfl | inTail
      · exact ⟨[], [], .refl _, (Grammar.Derives.refl [s]).append (derives_of_chain later)⟩
      · obtain ⟨before, after, reached, finished⟩ := ih later inTail
        have first : h.Derives [.nonterminal lhs] [s, .nonterminal y] := Grammar.derives_of_mem (stored _ (.head _))
        refine ⟨s :: before, after, first.trans ((Grammar.Derives.refl [s]).append reached), ?_⟩
        exact (Grammar.Derives.refl [s]).append finished

end

/-- A production and the names of the chain that takes its place. -/
structure Split where
  production : Production
  names : List Name

namespace Split

def chain (split : Split) : List Production :=
  Binarization.chain split.production.lhs split.production.rhs split.names

def suffixes (split : Split) : Abbreviations :=
  Binarization.suffixes split.production.rhs split.names

end Split

/-- How a right-hand side was shortened: the names that were added to the grammar and the chain
that they form with a production for the shortened right-hand side, whatever its left-hand side. -/
structure Shortened (before : Binarization) (rhs : List Symbol) (after : Binarization) (short : List Symbol)
    (names : List Name) : Prop where
  start : after.grammar.start = before.grammar.start
  terminals : after.grammar.terminals = before.grammar.terminals
  nonterminals : ∀ a, a ∈ after.grammar.nonterminals ↔ a ∈ before.grammar.nonterminals ∨ a ∈ names
  productions : ∀ lhs p, (p = ⟨lhs, short⟩ ∨ p ∈ after.grammar.productions) ↔
    p ∈ before.grammar.productions ∨ p ∈ chain lhs rhs names
  length : names.length = rhs.length - 2
  distinct : names.Nodup
  fresh : ∀ a ∈ names, before.grammar.usesName a = false
  nonempty : ∀ a ∈ names, a ≠ ""

theorem shortened_of_short (split : Binarization) {rhs : List Symbol} (short : rhs.length ≤ 2) :
    Shortened split rhs split rhs [] where
  start := rfl
  terminals := rfl
  nonterminals a := by simp
  productions lhs p := by rw [chain_nil, List.mem_singleton, or_comm]
  length := by simp only [List.length_nil]; omega
  distinct := .nil
  fresh a member := by cases member
  nonempty a member := by cases member

theorem shorten_of_short (split : Binarization) {rhs : List Symbol} (short : rhs.length ≤ 2) :
    split.shorten rhs = (split, rhs) := by
  match rhs, short with
  | [], _ => rfl
  | [_], _ => rfl
  | [_, _], _ => rfl

theorem foldl_add_of_short (split : Binarization) {productions : List Production}
    (short : ∀ p ∈ productions, p.rhs.length ≤ 2) : productions.foldl Binarization.add split =
      { split with grammar := split.grammar.insertAll productions } := by
  induction productions generalizing split with
  | nil => rfl
  | cons p rest ih =>
    have added : split.add p = { split with grammar := split.grammar.insert p } := by
      rw [Binarization.add, shorten_of_short split (short p (.head _))]
    rw [List.foldl_cons, added, ih _ fun q later => short q (.tail _ later), Grammar.insertAll_cons]

theorem Shortened.extend {before after : Binarization} {s : Symbol} {rest pair : List Symbol} {names : List Name}
    (shortened : Shortened before rest after pair names) (long : 2 ≤ rest.length) {fresh : Minted}
    (isFresh : fresh.IsFresh after.grammar) (positive : fresh.name ≠ "") :
    Shortened before (s :: rest) ⟨fresh.grammar.insert ⟨fresh.name, pair⟩, fresh.supply, after.minted ++ [fresh.name]⟩
      [s, .nonterminal fresh.name] (fresh.name :: names) := by
  obtain ⟨noTerminal, noNonterminal⟩ := Grammar.usesName_eq_false_iff.mp isFresh.unused
  rw [shortened.terminals] at noTerminal
  rw [shortened.nonterminals, not_or] at noNonterminal
  constructor
  case start => simpa [isFresh.declared, Grammar.insert, Grammar.declareNonterminal] using shortened.start
  case terminals => simpa [isFresh.declared, Grammar.insert, Grammar.declareNonterminal] using shortened.terminals
  case nonterminals =>
    intro a
    simp only [isFresh.declared, Grammar.insert, Grammar.declareNonterminal, FiniteSet.mem_insert_iff,
      shortened.nonterminals, List.mem_cons]
    exact or_left_comm
  case productions =>
    intro lhs p
    have inner := shortened.productions fresh.name p
    simp only [isFresh.declared, Grammar.insert, Grammar.declareNonterminal, FiniteSet.mem_insert_iff, inner, chain,
      List.mem_cons]
    exact or_left_comm
  case length =>
    have length := shortened.length
    simp only [List.length_cons]
    omega
  case distinct => exact List.nodup_cons.mpr ⟨noNonterminal.2, shortened.distinct⟩
  case fresh =>
    intro a member
    rcases List.mem_cons.mp member with rfl | old
    · exact Grammar.usesName_eq_false_iff.mpr ⟨noTerminal, noNonterminal.1⟩
    · exact shortened.fresh a old
  case nonempty =>
    intro a member
    rcases List.mem_cons.mp member with rfl | old
    · exact positive
    · exact shortened.nonempty a old

theorem exists_shortened (split : Binarization) (rhs : List Symbol) :
    ∃ names, Shortened split rhs (split.shorten rhs).1 (split.shorten rhs).2 names := by
  fun_induction shorten split rhs with
  | case1 s t u rest after pair ran fresh ih =>
    obtain ⟨names, shortened⟩ := ih
    rw [ran] at shortened
    have isFresh := after.supply.mint_isFresh after.grammar
    exact ⟨_, shortened.extend (by simp) isFresh (after.supply.mint_ne_empty after.grammar)⟩
  | case2 rhs short =>
    refine ⟨[], shortened_of_short split ?_⟩
    rcases rhs with _ | ⟨s, _ | ⟨t, _ | ⟨u, rest⟩⟩⟩
    · simp
    · simp
    · simp
    · exact absurd rfl (short s t u rest)

/-- What is so once productions have been split as listed, in a grammar with the symbols of `g`. -/
structure Chained (g : Grammar) (splits : List Split) (split : Binarization) : Prop where
  start : split.grammar.start = g.start
  terminals : split.grammar.terminals = g.terminals
  nonterminals : ∀ a, a ∈ split.grammar.nonterminals ↔ a ∈ g.nonterminals ∨ a ∈ splits.flatMap Split.names
  productions : ∀ p, p ∈ split.grammar.productions ↔ ∃ s ∈ splits, p ∈ s.chain
  length : ∀ s ∈ splits, s.names.length = s.production.rhs.length - 2
  distinct : (splits.flatMap Split.names).Nodup
  fresh : ∀ a ∈ splits.flatMap Split.names, g.usesName a = false
  nonempty : ∀ a ∈ splits.flatMap Split.names, a ≠ ""

theorem Chained.nil (g : Grammar) (supply : NameSupply) : Chained g [] ⟨g.withoutProductions, supply, []⟩ where
  start := rfl
  terminals := rfl
  nonterminals a := by simp [Grammar.withoutProductions]
  productions p := by simp [Grammar.withoutProductions]
  length s member := by cases member
  distinct := .nil
  fresh a member := by cases member
  nonempty a member := by cases member

theorem Chained.add {g : Grammar} {splits : List Split} {split : Binarization} (chained : Chained g splits split)
    (p : Production) : ∃ names, Chained g (splits ++ [⟨p, names⟩]) (split.add p) := by
  obtain ⟨names, shortened⟩ := exists_shortened split p.rhs
  have unused : ∀ a ∈ names, (a ∉ g.terminals ∧ a ∉ g.nonterminals) ∧ a ∉ splits.flatMap Split.names := by
    intro a member
    obtain ⟨noTerminal, noNonterminal⟩ := Grammar.usesName_eq_false_iff.mp (shortened.fresh a member)
    rw [chained.terminals] at noTerminal
    rw [chained.nonterminals, not_or] at noNonterminal
    exact ⟨⟨noTerminal, noNonterminal.1⟩, noNonterminal.2⟩
  have all : (splits ++ [Split.mk p names]).flatMap Split.names = splits.flatMap Split.names ++ names := by simp
  refine ⟨names, ?_⟩
  constructor
  case start => exact shortened.start.trans chained.start
  case terminals => exact shortened.terminals.trans chained.terminals
  case nonterminals =>
    intro a
    rw [all, List.mem_append, ← or_assoc, ← chained.nonterminals]
    exact shortened.nonterminals a
  case productions =>
    intro q
    simp only [Binarization.add, Grammar.insert, FiniteSet.mem_insert_iff, shortened.productions p.lhs q,
      chained.productions, List.mem_append, List.mem_singleton, or_and_right, exists_or, exists_eq_left]
    rfl
  case length =>
    intro s member
    rcases List.mem_append.mp member with old | last
    · exact chained.length s old
    · rw [List.mem_singleton.mp last]
      exact shortened.length
  case distinct =>
    rw [all]
    refine List.nodup_append.mpr ⟨chained.distinct, shortened.distinct, fun a old b isNew same => ?_⟩
    exact (unused b isNew).2 (same ▸ old)
  case fresh =>
    intro a member
    rw [all] at member
    rcases List.mem_append.mp member with old | isNew
    · exact chained.fresh a old
    · exact Grammar.usesName_eq_false_iff.mpr (unused a isNew).1
  case nonempty =>
    intro a member
    rw [all] at member
    rcases List.mem_append.mp member with old | isNew
    · exact chained.nonempty a old
    · exact shortened.nonempty a isNew

theorem Chained.foldl {g : Grammar} {splits : List Split} {split : Binarization} (chained : Chained g splits split)
    (productions : List Production) :
    ∃ later, later.map Split.production = productions ∧
      Chained g (splits ++ later) (productions.foldl Binarization.add split) := by
  induction productions generalizing splits split with
  | nil => exact ⟨[], rfl, by simpa using chained⟩
  | cons p rest ih =>
    obtain ⟨names, next⟩ := chained.add p
    obtain ⟨later, listed, done⟩ := ih next
    refine ⟨⟨p, names⟩ :: later, by rw [List.map_cons, listed], ?_⟩
    rwa [List.append_assoc, List.singleton_append] at done

/-- The new nonterminals with what they stand for. -/
def abbreviations (splits : List Split) : Abbreviations :=
  splits.flatMap Split.suffixes

theorem names_abbreviations {splits : List Split}
    (length : ∀ s ∈ splits, s.names.length = s.production.rhs.length - 2) :
    (abbreviations splits).names = splits.flatMap Split.names := by
  induction splits with
  | nil => rfl
  | cons s splits ih =>
    have enough := length s (.head _)
    have first : s.suffixes.names = s.names := names_suffixes (by omega)
    have rest := ih fun t member => length t (.tail _ member)
    rw [abbreviations, List.flatMap_cons, Abbreviations.names, List.map_append, List.flatMap_cons,
      ← Abbreviations.names, first, ← rest]
    rfl

end Binarization

namespace Grammar

variable {g : Grammar}

theorem exists_chained (g : Grammar) (supply : NameSupply) : ∃ splits,
    splits.map Binarization.Split.production = g.productions.toList ∧ (g.binarize supply).Chained g splits := by
  obtain ⟨splits, listed, chained⟩ := (Binarization.Chained.nil g supply).foldl g.productions.toList
  exact ⟨splits, listed, chained⟩

section

variable {split : Binarization} {splits : List Binarization.Split}
  (listed : splits.map Binarization.Split.production = g.productions.toList) (chained : split.Chained g splits)

include listed in
theorem mem_iff_exists_split {p : Production} : p ∈ g.productions ↔ ∃ s ∈ splits, s.production = p := by
  rw [← Std.ExtTreeSet.mem_toList, ← listed, List.mem_map]

include listed in
theorem production_mem {s : Binarization.Split} (member : s ∈ splits) : s.production ∈ g.productions :=
  (mem_iff_exists_split listed).mpr ⟨s, member, rfl⟩

include chained in
theorem mem_of_mem_chain {s : Binarization.Split} (member : s ∈ splits) {p : Production} (inChain : p ∈ s.chain) :
    p ∈ split.grammar.productions :=
  (chained.productions p).mpr ⟨s, member, inChain⟩

include listed chained

/-- The productions of the chain of a production that is no ε-production are none either. -/
theorem solid_derives_of_chained {p : Production} (stored : p ∈ g.productions) (nonempty : p.rhs ≠ []) :
    split.grammar.solid.Derives [.nonterminal p.lhs] p.rhs := by
  obtain ⟨s, member, same⟩ := (mem_iff_exists_split listed).mp stored
  subst same
  have positive := List.length_pos_iff.mpr nonempty
  refine Binarization.derives_of_chain fun q inChain => mem_solid.mpr ⟨mem_of_mem_chain chained member inChain, ?_⟩
  intro empty
  have length := Binarization.length_of_mem_chain (chained.length s member) inChain
  rw [empty, List.length_nil] at length
  omega

theorem not_mem_names_of_chained (closed : g.Closed) {s : Binarization.Split} (member : s ∈ splits) :
    ∀ a, .nonterminal a ∈ s.production.rhs → a ∉ (Binarization.abbreviations splits).names := by
  intro a mentioned isNew
  rw [Binarization.names_abbreviations chained.length] at isNew
  have unused := (usesName_eq_false_iff.mp (chained.fresh a isNew)).2
  exact unused (closed.mentioned _ (production_mem listed member) a mentioned)

theorem writeOut_of_chained (closed : g.Closed) {p : Production} (stored : p ∈ split.grammar.productions) :
    (p.lhs, (Binarization.abbreviations splits).writeOut p.rhs) ∈ Binarization.abbreviations splits ∨
      ⟨p.lhs, (Binarization.abbreviations splits).writeOut p.rhs⟩ ∈ g.productions := by
  obtain ⟨s, member, inChain⟩ := (chained.productions p).mp stored
  have inG := production_mem listed member
  have names := Binarization.names_abbreviations chained.length
  have stands : s.suffixes ⊆ Binarization.abbreviations splits := fun _ suffix =>
    List.mem_flatMap.mpr ⟨s, member, suffix⟩
  have old := not_mem_names_of_chained listed chained closed member
  have distinct := chained.distinct
  rw [← names] at distinct
  rcases Binarization.writeOut_of_mem_chain distinct stands old inChain with ⟨same, written⟩ | suffix
  · rw [same, written]
    exact .inr inG
  · exact .inl (stands suffix)

/-- Binarization abbreviates ends of right-hand sides and does nothing else. -/
theorem abbreviated_of_chained (closed : g.Closed) :
    Abbreviated g split.grammar (Binarization.abbreviations splits) := by
  have names := Binarization.names_abbreviations chained.length
  constructor
  case start => exact chained.start
  case terminals => exact chained.terminals
  case nonterminals =>
    rw [names]
    exact chained.nonterminals
  case distinct =>
    rw [names]
    exact chained.distinct
  case fresh =>
    rw [names]
    exact chained.fresh
  case parts =>
    intro a form member
    obtain ⟨s, inSplits, suffix⟩ := List.mem_flatMap.mp member
    exact ⟨s.production, production_mem listed inSplits, Binarization.subset_of_mem_suffixes suffix⟩
  case epsilon =>
    intro p stored empty
    obtain ⟨s, member, same⟩ := (mem_iff_exists_split listed).mp stored
    subst same
    refine mem_of_mem_chain chained member ?_
    rw [Binarization.Split.chain, empty]
    exact List.mem_singleton.mpr (by rw [← empty])
  case replayed => exact fun p stored nonempty => solid_derives_of_chained listed chained stored nonempty
  case writtenOut => exact fun p stored => writeOut_of_chained listed chained closed stored
  case needed =>
    intro p stored
    obtain ⟨s, member, inChain⟩ := (chained.productions p).mp stored
    have inside : ∀ q ∈ s.chain, q ∈ split.grammar.productions := fun q => mem_of_mem_chain chained member
    exact ⟨s.production, production_mem listed member, Binarization.needed_of_chain inside inChain⟩
  case defined =>
    intro a member
    rw [names] at member
    obtain ⟨s, inSplits, isNew⟩ := List.mem_flatMap.mp member
    have length := chained.length s inSplits
    have enough : s.names.length ≤ s.production.rhs.length := by omega
    obtain ⟨p, inChain, same⟩ := Binarization.exists_mem_chain s.production.lhs enough isNew
    exact ⟨p, mem_of_mem_chain chained inSplits inChain, same⟩

end

theorem Coherent.binarize (coherent : g.Coherent) (supply : NameSupply) : (g.binarize supply).grammar.Coherent := by
  obtain ⟨splits, listed, chained⟩ := exists_chained g supply
  constructor
  case start =>
    rw [chained.start, chained.nonterminals]
    exact .inl coherent.start
  case heads =>
    intro p stored
    rw [chained.nonterminals]
    obtain ⟨split, member, inChain⟩ := (chained.productions p).mp stored
    rcases Binarization.lhs_of_mem_chain inChain with same | isNew
    · rw [same]
      exact .inl (coherent.heads _ (production_mem listed member))
    · exact .inr (List.mem_flatMap.mpr ⟨split, member, isNew⟩)

theorem WellFormed.binarize (formed : g.WellFormed) (supply : NameSupply) : (g.binarize supply).grammar.WellFormed := by
  obtain ⟨splits, listed, chained⟩ := exists_chained g supply
  refine (abbreviated_of_chained listed chained formed.toClosed).wellFormed formed fun a member => ?_
  rw [Binarization.names_abbreviations chained.length] at member
  exact chained.nonempty a member

/-- Without right-hand sides of more than two symbols there is nothing to split. -/
theorem binarize_eq_self (supply : NameSupply) (short : ∀ p ∈ g.productions, p.rhs.length ≤ 2) :
    g.binarize supply = ⟨g, supply, []⟩ := by
  have listed : ∀ p ∈ g.productions.toList, p.rhs.length ≤ 2 :=
    fun p member => short p (Std.ExtTreeSet.mem_toList.mp member)
  rw [Grammar.binarize, Binarization.foldl_add_of_short _ listed]
  dsimp only
  rw [withoutProductions_insertAll, withProductions_toList]

/-- Binarization keeps short productions; all others it makes are pairs of old symbols and new
nonterminals. -/
theorem exists_of_mem_binarize {supply : NameSupply} {p : Production}
    (stored : p ∈ (g.binarize supply).grammar.productions) : ∃ q ∈ g.productions, (q.rhs.length ≤ 2 ∧ p = q) ∨
      2 < q.rhs.length ∧ p.rhs.length = 2 ∧ ∀ s ∈ p.rhs, s ∈ q.rhs ∨ ∃ a, s = .nonterminal a := by
  obtain ⟨splits, listed, chained⟩ := exists_chained g supply
  obtain ⟨split, member, inChain⟩ := (chained.productions p).mp stored
  have count := chained.length split member
  refine ⟨split.production, production_mem listed member, ?_⟩
  by_cases short : split.production.rhs.length ≤ 2
  · have none : split.names = [] := List.length_eq_zero_iff.mp (by omega)
    rw [Binarization.Split.chain, none, Binarization.chain_nil] at inChain
    exact .inl ⟨short, List.mem_singleton.mp inChain⟩
  · have length := Binarization.length_of_mem_chain count inChain
    refine .inr ⟨by omega, by omega, fun s inside => ?_⟩
    exact (Binarization.mem_rhs_of_mem_chain inChain inside).imp_right fun ⟨a, _, same⟩ => ⟨a, same⟩

end Grammar

end ContextFree
