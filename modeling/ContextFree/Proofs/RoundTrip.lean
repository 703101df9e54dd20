import ContextFree.Proofs.Description
import ContextFree.Proofs.NewNames
import ContextFree.Proofs.NormalForm
import ContextFree.Proofs.Writing

namespace ContextFree

open Text

/-- How a symbol of a right-hand side is written; ε stands for no symbols. -/
def itemsOf (rhs : List Symbol) : List Item :=
  if rhs.isEmpty then [.epsilon] else rhs.map fun s => .name s.name

namespace Grammar

/-- A text from which a grammar can be read: its declarations, then the lines of its productions. -/
def source (g : Grammar) : String :=
  let declarations := [
    "nonterminals: " ++ " ".intercalate g.nonterminals.toList,
    "terminals: " ++ " ".intercalate g.terminals.toList,
    "start: " ++ g.start]
  String.join ((declarations ++ g.productionLines).map (· ++ "\n"))

def ruleLine (g : Grammar) (lhs : Name) : Line :=
  .rule lhs ((g.productionsOf lhs).map fun p => itemsOf p.rhs)

/-- What the lines of `source` say. -/
def sourceLines (g : Grammar) : List Line :=
  [.declare .nonterminals g.nonterminals.toList, .declare .terminals g.terminals.toList, .declare .start [g.start]] ++
    g.heads.toList.map g.ruleLine

/-- The description that lists the symbols and productions of a grammar in order. -/
def description (g : Grammar) : Spec where
  nonterminals := g.nonterminals.toList
  terminals := g.terminals.toList
  start := g.start
  rules := g.heads.toList.map fun lhs => ⟨lhs, (g.productionsOf lhs).map fun p => p.rhs.map Symbol.name⟩

end Grammar

/-! ### The text -/

theorem itemsOf_ne_nil (rhs : List Symbol) : itemsOf rhs ≠ [] := by
  cases rhs <;> simp [itemsOf]

theorem filterMap_itemsOf (rhs : List Symbol) : (itemsOf rhs).filterMap Item.name? = rhs.map Symbol.name := by
  cases rhs with
  | nil => rfl
  | cons s rest =>
    rw [itemsOf, if_neg (by simp), List.filterMap_map]
    exact congrFun (List.filterMap_eq_map (f := Symbol.name)) (s :: rest)

theorem renderForm_toList (rhs : List Symbol) : (renderForm rhs).toList = joined ((itemsOf rhs).map Item.token) := by
  cases rhs with
  | nil => rfl
  | cons s rest =>
    rw [renderForm, itemsOf, if_neg (by simp), if_neg (by simp), String.toList_intercalate, joined]
    simp [Function.comp_def, Item.token, Token.spelling]

namespace Grammar

variable {g : Grammar}

theorem productionsOf_ne_nil {lhs : Name} (head : lhs ∈ g.heads.toList) : g.productionsOf lhs ≠ [] := by
  obtain ⟨p, stored, same⟩ := mem_heads.mp (Std.ExtTreeSet.mem_toList.mp head)
  exact List.ne_nil_of_mem (mem_productionsOf.mpr ⟨stored, same⟩)

theorem ruleLine_proper {lhs : Name} (head : lhs ∈ g.heads.toList) : (g.ruleLine lhs).Proper := by
  refine ⟨by simpa using productionsOf_ne_nil head, fun items member epsilon => ?_⟩
  obtain ⟨p, _, rfl⟩ := List.mem_map.mp member
  cases rhs : p.rhs with
  | nil => rfl
  | cons s rest => simp [rhs, itemsOf] at epsilon

theorem productionLines_toList :
    g.productionLines.map String.toList = g.heads.toList.map fun lhs => (g.ruleLine lhs).written := by
  rw [productionLines, List.map_map]
  refine List.map_congr_left fun lhs head => ?_
  have filled : (g.productionsOf lhs).map (fun p => itemsOf p.rhs) ≠ [] := by simpa using productionsOf_ne_nil head
  have nonempty : ∀ items ∈ (g.productionsOf lhs).map (fun p => itemsOf p.rhs), items ≠ [] :=
    List.forall_mem_map.mpr fun p _ => itemsOf_ne_nil p.rhs
  rw [ruleLine, Line.written, Line.tokens, spaced_cons, spaced_cons, spaced_barred filled nonempty]
  simp [String.toList_intercalate, Function.comp_def, renderForm_toList, Token.spelling]
  rfl

theorem source_toList : g.source.toList = g.sourceLines.flatMap fun line => line.written ++ ['\n'] := by
  have declarations : ["nonterminals: " ++ " ".intercalate g.nonterminals.toList,
      "terminals: " ++ " ".intercalate g.terminals.toList, "start: " ++ g.start].map String.toList =
      [.declare .nonterminals g.nonterminals.toList, .declare .terminals g.terminals.toList,
        .declare .start [g.start]].map Line.written := by
    simp [Line.written, joined, String.toList_intercalate, Function.comp_def, Token.spelling, Declaration.spelling]
  have all : (["nonterminals: " ++ " ".intercalate g.nonterminals.toList,
      "terminals: " ++ " ".intercalate g.terminals.toList, "start: " ++ g.start] ++ g.productionLines).map
        String.toList = g.sourceLines.map Line.written := by
    rw [sourceLines, List.map_append, List.map_append, declarations, productionLines_toList, List.map_map]
    rfl
  rw [source, String.toList_join, List.flatMap_map, ← List.flatMap_map Line.written (fun raw => raw ++ ['\n']), ← all,
    List.flatMap_map]
  simp

theorem mem_sourceLines {line : Line} : line ∈ g.sourceLines ↔
    (line = .declare .nonterminals g.nonterminals.toList ∨ line = .declare .terminals g.terminals.toList ∨
      line = .declare .start [g.start]) ∨ ∃ lhs ∈ g.heads.toList, g.ruleLine lhs = line := by
  simp [sourceLines, or_assoc]

theorem proper_of_mem_sourceLines {line : Line} (member : line ∈ g.sourceLines) : line.Proper := by
  rcases mem_sourceLines.mp member with (rfl | rfl | rfl) | ⟨lhs, head, rfl⟩
  · trivial
  · trivial
  · trivial
  · exact ruleLine_proper head

theorem legible_itemsOf {rhs : List Symbol} (lexable : ∀ s ∈ rhs, Lexable s.name) :
    ∀ item ∈ itemsOf rhs, item.token.Legible := by
  unfold itemsOf
  split
  · exact List.forall_mem_singleton.mpr trivial
  · exact List.forall_mem_map.mpr lexable

section

variable (formed : g.WellFormed) (lexable : ∀ a, g.usesName a = true → Lexable a)
include formed lexable

theorem lexable_of_mem_rhs {p : Production} (stored : p ∈ g.productions) {s : Symbol} (member : s ∈ p.rhs) :
    Lexable s.name := by
  have declared := formed.declares stored member
  cases s with
  | terminal t => exact lexable t (by simpa [usesName] using .inl declared)
  | nonterminal a => exact lexable a (by simpa [usesName] using .inr declared)

theorem legible_of_mem_sourceLines {line : Line} (member : line ∈ g.sourceLines) : line.Legible := by
  have legible {declaration : Declaration} {names : List Name} (declared : ∀ a ∈ names, g.usesName a = true) :
      (Line.declare declaration names).Legible := by
    refine List.forall_mem_cons.mpr ⟨trivial, List.forall_mem_cons.mpr ⟨trivial, ?_⟩⟩
    exact List.forall_mem_map.mpr fun a isName => lexable a (declared a isName)
  rcases mem_sourceLines.mp member with (rfl | rfl | rfl) | ⟨lhs, head, rfl⟩
  · exact legible (by simp +contextual [usesName])
  · exact legible (by simp +contextual [usesName])
  · exact legible (by simp [usesName, formed.start])
  · obtain ⟨p, stored, same⟩ := mem_heads.mp (Std.ExtTreeSet.mem_toList.mp head)
    have declared : lhs ∈ g.nonterminals := same ▸ formed.heads p stored
    refine List.forall_mem_cons.mpr ⟨lexable lhs (by simp [usesName, declared]), ?_⟩
    refine List.forall_mem_cons.mpr ⟨trivial, legible_barred (List.forall_mem_map.mpr fun q member => ?_)⟩
    obtain ⟨inG, _⟩ := mem_productionsOf.mp member
    exact legible_itemsOf fun s => lexable_of_mem_rhs formed lexable inG

/-- A text says what the grammar declares and produces. -/
theorem consists_source : Consists (lines g.source.toList) g.sourceLines := by
  rw [source_toList]
  exact consists_written (fun line => legible_of_mem_sourceLines formed lexable) fun line => proper_of_mem_sourceLines

end

theorem declared_sourceLines (declaration : Declaration) : declared declaration g.sourceLines =
    match declaration with
    | .nonterminals => [g.nonterminals.toList]
    | .terminals => [g.terminals.toList]
    | .start => [[g.start]] := by
  have noRule : (g.heads.toList.map g.ruleLine).filterMap (·.declared? declaration) = [] := by
    refine List.filterMap_eq_nil_iff.mpr (List.forall_mem_map.mpr fun _ _ => rfl)
  rw [sourceLines, declared_append, declared, declared, noRule]
  cases declaration <;> rfl

theorem orderly_sourceLines : Orderly g.sourceLines where
  nonterminals := by simp [declared_sourceLines]
  terminals := by simp [declared_sourceLines]
  start := .inr ⟨g.start, declared_sourceLines .start⟩

theorem rules_sourceLines : g.sourceLines.filterMap Line.rule? = g.description.rules := by
  have each (lhs : Name) : (g.ruleLine lhs).rule? =
      some ⟨lhs, (g.productionsOf lhs).map fun p => p.rhs.map Symbol.name⟩ := by
    simp [ruleLine, Line.rule?, Function.comp_def, filterMap_itemsOf]
  have noRule : [Line.declare .nonterminals g.nonterminals.toList, .declare .terminals g.terminals.toList,
      .declare .start [g.start]].filterMap Line.rule? = [] := rfl
  rw [sourceLines, List.filterMap_append, noRule, List.nil_append, List.filterMap_map, description, ← List.filterMap_eq_map]
  exact List.filterMap_congr fun lhs _ => each lhs

theorem describe_sourceLines : describe g.sourceLines g.start = g.description := by
  have distinct : (g.description.rules.map Rule.name).Nodup := by
    rw [description, List.map_map]
    exact (List.map_id g.heads.toList).symm ▸ FiniteSet.nodup_toList _
  rw [describe, rules_sourceLines, gather_of_nodup distinct, declared_sourceLines, declared_sourceLines]
  simp [description]

/-! ### The description -/

theorem offers_description {lhs : Name} {choice : List Name} : g.description.Offers lhs choice ↔
    ∃ p ∈ g.productions, p.lhs = lhs ∧ p.rhs.map Symbol.name = choice := by
  constructor
  · rintro ⟨_, member, rfl, inRule⟩
    obtain ⟨lhs, _, rfl⟩ := List.mem_map.mp member
    obtain ⟨p, ofHead, same⟩ := List.mem_map.mp inRule
    obtain ⟨stored, sameLhs⟩ := mem_productionsOf.mp ofHead
    exact ⟨p, stored, sameLhs, same⟩
  · rintro ⟨p, stored, rfl, rfl⟩
    have head : p.lhs ∈ g.heads.toList := Std.ExtTreeSet.mem_toList.mpr (mem_heads.mpr ⟨p, stored, rfl⟩)
    exact ⟨_, List.mem_map_of_mem head, rfl, List.mem_map_of_mem (mem_productionsOf.mpr ⟨stored, rfl⟩)⟩

theorem description_wellFormed (formed : g.WellFormed) : g.description.WellFormed where
  terminal_ne t member := formed.terminal_ne t (Std.ExtTreeSet.mem_toList.mp member)
  nonterminal_ne a member := formed.nonterminal_ne a (Std.ExtTreeSet.mem_toList.mp member)
  disjoint a member terminal :=
    formed.disjoint a (Std.ExtTreeSet.mem_toList.mp terminal) (Std.ExtTreeSet.mem_toList.mp member)
  start := Std.ExtTreeSet.mem_toList.mpr formed.start
  heads := by
    refine List.forall_mem_map.mpr fun lhs head => ?_
    obtain ⟨p, stored, rfl⟩ := mem_heads.mp (Std.ExtTreeSet.mem_toList.mp head)
    exact Std.ExtTreeSet.mem_toList.mpr (formed.heads p stored)
  symbols rule member choice inRule name inChoice := by
    obtain ⟨p, stored, _, rfl⟩ := offers_description.mp ⟨rule, member, rfl, inRule⟩
    obtain ⟨s, inRhs, rfl⟩ := List.mem_map.mp inChoice
    have declared := formed.declares stored inRhs
    cases s <;> simp_all [declares, description, Symbol.name]

theorem grammar_description (formed : g.WellFormed) : g.description.grammar = g := by
  have described := description_wellFormed formed
  have declares (s : Symbol) : g.description.grammar.declares s = g.declares s := by
    rw [Bool.eq_iff_iff]
    cases s <;> simp [Grammar.declares, Spec.grammar, description]
  have own {p : Production} (stored : p ∈ g.productions) : p ∈ g.description.grammar.productions := by
    refine described.mem_grammar_iff.mpr ⟨offers_description.mpr ⟨p, stored, rfl, rfl⟩, fun s member => ?_⟩
    rw [declares, formed.declares stored member]
  refine ext_mem (fun a => ?_) (fun t => ?_) (fun p => ⟨fun built => ?_, own⟩) rfl
  · simp [Spec.grammar, description]
  · simp [Spec.grammar, description]
  · obtain ⟨q, stored, lhs, names⟩ := offers_description.mp (described.mem_grammar_iff.mp built).1
    rwa [described.eq_of_mem_grammar built (own stored) lhs.symm names.symm]

theorem build_description (formed : g.WellFormed) : g.description.build = .ok g :=
  Spec.build_eq_ok_iff.mpr ⟨description_wellFormed formed, (grammar_description formed).symm⟩

/-- The text of a well-formed grammar is read as the grammar, if its names can stand in a text. -/
theorem build_ofText_source (formed : g.WellFormed) (lexable : ∀ a, g.usesName a = true → Lexable a) :
    ∃ spec, Spec.ofText g.source = .ok spec ∧ spec.build = .ok g := by
  refine ⟨g.description, Spec.ofText_eq_ok_iff.mpr ?_, build_description formed⟩
  exact ⟨g.sourceLines, g.start, consists_source formed lexable, orderly_sourceLines, declared_sourceLines .start,
    describe_sourceLines.symm⟩

end Grammar

/-! ### Names of new nonterminals -/

theorem isNameChar_of_isDigit {c : Char} (digit : c.isDigit = true) : isNameChar c = true := by
  simp only [Char.isDigit, Bool.and_eq_true, decide_eq_true_eq] at digit
  have range : 48 ≤ c.toNat ∧ c.toNat ≤ 57 :=
    ⟨UInt32.le_iff_toNat_le.mp digit.1, UInt32.le_iff_toNat_le.mp digit.2⟩
  have noBlank : isBlank c = false := by
    simp only [isBlank, blankRanges, List.any_cons, List.any_nil, Bool.or_false, Bool.or_eq_false_iff,
      Bool.and_eq_false_iff, decide_eq_false_iff_not]
    omega
  have different {d : Char} (outside : d.toNat < 48 ∨ 57 < d.toNat) : c ≠ d := by
    rintro rfl
    omega
  simp [isNameChar, noBlank, different]

theorem plain_numbered {stem : String} (plain : ∀ c ∈ stem.toList, isNameChar c = true) (n : Nat) :
    ∀ c ∈ (NameSupply.numbered stem n).toList, isNameChar c = true := by
  rw [NameSupply.numbered, String.toList_append, Nat.toString_eq_ofList_toDigits, String.toList_ofList]
  refine List.forall_mem_append.mpr ⟨plain, fun c member => isNameChar_of_isDigit ?_⟩
  exact Nat.isDigit_of_mem_toDigits (by decide) (Nat.le_refl 10) member

/-- No reserved word begins with a capital letter. -/
theorem lexable_of_capital {name : Name} {c : Char} {rest : List Char} (split : name.toList = c :: rest)
    (capital : c.isUpper = true) (plain : ∀ c ∈ name.toList, isNameChar c = true) : Lexable name where
  nonempty := by
    rintro rfl
    cases split
  plain := plain
  free member := by
    have small : ∀ word ∈ reserved, word.toList.head?.any Char.isUpper = false := by decide +kernel
    have notCapital := small name member
    simp [split, capital] at notCapital

theorem lexable_numbered (n : Nat) : Lexable (NameSupply.numbered "X" n) := by
  have plain : ∀ c ∈ "X".toList, isNameChar c = true := List.all_eq_true.mp (by decide)
  exact lexable_of_capital (String.toList_append ..) (by decide) (plain_numbered plain n)

theorem lexable_of_namesTerminal {t a : Name} (lexable : Lexable t) (named : NamesTerminal "T_" t a) : Lexable a := by
  have plain : ∀ c ∈ ("T_" ++ t).toList, isNameChar c = true := by
    rw [String.toList_append]
    exact List.forall_mem_append.mpr ⟨List.all_eq_true.mp (by decide), lexable.plain⟩
  rcases named with rfl | ⟨n, rfl⟩
  · exact lexable_of_capital (String.toList_append ..) (by decide) plain
  · have split : (NameSupply.numbered ("T_" ++ t) n).toList = 'T' :: '_' :: (t ++ toString n).toList := by
      simp [NameSupply.numbered]
    exact lexable_of_capital split (by decide) (plain_numbered plain n)

namespace Grammar

variable {g : Grammar}

/-- A conversion by the default options adds only names that can stand in a text. -/
theorem lexable_of_toNormalForm (lexable : ∀ a, g.usesName a = true → Lexable a) {normal : Grammar}
    (converted : g.toNormalForm = .ok normal) : ∀ a, normal.usesName a = true → Lexable a := by
  intro a used
  obtain ⟨c, ran, rfl⟩ := map_eq_ok_iff.mp converted
  rcases names_of_convert ran used with old | ⟨t, member, named⟩ | ⟨n, rfl⟩
  · exact lexable a old
  · exact lexable_of_namesTerminal (lexable t (by simp [usesName, member])) named
  · exact lexable_numbered n

/-- If all names can stand in a text, then a grammar and what it is converted to can be read back from
their texts. -/
theorem source_reads_back (checked : g.check = .ok ()) (lexable : ∀ a, g.usesName a = true → Lexable a) :
    (∃ spec, Spec.ofText g.source = .ok spec ∧ spec.build = .ok g) ∧
      ∀ normal, g.toNormalForm = .ok normal → ∃ spec, Spec.ofText normal.source = .ok spec ∧ spec.build = .ok normal := by
  refine ⟨build_ofText_source (check_eq_ok_iff.mp checked) lexable, fun normal converted => ?_⟩
  refine build_ofText_source ?_ (lexable_of_toNormalForm lexable converted)
  obtain ⟨c, ran, rfl⟩ := map_eq_ok_iff.mp converted
  exact wellFormed_of_convert ran

/-- A grammar whose names look like other tokens or begin with them. -/
def awkward : Grammar where
  nonterminals := .ofList ["starts", "->x"]
  terminals := .ofList ["εx", "S->a"]
  productions := .ofList [Production.mk "starts" [.nonterminal "->x", .terminal "εx", .nonterminal "starts"],
    ⟨"starts", []⟩, ⟨"->x", [.terminal "S->a"]⟩]
  start := "starts"

theorem awkward_reads_back : awkward.source = "nonterminals: ->x starts\nterminals: S->a εx\nstart: starts\n" ++
      "  ->x -> S->a\n  starts -> ε | ->x εx starts\n" ∧
    (∃ spec, Spec.ofText awkward.source = .ok spec ∧ spec.build = .ok awkward) ∧
      ∃ normal, awkward.toNormalForm = .ok normal ∧
        ∃ spec, Spec.ofText normal.source = .ok spec ∧ spec.build = .ok normal := by
  have checked : awkward.check = .ok () := by decide +kernel
  have lexable : ∀ a, awkward.usesName a = true → Lexable a := by
    intro a used
    have listed : a ∈ ["εx", "S->a", "starts", "->x"] := by
      simpa [usesName, awkward, or_assoc] using used
    have all : ∀ a ∈ ["εx", "S->a", "starts", "->x"], Lexable a := by decide +kernel
    exact all a listed
  have short : ∀ p ∈ awkward.productions, p.rhs.length ≤ min 16 expansionCap := by simp [awkward, expansionCap]
  obtain ⟨c, converted⟩ : ∃ c, awkward.convert {} = .ok c :=
    exists_convert (check_eq_ok_iff.mp checked) (checkExpansion_of_short short)
  obtain ⟨original, normal⟩ := source_reads_back checked lexable
  have same : awkward.toNormalForm = .ok c.grammar := map_eq_ok_iff.mpr ⟨c, converted, rfl⟩
  exact ⟨by decide +kernel, original, c.grammar, same, normal c.grammar same⟩

end Grammar

end ContextFree
