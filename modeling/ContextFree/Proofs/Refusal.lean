import ContextFree.Proofs.Masks
import ContextFree.Proofs.Operation

namespace ContextFree.Grammar

variable {g : Grammar}

/-- No symbol of an empty right-hand side is nullable, so it is all the same whether ε-productions are looked at. -/
theorem expansionFaults_filter (nullable : NameSet) (productions : List Production) :
    expansionFaults nullable expansionCap (productions.filter (!·.isEpsilon)) =
      expansionFaults nullable expansionCap productions := by
  induction productions with
  | nil => rfl
  | cons p rest ih =>
    rw [Asserted.expansionFaults_cons]
    by_cases epsilon : p.isEpsilon = true
    · have none : nullablePositions nullable p.rhs = 0 := by
        rw [List.isEmpty_iff.mp epsilon]
        rfl
      rw [List.filter_cons_of_neg (by simpa using epsilon), ih, none, if_neg (Nat.not_lt_zero _), List.nil_append]
    · rw [List.filter_cons_of_pos (by simpa using epsilon), Asserted.expansionFaults_cons, ih]

/-- The pass and the check before it find the same production, unless the caller allows less than the pass. -/
theorem withoutEpsilon_eq_error_iff {limit : Nat} (large : expansionCap ≤ limit) {e : GrammarError} :
    g.withoutEpsilon = .error e ↔ g.checkExpansion limit = .error e := by
  have capped : expansionFaults g.nullable limit g.productions.toList =
      expansionFaults g.nullable expansionCap g.productions.toList := by
    simp only [expansionFaults, Nat.min_eq_right large, Nat.min_self]
  unfold withoutEpsilon checkExpansion
  dsimp only
  rw [expansionFaults_filter, capped]
  exact bind_ok_eq_error_iff

theorem exists_of_checkExpansion_eq_error {limit : Nat} {e : GrammarError}
    (refused : g.checkExpansion limit = .error e) :
    ∃ p ∈ g.productions, min limit expansionCap < nullablePositions g.nullable p.rhs ∧
      e = .expansionLimit p.lhs (nullablePositions g.nullable p.rhs) (min limit expansionCap) := by
  have found := mem_of_raise_eq_error refused
  obtain ⟨p, listed, fault⟩ := List.mem_filterMap.mp found
  have stored := Std.ExtTreeSet.mem_toList.mp listed
  by_cases exceeds : min limit expansionCap < nullablePositions g.nullable p.rhs
  · rw [if_pos exceeds] at fault
    exact ⟨p, stored, exceeds, (Option.some.inj fault).symm⟩
  · rw [if_neg exceeds] at fault
    cases fault

theorem convert_eq_error_of_check {options : Options} {e : GrammarError} (refused : g.check = .error e) :
    g.convert options = .error e := by
  rw [convert, refused]
  rfl

theorem convert_eq_error_of_checkExpansion {options : Options} {e : GrammarError} (checked : g.check = .ok ())
    (refused : g.checkExpansion options.maxNullable = .error e) : g.convert options = .error e := by
  rw [convert, checked, ok_bind, refused]
  rfl

/-- Whether a grammar is converted is settled before the first pass: by the check, then by the limit
on nullable positions. The pass for ε-productions has a limit of its own, which is the highest that
a caller can set, and with it every shift of a mask stays within its word. -/
theorem refused_before_passes (g : Grammar) :
    (∀ options : Options,
      (∀ e, g.check = .error e → g.convert options = .error e) ∧
      (g.check = .ok () → ∀ e, g.checkExpansion options.maxNullable = .error e → g.convert options = .error e) ∧
      (g.check = .ok () → g.checkExpansion options.maxNullable = .ok () → ∃ c, g.convert options = .ok c)) ∧
    (∀ limit, 20 ≤ limit →
      (∀ e, g.withoutEpsilon = .error e ↔ g.checkExpansion limit = .error e) ∧
      ∀ e, g.checkExpansion limit = .error e → ∃ p ∈ g.productions, 20 < nullablePositions g.nullable p.rhs ∧
        e = .expansionLimit p.lhs (nullablePositions g.nullable p.rhs) 20) ∧
    (∀ small large, small ≤ large → g.checkExpansion small = .ok () → g.checkExpansion large = .ok ()) ∧
    (∀ positions ≤ 20, ∃ bound, Masked.bit positions = .ok bound ∧ bound.toNat = 2 ^ positions) ∧
    Masked.withoutEpsilon g = g.withoutEpsilon.mapError Halt.refused := by
  refine ⟨fun options => ⟨fun e => convert_eq_error_of_check,
      fun checked e => convert_eq_error_of_checkExpansion checked,
      fun checked => exists_convert (check_eq_ok_iff.mp checked)⟩,
    fun limit large => ⟨fun e => ?_, fun e refused => ?_⟩, fun small large => checkExpansion_mono,
    fun positions few => Masked.exists_bit (by omega), Masked.withoutEpsilon_eq g⟩
  · exact withoutEpsilon_eq_error_iff large
  · have found := exists_of_checkExpansion_eq_error refused
    rwa [Nat.min_eq_right (show expansionCap ≤ limit from large)] at found

/-- A grammar with one symbol too many that can be left out. -/
def crowded : Grammar where
  nonterminals := .ofList ["S", "A"]
  terminals := .ofList ["a"]
  productions := .ofList [Production.mk "S" (List.replicate 21 (.nonterminal "A")), ⟨"S", [.terminal "a"]⟩, ⟨"A", []⟩]
  start := "S"

/-- The three ways that a conversion can go: refused for a symbol, refused for the number of nullable
positions, done. -/
theorem crowded_refused_before_passes :
    (crowded.check = .ok () ∧ crowded.convert ⟨64, "X", "T_", true⟩ = .error (.expansionLimit "S" 21 20) ∧
      crowded.withoutEpsilon = .error (.expansionLimit "S" 21 20)) ∧
    (stray.check = .error (.undeclaredSymbol "X1" "B") ∧ stray.convert {} = .error (.undeclaredSymbol "X1" "B")) ∧
    nested.check = .ok () ∧ nested.checkExpansion 2 = .ok () ∧ ∃ c, nested.convert {} = .ok c := by
  have checked : crowded.check = .ok () := by decide +kernel
  have exceeded : crowded.checkExpansion 64 = .error (.expansionLimit "S" 21 20) := by decide +kernel
  have undeclared : stray.check = .error (.undeclaredSymbol "X1" "B") := by decide +kernel
  have formed : nested.check = .ok () := by decide +kernel
  have limited : nested.checkExpansion 2 = .ok () := by decide +kernel
  obtain ⟨conversion, passes, _⟩ := refused_before_passes crowded
  have refused := (conversion ⟨64, "X", "T_", true⟩).2.1 checked _ exceeded
  have pass := ((passes 64 (by decide)).1 _).mpr exceeded
  obtain ⟨strayConversion, _⟩ := refused_before_passes stray
  obtain ⟨nestedConversion, _, larger, _⟩ := refused_before_passes nested
  have more := larger 2 16 (by decide) limited
  exact ⟨⟨checked, refused, pass⟩, ⟨undeclared, (strayConversion {}).1 _ undeclared⟩, formed, limited,
    (nestedConversion {}).2.2 formed more⟩

end ContextFree.Grammar
