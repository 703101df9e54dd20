import ContextFree.Proofs.Assertion
import Mathlib.Data.Nat.Bitwise

namespace ContextFree

/-- Why an expansion that counts in machine words ends without a result. -/
inductive Halt where
  | refused (cause : GrammarError)
  | overflow
  deriving DecidableEq, Repr

-- The pass for ε-productions as it goes about it: variant by variant, each from a word of 64 bits
-- that says which of the nullable symbols are left out.
namespace Masked

/-- The word that has the bit of this index and no other. A word has 64 bits to shift through. -/
def bit (index : Nat) : Except Halt UInt64 :=
  if index < 64 then .ok (1 <<< UInt64.ofNat index) else .error .overflow

/-- Where the nullable symbols of a right-hand side stand, its first symbol being at `first`. -/
def positions (nullable : NameSet) (first : Nat) (rhs : List Symbol) : List Nat :=
  ((rhs.zipIdx first).filter fun entry => entry.1.within false nullable).map Prod.snd

/-- The positions that a mask marks, the first of them by its bit of this index. -/
def dropped (mask : UInt64) : (index : Nat) → List Nat → Except Halt (List Nat)
  | _, [] => .ok []
  | index, position :: rest => do
    let weight ← bit index
    let later ← dropped mask (index + 1) rest
    return if mask &&& weight ≠ 0 then position :: later else later

/-- What is left of the symbols from a position on, without those at the dropped positions. The
next of these is compared with the position, and taken off the list when it is met. -/
def kept : (position : Nat) → (dropped : List Nat) → List Symbol → List Symbol
  | _, _, [] => []
  | position, dropped, s :: rest =>
    if dropped.head? = some position then kept (position + 1) dropped.tail rest
    else s :: kept (position + 1) dropped rest

def variant (nullable : NameSet) (rhs : List Symbol) (mask : UInt64) : Except Halt (List Symbol) := do
  let dropped ← dropped mask 0 (positions nullable 0 rhs)
  return kept 0 dropped rhs

/-- Counts the masks up to the word that has the first bit too many. -/
def expansions (nullable : NameSet) (rhs : List Symbol) : Except Halt (List (List Symbol)) := do
  let bound ← bit (positions nullable 0 rhs).length
  (List.range bound.toNat).mapM fun n => variant nullable rhs (UInt64.ofNat n)

def expand (nullable : NameSet) (out : Grammar) (p : Production) : Except Halt Grammar :=
  let count := (positions nullable 0 p.rhs).length
  if p.isEpsilon then .ok out
  else if expansionCap < count then .error (.refused (.expansionLimit p.lhs count expansionCap))
  else do
    let expansions ← expansions nullable p.rhs
    return out.insertAll ((expansions.filter (!·.isEmpty)).map (⟨p.lhs, ·⟩))

def withoutEpsilon (g : Grammar) : Except Halt Grammar := do
  let nullable := g.nullable
  let out ← g.productions.toList.foldlM (expand nullable) g.withoutProductions
  return if nullable.contains g.start then out.insert ⟨g.start, []⟩ else out

theorem exists_bit {index : Nat} (inside : index < 64) :
    ∃ weight, bit index = .ok weight ∧ weight.toNat = 2 ^ index := by
  refine ⟨_, if_pos inside, ?_⟩
  have small : 2 ^ index < 2 ^ 64 := Nat.pow_lt_pow_right (by decide) inside
  have amount : (UInt64.ofNat index).toNat = index := by simp; omega
  rw [UInt64.toNat_shiftLeft, amount, Nat.mod_eq_of_lt inside, UInt64.toNat_one, Nat.shiftLeft_eq, Nat.one_mul,
    Nat.mod_eq_of_lt small]

/-- A mask and a word with one bit have that bit in common or none. -/
theorem and_ne_zero_iff {mask weight : UInt64} {index : Nat} (single : weight.toNat = 2 ^ index) :
    mask &&& weight ≠ 0 ↔ mask.toNat.testBit index = true := by
  rw [Ne, ← UInt64.toNat_inj, UInt64.toNat_and, single, Nat.and_two_pow]
  have positive := Nat.two_pow_pos index
  cases mask.toNat.testBit index <;> simp

variable {nullable : NameSet}

theorem positions_cons_of_within {s : Symbol} (inside : s.within false nullable = true) (first : Nat)
    (rest : List Symbol) : positions nullable first (s :: rest) = first :: positions nullable (first + 1) rest := by
  simp [positions, inside]

theorem positions_cons_of_not_within {s : Symbol} (outside : ¬ s.within false nullable = true) (first : Nat)
    (rest : List Symbol) : positions nullable first (s :: rest) = positions nullable (first + 1) rest := by
  simp [positions, outside]

theorem length_positions (first : Nat) (rhs : List Symbol) :
    (positions nullable first rhs).length = nullablePositions nullable rhs := by
  induction rhs generalizing first with
  | nil => rfl
  | cons s rest ih =>
    by_cases inside : s.within false nullable = true
    · rw [positions_cons_of_within inside, List.length_cons, ih, nullablePositions, nullablePositions,
        List.countP_cons_of_pos inside]
    · rw [positions_cons_of_not_within inside, ih, nullablePositions, nullablePositions,
        List.countP_cons_of_neg inside]

/-- What is left of a right-hand side when the binary digits of a number, lowest first, say of each
nullable symbol whether it is left out. -/
def leaveOut (nullable : NameSet) : (digits : Nat) → List Symbol → List Symbol
  | _, [] => []
  | digits, s :: rest =>
    if s.within false nullable then
      if digits.testBit 0 then leaveOut nullable (digits / 2) rest else s :: leaveOut nullable (digits / 2) rest
    else s :: leaveOut nullable digits rest

theorem kept_of_lt {position : Nat} {dropped : List Nat} (later : ∀ next ∈ dropped, position < next) (s : Symbol)
    (rest : List Symbol) : kept position dropped (s :: rest) = s :: kept (position + 1) dropped rest := by
  refine if_neg fun here => ?_
  exact Nat.lt_irrefl position (later position (List.mem_of_head? here))

/-- A mask leaves out what the binary digits of its number say, as long as there are no more nullable
symbols than bits. -/
theorem exists_dropped (mask : UInt64) (first index : Nat) {rhs : List Symbol}
    (enough : index + (positions nullable first rhs).length ≤ 64) :
    ∃ marked, dropped mask index (positions nullable first rhs) = .ok marked ∧ (∀ next ∈ marked, first ≤ next) ∧
      kept first marked rhs = leaveOut nullable (mask.toNat / 2 ^ index) rhs := by
  induction rhs generalizing first index with
  | nil => exact ⟨[], rfl, nofun, rfl⟩
  | cons s rest ih =>
    by_cases inside : s.within false nullable = true
    · rw [positions_cons_of_within inside] at enough ⊢
      rw [List.length_cons] at enough
      obtain ⟨weight, found, single⟩ := exists_bit (show index < 64 by omega)
      obtain ⟨marked, ran, above, same⟩ := ih (first + 1) (index + 1) (by omega)
      have half : mask.toNat / 2 ^ index / 2 = mask.toNat / 2 ^ (index + 1) := by
        rw [Nat.div_div_eq_div_mul, Nat.pow_succ]
      have lowest : (mask.toNat / 2 ^ index).testBit 0 = mask.toNat.testBit index := by
        rw [Nat.testBit_div_two_pow, Nat.zero_add]
      rw [dropped, found, ok_bind, ran, ok_bind, leaveOut, if_pos inside, half, lowest]
      by_cases set : mask.toNat.testBit index = true
      · rw [if_pos ((and_ne_zero_iff single).mpr set), if_pos set]
        refine ⟨first :: marked, rfl, ?_, ?_⟩
        · intro next member
          rcases List.mem_cons.mp member with rfl | inMarked
          · exact Nat.le_refl _
          · exact Nat.le_of_succ_le (above next inMarked)
        · rw [kept, if_pos List.head?_cons, List.tail_cons, same]
      · rw [if_neg (mt (and_ne_zero_iff single).mp set), if_neg set]
        refine ⟨marked, rfl, fun next member => Nat.le_of_succ_le (above next member), ?_⟩
        rw [kept_of_lt above, same]
    · rw [positions_cons_of_not_within inside] at enough ⊢
      obtain ⟨marked, ran, above, same⟩ := ih _ _ enough
      refine ⟨marked, ran, fun next member => Nat.le_of_succ_le (above next member), ?_⟩
      rw [kept_of_lt above, leaveOut, if_neg inside, same]

theorem variant_eq {rhs : List Symbol} (enough : nullablePositions nullable rhs ≤ 64) (mask : UInt64) :
    variant nullable rhs mask = .ok (leaveOut nullable mask.toNat rhs) := by
  have fits : 0 + (positions nullable 0 rhs).length ≤ 64 := by
    rw [length_positions]
    omega
  obtain ⟨marked, ran, _, same⟩ := exists_dropped mask 0 0 fits
  rw [Nat.pow_zero, Nat.div_one] at same
  rw [variant, ran, ok_bind, same]
  rfl

/-- Every choice of nullable symbols is made by a number with as many binary digits. -/
theorem mem_variants_iff {rhs variant : List Symbol} : variant ∈ variants nullable rhs ↔
    ∃ digits < 2 ^ nullablePositions nullable rhs, leaveOut nullable digits rhs = variant := by
  induction rhs generalizing variant with
  | nil => simp [mem_variants_nil, nullablePositions, leaveOut, eq_comm]
  | cons s rest ih =>
    by_cases inside : s.within false nullable = true
    · have count : nullablePositions nullable (s :: rest) = nullablePositions nullable rest + 1 :=
        List.countP_cons_of_pos inside
      rw [mem_variants_cons, count, Nat.pow_succ]
      constructor
      · intro found
        rcases found with ⟨shorter, member, rfl⟩ | ⟨_, member⟩
        · obtain ⟨digits, bound, rfl⟩ := ih.mp member
          refine ⟨2 * digits, by omega, ?_⟩
          have half : 2 * digits / 2 = digits := by omega
          simp [leaveOut, inside, half]
        · obtain ⟨digits, bound, rfl⟩ := ih.mp member
          refine ⟨2 * digits + 1, by omega, ?_⟩
          have half : (2 * digits + 1) / 2 = digits := by omega
          simp [leaveOut, inside, half]
      · intro found
        obtain ⟨digits, bound, rfl⟩ := found
        have member : leaveOut nullable (digits / 2) rest ∈ variants nullable rest := ih.mpr ⟨_, by omega, rfl⟩
        rw [leaveOut, if_pos inside]
        split
        · exact .inr ⟨inside, member⟩
        · exact .inl ⟨_, member, rfl⟩
    · have count : nullablePositions nullable (s :: rest) = nullablePositions nullable rest :=
        List.countP_cons_of_neg inside
      rw [mem_variants_cons, count]
      constructor
      · intro found
        rcases found with ⟨shorter, member, rfl⟩ | ⟨within, _⟩
        · obtain ⟨digits, bound, rfl⟩ := ih.mp member
          exact ⟨digits, bound, by rw [leaveOut, if_neg inside]⟩
        · exact absurd within inside
      · intro found
        obtain ⟨digits, bound, rfl⟩ := found
        refine .inl ⟨_, ih.mpr ⟨digits, bound, rfl⟩, ?_⟩
        rw [leaveOut, if_neg inside]

theorem mapM_eq_ok {ε α β : Type} {f : α → Except ε β} {g : α → β} {xs : List α} (each : ∀ x ∈ xs, f x = .ok (g x)) :
    xs.mapM f = .ok (xs.map g) := by
  induction xs with
  | nil => rfl
  | cons x rest ih =>
    rw [List.mapM_cons, each x (.head _), ok_bind, ih fun y later => each y (.tail _ later)]
    rfl

theorem exists_expansions {rhs : List Symbol} (allowed : nullablePositions nullable rhs ≤ expansionCap) :
    ∃ forms, expansions nullable rhs = .ok forms ∧ ∀ form, form ∈ forms ↔ form ∈ variants nullable rhs := by
  have enough : nullablePositions nullable rhs < 64 := Nat.lt_of_le_of_lt allowed (by decide)
  obtain ⟨bound, found, size⟩ := exists_bit enough
  refine ⟨(List.range bound.toNat).map fun n => leaveOut nullable (UInt64.ofNat n).toNat rhs, ?_, fun form => ?_⟩
  · rw [expansions, length_positions, found, ok_bind]
    exact mapM_eq_ok fun n _ => variant_eq (by omega) _
  · rw [mem_variants_iff, List.mem_map]
    have whole : ∀ n, n < 2 ^ nullablePositions nullable rhs → (UInt64.ofNat n).toNat = n := by
      intro n below
      have small : 2 ^ nullablePositions nullable rhs < 2 ^ 64 := Nat.pow_lt_pow_right (by decide) enough
      rw [UInt64.toNat_ofNat']
      exact Nat.mod_eq_of_lt (Nat.lt_trans below small)
    refine exists_congr fun n => ?_
    rw [List.mem_range, size]
    refine and_congr_right fun below => ?_
    rw [whole n below]

theorem expand_eq {out : Grammar} {p : Production} (solid : ¬ p.isEpsilon = true)
    (allowed : nullablePositions nullable p.rhs ≤ expansionCap) :
    expand nullable out p = .ok (out.insertAll (Grammar.nonemptyVariants nullable p)) := by
  obtain ⟨forms, ran, same⟩ := exists_expansions allowed
  rw [expand, if_neg solid, length_positions, if_neg (Nat.not_lt.mpr allowed), ran, ok_bind]
  refine congrArg Except.ok (Grammar.ext_mem (fun _ => .rfl) (fun _ => .rfl) (fun q => ?_) rfl)
  simp only [Grammar.mem_insertAll, Grammar.nonemptyVariants, List.mem_map, List.mem_filter, same,
    Std.ExtTreeSet.mem_toList]

/-- The first production with too many nullable positions ends the pass, whatever was added before it. -/
theorem foldlM_expand (productions : List Production) (out : Grammar) :
    productions.foldlM (expand nullable) out =
      ((GrammarError.raise (Grammar.expansionFaults nullable expansionCap
        (productions.filter (!·.isEpsilon)))).mapError Halt.refused >>= fun _ =>
        .ok (out.insertAll ((productions.filter (!·.isEpsilon)).flatMap (Grammar.nonemptyVariants nullable)))) := by
  induction productions generalizing out with
  | nil => rfl
  | cons p rest ih =>
    rw [List.foldlM_cons]
    by_cases epsilon : p.isEpsilon = true
    · rw [expand, if_pos epsilon, ok_bind, ih, List.filter_cons_of_neg (by simpa using epsilon)]
    · rw [List.filter_cons_of_pos (by simpa using epsilon), Asserted.expansionFaults_cons]
      by_cases exceeds : expansionCap < nullablePositions nullable p.rhs
      · rw [expand, if_neg epsilon, length_positions, if_pos exceeds, if_pos exceeds]
        rfl
      · rw [expand_eq epsilon (Nat.not_lt.mp exceeds), ok_bind, ih, if_neg exceeds, List.nil_append, List.flatMap_cons,
          Grammar.insertAll_append]

/-- No shift of a mask overflows, and the masks give each production its variants. -/
theorem withoutEpsilon_eq (g : Grammar) : withoutEpsilon g = g.withoutEpsilon.mapError Halt.refused := by
  unfold withoutEpsilon Grammar.withoutEpsilon
  dsimp only
  rw [foldlM_expand]
  cases GrammarError.raise
      (Grammar.expansionFaults g.nullable expansionCap (g.productions.toList.filter (!·.isEpsilon))) with
  | error cause => rfl
  | ok =>
    rw [Except.mapError, ok_bind, ok_bind, ok_bind, Grammar.withoutProductions_insertAll]
    by_cases nullable : g.nullable.contains g.start = true
    · rw [if_pos nullable, if_pos nullable, ← Grammar.withoutProductions_insertAll,
        ← Grammar.withoutProductions_insertAll, Grammar.insertAll_append, Grammar.insertAll_cons]
      rfl
    · rw [if_neg nullable, if_neg nullable, List.append_nil]
      rfl

end Masked

end ContextFree
