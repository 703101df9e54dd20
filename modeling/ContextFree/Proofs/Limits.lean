import ContextFree.Proofs.Binarization
import ContextFree.Proofs.EpsilonFree
import ContextFree.Proofs.Isolation
import ContextFree.Proofs.UnitFree
import ContextFree.Proofs.Useful

namespace ContextFree

/-- New nonterminals stand for parts of right-hand sides of a grammar, and none of them for nothing. -/
def Abbreviations.CutFrom (short : Abbreviations) (g : Grammar) : Prop :=
  ∀ a form, (a, form) ∈ short → form ≠ [] ∧ ∃ q ∈ g.productions, form.Sublist q.rhs

theorem nullablePositions_append (nullable : NameSet) (x y : List Symbol) :
    nullablePositions nullable (x ++ y) = nullablePositions nullable x + nullablePositions nullable y :=
  List.countP_append

namespace Grammar

variable {g h out : Grammar} {limit : Nat}

theorem mem_nullable_of_derives (rules : ∀ {form last : List Symbol}, h.Derives form last → g.Derives form last)
    {a : Name} (member : a ∈ h.nullable) : a ∈ g.nullable := by
  rw [mem_nullable_iff] at member ⊢
  exact yields_iff_derives.mpr (rules member.derives)

/-- A limit on nullable positions is kept by a grammar that derives no more, if its right-hand sides
are what is left of old ones. -/
theorem checkExpansion_of_sublist (nullable : ∀ a ∈ h.nullable, a ∈ g.nullable)
    (parts : ∀ p ∈ h.productions, p.rhs = [] ∨ ∃ q ∈ g.productions, p.rhs.Sublist q.rhs)
    (limited : g.checkExpansion limit = .ok ()) : h.checkExpansion limit = .ok () := by
  rw [checkExpansion_eq_ok_iff] at limited ⊢
  intro p stored
  rcases parts p stored with empty | ⟨q, inG, sublist⟩
  · rw [empty]
    exact Nat.zero_le _
  · have fewer := nullablePositions_le nullable sublist
    have bound := limited q inG
    exact Nat.le_trans fewer bound

theorem checkExpansion_withoutEpsilon (ran : g.withoutEpsilon = .ok out) (limited : g.checkExpansion limit = .ok ()) :
    out.checkExpansion limit = .ok () := by
  refine checkExpansion_of_sublist (fun a => mem_nullable_of_derives (derives_of_withoutEpsilon ran)) ?_ limited
  intro p stored
  rcases (mem_withoutEpsilon ran).mp stored with ⟨_, q, inG, _, variant⟩ | ⟨rfl, _⟩
  · exact .inr ⟨q, inG, sublist_of_mem_variants variant⟩
  · exact .inl rfl

theorem checkExpansion_withoutUnits (limited : g.checkExpansion limit = .ok ()) :
    g.withoutUnits.checkExpansion limit = .ok () := by
  refine checkExpansion_of_sublist (fun a => mem_nullable_of_derives derives_of_withoutUnits) ?_ limited
  intro p stored
  obtain ⟨b, _, original, _⟩ := mem_withoutUnits.mp stored
  exact .inr ⟨_, original, .refl _⟩

theorem checkExpansion_withoutUseless (limited : g.checkExpansion limit = .ok ()) :
    g.withoutUseless.checkExpansion limit = .ok () := by
  refine checkExpansion_of_sublist (fun a => mem_nullable_of_derives derives_of_withoutUseless) ?_ limited
  exact fun p stored => .inr ⟨p, mem_of_mem_withoutUseless stored, .refl _⟩

namespace Abbreviated

variable {short : Abbreviations} (abbreviated : Abbreviated g h short) (cut : short.CutFrom g)

include abbreviated in
/-- If a nonterminal can be erased, so can all that it stands for. -/
theorem within_nullable (coherent : g.Coherent) {a : Name} (member : a ∈ h.nullable) :
    ∀ s ∈ short.meaning a, s.within false g.nullable = true := by
  have derivation := abbreviated.derives_writeOut coherent (mem_nullable_iff.mp member).derives
  rw [Abbreviations.writeOut_nonterminal] at derivation
  have erased : g.Yields (short.meaning a) [] := derivation.yields .nil
  exact erased.within_absorbed fun _ => rfl

include abbreviated cut in
/-- Written out, a form has as many nullable positions at least: a new nonterminal counts once, and
what it stands for is not empty. -/
theorem nullablePositions_le (coherent : g.Coherent) (form : List Symbol) :
    nullablePositions h.nullable form ≤ nullablePositions g.nullable (short.writeOut form) := by
  induction form with
  | nil => exact Nat.zero_le _
  | cons s form ih =>
    have first : nullablePositions h.nullable [s] ≤ nullablePositions g.nullable (s.expand short.meaning) := by
      cases s with
      | terminal t =>
        have none : nullablePositions h.nullable [.terminal t] = 0 := rfl
        rw [none]
        exact Nat.zero_le _
      | nonterminal a =>
        by_cases member : a ∈ h.nullable
        · have all : nullablePositions g.nullable (short.meaning a) = (short.meaning a).length :=
            List.countP_eq_length.mpr (abbreviated.within_nullable coherent member)
          have nonempty := abbreviated.meaning_ne_nil (fun b form stands => (cut b form stands).1) a
          have positive := List.length_pos_iff.mpr nonempty
          have single : nullablePositions h.nullable [.nonterminal a] ≤ 1 := List.countP_le_length
          change _ ≤ nullablePositions g.nullable (short.meaning a)
          omega
        · have none : nullablePositions h.nullable [.nonterminal a] = 0 := by
            simpa [nullablePositions, Symbol.within] using member
          omega
    calc nullablePositions h.nullable (s :: form)
        = nullablePositions h.nullable [s] + nullablePositions h.nullable form := nullablePositions_append _ [s] form
      _ ≤ nullablePositions g.nullable (s.expand short.meaning) + nullablePositions g.nullable (short.writeOut form) :=
          Nat.add_le_add first ih
      _ = nullablePositions g.nullable (short.writeOut (s :: form)) := (nullablePositions_append ..).symm

include abbreviated cut in
/-- New nonterminals exceed no limit, even where they can be erased themselves. -/
theorem checkExpansion (coherent : g.Coherent) (limited : g.checkExpansion limit = .ok ()) :
    h.checkExpansion limit = .ok () := by
  rw [checkExpansion_eq_ok_iff] at limited ⊢
  intro p stored
  obtain ⟨q, inG, sublist⟩ : ∃ q ∈ g.productions, (short.writeOut p.rhs).Sublist q.rhs := by
    rcases abbreviated.writtenOut p stored with isNew | old
    · exact (cut _ _ isNew).2
    · exact ⟨_, old, .refl _⟩
  calc nullablePositions h.nullable p.rhs
      ≤ nullablePositions g.nullable (short.writeOut p.rhs) := abbreviated.nullablePositions_le cut coherent p.rhs
    _ ≤ nullablePositions g.nullable q.rhs := ContextFree.nullablePositions_le (fun _ => id) sublist
    _ ≤ min limit expansionCap := limited q inG

end Abbreviated

theorem checkExpansion_isolateTerminals (closed : g.Closed) (supply : NameSupply) (stem : String)
    (limited : g.checkExpansion limit = .ok ()) :
    (g.isolateTerminals supply stem).grammar.checkExpansion limit = .ok () := by
  refine (isolateTerminals_abbreviated closed supply stem).checkExpansion ?_ closed.toCoherent limited
  intro a form member
  obtain ⟨t, assigned, rfl⟩ := Isolation.mem_abbreviations.mp member
  have met := ((isolateTerminals_named g supply stem).keys t).mp (List.mem_map_of_mem assigned)
  obtain ⟨q, stored, _, inside⟩ := mem_innerTerminals.mp met
  exact ⟨List.cons_ne_nil _ _, q, stored, List.singleton_sublist.mpr inside⟩

theorem checkExpansion_binarize (closed : g.Closed) (supply : NameSupply) (limited : g.checkExpansion limit = .ok ()) :
    (g.binarize supply).grammar.checkExpansion limit = .ok () := by
  obtain ⟨splits, listed, chained⟩ := exists_chained g supply
  refine (abbreviated_of_chained listed chained closed).checkExpansion ?_ closed.toCoherent limited
  intro a form member
  obtain ⟨split, inSplits, suffix⟩ := List.mem_flatMap.mp member
  have length := chained.length split inSplits
  exact ⟨Binarization.ne_nil_of_mem_suffixes (Nat.le_of_eq length) suffix, split.production,
    production_mem listed inSplits, Binarization.sublist_of_mem_suffixes suffix⟩

end Grammar

end ContextFree
