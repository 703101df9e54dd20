import ContextFree.Proofs.Abbreviation
import Mathlib.Data.List.Nodup
import Mathlib.Logic.Function.Iterate

namespace ContextFree.Grammar

/-- What a nonterminal that is not an old one stands for, which is the right-hand side of its only
production. Any other nonterminal stands for itself. -/
def body (h : Grammar) (old : NameSet) (a : Name) : List Symbol :=
  if old.contains a then [.nonterminal a]
  else match h.productionsOf a with
    | [p] => p.rhs
    | _ => [.nonterminal a]

def unfold (h : Grammar) (old : NameSet) (form : List Symbol) : List Symbol :=
  form.flatMap (Symbol.expand (h.body old))

/-- Unfolds nonterminals that are not old ones, as often as there are nonterminals at all, and drops
them with their productions. -/
def unfolded (h : Grammar) (old : NameSet) : Grammar :=
  { h with
    nonterminals := h.nonterminals.filter old.contains
    productions := .ofList <| (h.productions.toList.filter fun p => old.contains p.lhs).map fun p =>
      Production.mk p.lhs ((h.unfold old)^[h.nonterminals.size] p.rhs) }

theorem productionsOf_eq_singleton {h : Grammar} {p : Production} (stored : p ∈ h.productions)
    (only : ∀ q ∈ h.productions, q.lhs = p.lhs → q = p) : h.productionsOf p.lhs = [p] := by
  have distinct : (h.productionsOf p.lhs).Nodup := (FiniteSet.nodup_toList h.productions).filter _
  refine List.perm_singleton.mp ((List.perm_ext_iff_of_nodup distinct (List.nodup_singleton p)).mpr fun q => ?_)
  rw [mem_productionsOf, List.mem_singleton]
  refine ⟨fun found => only q found.1 found.2, fun same => ?_⟩
  subst same
  exact ⟨stored, rfl⟩

/-- New nonterminals that can be unfolded: each stands for something, and none is all that there is on
a right-hand side. Productions stay different when they are written out. -/
structure Foldings (g h : Grammar) (short : Abbreviations) : Prop extends Abbreviated g h short where
  nonempty : ∀ a form, (a, form) ∈ short → form ≠ []
  bounded : ∀ a form, (a, form) ∈ short → form.length ≤ h.nonterminals.size
  long : ∀ p ∈ h.productions, ∀ a ∈ short.names, .nonterminal a ∈ p.rhs → 2 ≤ p.rhs.length
  faithful : ∀ p ∈ h.productions, ∀ q ∈ h.productions, short.written p = short.written q → p = q
  kept : ∀ q ∈ g.productions, ∃ p ∈ h.productions, short.written p = q

namespace Abbreviated

variable {g h : Grammar} {short : Abbreviations} (abbreviated : Abbreviated g h short)
include abbreviated

theorem writeOut_rhs (coherent : g.Coherent) {p : Production} (stored : p ∈ h.productions)
    (isNew : p.lhs ∈ short.names) : short.writeOut p.rhs = short.meaning p.lhs := by
  rcases abbreviated.writtenOut p stored with stands | inG
  · exact (Abbreviations.meaning_of_mem abbreviated.distinct stands).symm
  · have declared := coherent.heads _ inG
    exact absurd isNew (abbreviated.not_mem_names declared)

/-- What the new nonterminals stand for is said by no production of the old ones. -/
theorem nodup_append_rules (coherent : g.Coherent) : (g.productions.toList ++ short.rules).Nodup := by
  have distinct : short.rules.Nodup := by
    refine .of_map Production.lhs ?_
    rw [Abbreviations.rules, List.map_map]
    exact abbreviated.distinct
  refine List.nodup_append.mpr ⟨FiniteSet.nodup_toList _, distinct, fun p stored q stands same => ?_⟩
  subst same
  have declared := coherent.heads p (Std.ExtTreeSet.mem_toList.mp stored)
  exact abbreviated.not_mem_names declared (List.mem_map_of_mem (Abbreviations.mem_rules.mp stands))

end Abbreviated

namespace Foldings

variable {g h : Grammar} {short : Abbreviations} (foldings : Foldings g h short) (coherent : g.Coherent)
include foldings

theorem length_le_writeOut (form : List Symbol) : form.length ≤ (short.writeOut form).length := by
  induction form with
  | nil => exact Nat.zero_le _
  | cons s form ih =>
    have one : 1 ≤ (short.writeOut [s]).length := by
      cases s with
      | terminal t => exact Nat.le_refl 1
      | nonterminal a =>
        rw [Abbreviations.writeOut_nonterminal]
        exact List.length_pos_iff.mpr (foldings.meaning_ne_nil foldings.nonempty a)
    rw [← List.singleton_append, Abbreviations.writeOut_append, List.length_append, List.length_append,
      List.length_singleton]
    omega

/-- A part of a right-hand side stands for less than the whole. -/
theorem length_meaning_lt {p : Production} (stored : p ∈ h.productions) {a : Name} (isNew : a ∈ short.names)
    (inside : .nonterminal a ∈ p.rhs) : (short.meaning a).length < (short.writeOut p.rhs).length := by
  have long := foldings.long p stored a isNew inside
  obtain ⟨before, after, split⟩ := List.append_of_mem inside
  have first := foldings.length_le_writeOut before
  have last := foldings.length_le_writeOut after
  rw [split, ← List.singleton_append] at long ⊢
  simp only [List.length_append, List.length_singleton, Abbreviations.writeOut_append,
    Abbreviations.writeOut_nonterminal] at long ⊢
  omega

include coherent

theorem exists_productionsOf {a : Name} (isNew : a ∈ short.names) :
    ∃ p ∈ h.productions, p.lhs = a ∧ h.productionsOf a = [p] := by
  obtain ⟨p, stored, rfl⟩ := foldings.defined a isNew
  refine ⟨p, stored, rfl, productionsOf_eq_singleton stored fun q other same => ?_⟩
  refine foldings.faithful q other p stored ?_
  have rest := foldings.writeOut_rhs coherent other (same ▸ isNew)
  rw [Abbreviations.written, Abbreviations.written, rest, foldings.writeOut_rhs coherent stored isNew, same]

/-- Written out, the productions are the old ones and what the new nonterminals stand for. -/
theorem map_written_perm : (h.productions.toList.map short.written).Perm (g.productions.toList ++ short.rules) := by
  have left : (h.productions.toList.map short.written).Nodup :=
    (FiniteSet.nodup_toList _).map_on fun p first q second => foldings.faithful p
      (Std.ExtTreeSet.mem_toList.mp first) q (Std.ExtTreeSet.mem_toList.mp second)
  refine (List.perm_ext_iff_of_nodup left (foldings.nodup_append_rules coherent)).mpr fun q => ?_
  rw [List.mem_map, List.mem_append, Std.ExtTreeSet.mem_toList, Abbreviations.mem_rules]
  constructor
  · intro found
    obtain ⟨p, listed, rfl⟩ := found
    exact (foldings.writtenOut p (Std.ExtTreeSet.mem_toList.mp listed)).symm
  · intro found
    rcases found with inG | stands
    · obtain ⟨p, stored, same⟩ := foldings.kept q inG
      exact ⟨p, Std.ExtTreeSet.mem_toList.mpr stored, same⟩
    · have isNew : q.lhs ∈ short.names := List.mem_map_of_mem stands
      obtain ⟨p, stored, head⟩ := foldings.defined q.lhs isNew
      refine ⟨p, Std.ExtTreeSet.mem_toList.mpr stored, ?_⟩
      rw [Abbreviations.written, foldings.writeOut_rhs coherent stored (head ▸ isNew), head,
        Abbreviations.meaning_of_mem foldings.distinct stands]

theorem size_productions : h.productions.size = g.productions.size + short.length := by
  have lengths := (foldings.map_written_perm coherent).length_eq
  rwa [List.length_map, List.length_append, Std.ExtTreeSet.length_toList, Std.ExtTreeSet.length_toList,
    Abbreviations.rules, List.length_map] at lengths

theorem exists_body {a : Name} (isNew : a ∈ short.names) :
    ∃ p ∈ h.productions, p.lhs = a ∧ h.body g.nonterminals a = p.rhs := by
  obtain ⟨p, stored, same, single⟩ := foldings.exists_productionsOf coherent isNew
  have undeclared : ¬ g.nonterminals.contains a = true := fun declared =>
    foldings.not_mem_names (Std.ExtTreeSet.contains_iff_mem.mp declared) isNew
  refine ⟨p, stored, same, ?_⟩
  rw [body, if_neg undeclared, single]

theorem body_of_not_mem {a : Name} (isOld : a ∉ short.names) : h.body g.nonterminals a = [.nonterminal a] := by
  unfold body
  split
  · rfl
  · rename_i undeclared
    have none : h.productionsOf a = [] := by
      refine List.eq_nil_iff_forall_not_mem.mpr fun p member => ?_
      obtain ⟨stored, rfl⟩ := mem_productionsOf.mp member
      have declared := (foldings.coherent coherent).heads p stored
      rcases (foldings.nonterminals p.lhs).mp declared with inG | isNew
      · exact undeclared (Std.ExtTreeSet.contains_iff_mem.mpr inG)
      · exact isOld isNew
    rw [none]

theorem writeOut_body (a : Name) : short.writeOut (h.body g.nonterminals a) = short.meaning a := by
  by_cases isNew : a ∈ short.names
  · obtain ⟨p, stored, rfl, same⟩ := foldings.exists_body coherent isNew
    rw [same, foldings.writeOut_rhs coherent stored isNew]
  · rw [foldings.body_of_not_mem coherent isNew, Abbreviations.writeOut_nonterminal]

theorem writeOut_unfold (form : List Symbol) :
    short.writeOut (h.unfold g.nonterminals form) = short.writeOut form := by
  have same : (fun s : Symbol => short.writeOut (s.expand (h.body g.nonterminals))) = Symbol.expand short.meaning := by
    funext s
    cases s with
    | terminal t => rfl
    | nonterminal a => exact foldings.writeOut_body coherent a
  calc short.writeOut (h.unfold g.nonterminals form)
      = form.flatMap fun s => short.writeOut (s.expand (h.body g.nonterminals)) := List.flatMap_assoc
    _ = short.writeOut form := by rw [same, Abbreviations.writeOut]

/-- A part of what is unfolded stands for less than the whole, so that a form needs no more rounds than
there are symbols in the longest of the forms that its nonterminals stand for. -/
theorem iterate_unfold {n : Nat} {form : List Symbol}
    (bounded : ∀ a ∈ short.names, .nonterminal a ∈ form → (short.meaning a).length ≤ n) :
    (h.unfold g.nonterminals)^[n] form = short.writeOut form := by
  induction n generalizing form with
  | zero =>
    refine (Abbreviations.writeOut_of_old fun a member isNew => ?_).symm
    have empty := List.length_eq_zero_iff.mp (Nat.le_zero.mp (bounded a isNew member))
    exact foldings.nonempty a _ (foldings.exists_meaning isNew) empty
  | succ n ih =>
    rw [Function.iterate_succ_apply, ih, foldings.writeOut_unfold coherent]
    intro a isNew member
    obtain ⟨s, inForm, inside⟩ := List.mem_flatMap.mp member
    cases s with
    | terminal t => cases List.mem_singleton.mp inside
    | nonterminal b =>
      change .nonterminal a ∈ h.body g.nonterminals b at inside
      by_cases folded : b ∈ short.names
      · obtain ⟨p, stored, rfl, same⟩ := foldings.exists_body coherent folded
        have less := foldings.length_meaning_lt stored isNew (same ▸ inside)
        rw [foldings.writeOut_rhs coherent stored folded] at less
        have enough := bounded p.lhs folded inForm
        omega
      · rw [foldings.body_of_not_mem coherent folded] at inside
        cases List.mem_singleton.mp inside
        exact absurd isNew folded

/-- Unfolding the new nonterminals gives the grammar back. -/
theorem unfolded_eq : h.unfolded g.nonterminals = g := by
  have written (p : Production) : (h.unfold g.nonterminals)^[h.nonterminals.size] p.rhs = short.writeOut p.rhs :=
    foldings.iterate_unfold coherent fun a isNew _ => foldings.bounded a _ (foldings.exists_meaning isNew)
  refine ext_mem (fun a => ?_) (fun t => ?_) (fun q => ?_) foldings.start
  · rw [unfolded, FiniteSet.mem_filter_iff, Std.ExtTreeSet.contains_iff_mem]
    exact and_iff_right_of_imp fun declared => (foldings.nonterminals a).mpr (.inl declared)
  · exact Iff.of_eq (congrArg (t ∈ ·) foldings.terminals)
  · simp only [unfolded, FiniteSet.mem_ofList_iff, List.mem_map, List.mem_filter, Std.ExtTreeSet.mem_toList,
      Std.ExtTreeSet.contains_iff_mem, written]
    constructor
    · intro found
      obtain ⟨p, ⟨stored, declared⟩, rfl⟩ := found
      refine (foldings.writtenOut p stored).resolve_left fun stands => ?_
      exact foldings.not_mem_names declared (List.mem_map_of_mem stands)
    · intro inG
      obtain ⟨p, stored, rfl⟩ := foldings.kept q inG
      have declared := coherent.heads _ inG
      exact ⟨p, ⟨stored, declared⟩, rfl⟩

end Foldings

end ContextFree.Grammar
