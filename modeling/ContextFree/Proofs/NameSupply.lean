import ContextFree.NameSupply
import ContextFree.Proofs.WellFormed
import Std.Data.String.ToNat

namespace ContextFree

/-- The name was free, and nothing happened to the grammar but that it declares the name. -/
structure Minted.IsFresh (minted : Minted) (g : Grammar) : Prop where
  unused : g.usesName minted.name = false
  declared : minted.grammar = g.declareNonterminal minted.name

namespace NameSupply

theorem numbered_injective {stem : String} {m n : Nat} (same : numbered stem m = numbered stem n) : m = n :=
  Nat.repr_injective ((String.append_right_inj stem).mp same)

theorem numbered_ne_empty (stem : String) (n : Nat) : numbered stem n ≠ "" := by
  intro empty
  exact Nat.repr_ne_empty (String.append_eq_empty_iff.mp empty).2

theorem numbered_ne_stem (stem : String) (n : Nat) : numbered stem n ≠ stem := by
  intro same
  have empty : toString n = "" := (String.append_right_inj stem).mp (same.trans String.append_empty.symm)
  exact Nat.repr_ne_empty empty

/-- Of more numbers than there are declared symbols one gives a free name. -/
theorem exists_free (g : Grammar) (stem : String) (first : Nat) :
    ∃ n ∈ List.range' first (g.terminals.size + g.nonterminals.size + 1), g.usesName (numbered stem n) = false := by
  refine Classical.byContradiction fun none => ?_
  let tried := (List.range' first (g.terminals.size + g.nonterminals.size + 1)).map (numbered stem)
  have distinct : tried.Nodup := by
    refine List.Pairwise.map _ (fun m n different same => ?_) List.nodup_range'
    exact different (numbered_injective same)
  have used : tried ⊆ g.terminals.toList ++ g.nonterminals.toList := by
    intro name member
    obtain ⟨n, inRange, rfl⟩ := List.mem_map.mp member
    have taken : g.usesName (numbered stem n) = true := by
      cases free : g.usesName (numbered stem n) with
      | true => rfl
      | false => exact absurd ⟨n, inRange, free⟩ none
    simpa [Grammar.usesName] using taken
  have count := distinct.length_le_of_subset used
  simp only [tried, List.length_map, List.length_range', List.length_append, Std.ExtTreeSet.length_toList] at count
  omega

theorem usesName_freeNumber (g : Grammar) (stem : String) (first : Nat) :
    g.usesName (numbered stem (freeNumber g stem first)) = false := by
  cases found : (List.range' first (g.terminals.size + g.nonterminals.size + 1)).find?
      fun n => !g.usesName (numbered stem n) with
  | none =>
    obtain ⟨n, inRange, free⟩ := exists_free g stem first
    have taken := List.find?_eq_none.mp found n inRange
    simp [free] at taken
  | some n =>
    have free := List.find?_some found
    simpa [freeNumber, found] using free

theorem mintNumbered_isFresh (supply : NameSupply) (g : Grammar) (stem : String) :
    (supply.mintNumbered g stem).IsFresh g :=
  ⟨usesName_freeNumber g stem supply.next, rfl⟩

theorem mint_isFresh (supply : NameSupply) (g : Grammar) : (supply.mint g).IsFresh g :=
  supply.mintNumbered_isFresh g supply.stem

theorem mintNamed_isFresh (supply : NameSupply) (g : Grammar) (name : Name) : (supply.mintNamed g name).IsFresh g := by
  unfold mintNamed
  split
  · exact supply.mintNumbered_isFresh g name
  · rename_i free
    exact ⟨by simpa using free, rfl⟩

/-- The name that is asked for is given exactly if it is free. -/
theorem mintNamed_name_eq_iff (supply : NameSupply) (g : Grammar) (name : Name) :
    (supply.mintNamed g name).name = name ↔ g.usesName name = false := by
  unfold mintNamed
  split
  · rename_i taken
    exact iff_of_false (numbered_ne_stem name _) (by simp [taken])
  · rename_i free
    exact iff_of_true rfl (by simpa using free)

theorem mint_ne_empty (supply : NameSupply) (g : Grammar) : (supply.mint g).name ≠ "" :=
  numbered_ne_empty _ _

theorem mintNamed_ne_empty (supply : NameSupply) (g : Grammar) {name : Name} (nonempty : name ≠ "") :
    (supply.mintNamed g name).name ≠ "" := by
  unfold mintNamed
  split
  · exact numbered_ne_empty _ _
  · exact nonempty

end NameSupply

end ContextFree
