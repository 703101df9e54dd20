import Std.Data.ExtTreeSet

namespace ContextFree

/-- A finite set whose elements are listed in increasing order. Sets with the same members are
equal, however they were built. -/
abbrev FiniteSet (α : Type) [Ord α] := Std.ExtTreeSet α

namespace FiniteSet

open Std

variable {α : Type} [Ord α] [TransOrd α] [LawfulEqOrd α]

@[simp] theorem mem_insert_iff {s : FiniteSet α} {x y : α} : x ∈ s.insert y ↔ x = y ∨ x ∈ s := by
  rw [ExtTreeSet.mem_insert, LawfulEqCmp.compare_eq_iff_eq, eq_comm]

@[simp] theorem mem_singleton_iff {x y : α} : x ∈ ({y} : FiniteSet α) ↔ x = y := by
  rw [ExtTreeSet.singleton_eq_insert, mem_insert_iff]
  simp

@[simp] theorem mem_insertMany_iff {s : FiniteSet α} {xs : List α} {x : α} :
    x ∈ s.insertMany xs ↔ x ∈ s ∨ x ∈ xs := by
  induction xs generalizing s with
  | nil => simp
  | cons y rest ih => rw [ExtTreeSet.insertMany_cons, ih, mem_insert_iff, List.mem_cons, or_assoc, or_left_comm]

@[simp] theorem mem_ofList_iff {xs : List α} {x : α} : x ∈ (ExtTreeSet.ofList xs : FiniteSet α) ↔ x ∈ xs := by
  rw [ExtTreeSet.ofList_eq_insertMany_empty, mem_insertMany_iff]
  simp

@[simp] theorem mem_filter_iff {s : FiniteSet α} {keep : α → Bool} {x : α} :
    x ∈ s.filter keep ↔ x ∈ s ∧ keep x = true := by
  rw [← ExtTreeSet.mem_toList, ExtTreeSet.toList_filter, List.mem_filter, ExtTreeSet.mem_toList]

theorem nodup_toList (s : FiniteSet α) : s.toList.Nodup :=
  ExtTreeSet.distinct_toList.imp fun different same => different (LawfulEqCmp.compare_eq_iff_eq.mpr same)

/-- A list without repetitions that has the members of a set lists the set. -/
theorem toList_perm {s : FiniteSet α} {xs : List α} (distinct : xs.Nodup) (same : ∀ x, x ∈ s ↔ x ∈ xs) :
    s.toList.Perm xs :=
  (List.perm_ext_iff_of_nodup s.nodup_toList distinct).mpr fun x => ExtTreeSet.mem_toList.trans (same x)

omit [LawfulEqOrd α] in
theorem size_lt_of_ssubset {s t : FiniteSet α} (subset : ∀ x ∈ s, x ∈ t) {x : α} (inT : x ∈ t)
    (notInS : x ∉ s) : s.size < t.size := by
  have split : (t \ s).size + (t ∩ s).size = t.size := ExtTreeSet.size_diff_add_size_inter_eq_size_left
  rw [ExtTreeSet.size_inter_eq_size_right (fun a => subset a)] at split
  have missing : (t \ s).size ≠ 0 := by
    rw [Ne, ← ExtTreeSet.eq_empty_iff_size_eq_zero]
    exact ExtTreeSet.ne_empty_of_mem (ExtTreeSet.mem_diff_iff.mpr ⟨inT, notInS⟩)
  omega

omit [LawfulEqOrd α] in
/-- What a set lacks of `whole` shrinks when the set gains a member of `whole`. -/
theorem size_diff_lt {whole s t : FiniteSet α} (subset : ∀ x ∈ s, x ∈ t) {x : α} (inWhole : x ∈ whole)
    (notInS : x ∉ s) (inT : x ∈ t) : (whole \ t).size < (whole \ s).size := by
  refine size_lt_of_ssubset (x := x) (fun y member => ?_) (by simp [inWhole, notInS]) (by simp [inT])
  rw [ExtTreeSet.mem_diff_iff] at member ⊢
  exact ⟨member.1, fun inS => member.2 (subset y inS)⟩

/-- A set that gained something has a member that it lacked before. -/
theorem exists_new_of_ne {s t : FiniteSet α} (subset : ∀ x ∈ s, x ∈ t) (changed : t ≠ s) :
    ∃ x ∈ t, x ∉ s := by
  refine Classical.byContradiction fun none => changed (ExtTreeSet.ext_mem fun x => ⟨fun inT => ?_, subset x⟩)
  exact Classical.byContradiction fun notInS => none ⟨x, inT, notInS⟩

theorem eq_or_size_lt {s t : FiniteSet α} (subset : ∀ x ∈ s, x ∈ t) : t = s ∨ s.size < t.size := by
  by_cases same : t = s
  · exact .inl same
  · obtain ⟨x, inT, notInS⟩ := exists_new_of_ne subset same
    exact .inr (size_lt_of_ssubset subset inT notInS)

theorem size_le_of_subset {s t : FiniteSet α} (subset : ∀ x ∈ s, x ∈ t) : s.size ≤ t.size := by
  rcases eq_or_size_lt subset with same | less
  · exact Nat.le_of_eq (congrArg ExtTreeSet.size same.symm)
  · exact Nat.le_of_lt less

theorem insert_eq_self_iff {s : FiniteSet α} {x : α} : s.insert x = s ↔ x ∈ s := by
  constructor
  · intro same
    rw [← same]
    exact mem_insert_iff.mpr (.inl rfl)
  · intro old
    refine ExtTreeSet.ext_mem fun y => ?_
    rw [mem_insert_iff, or_iff_right_of_imp fun equal => equal ▸ old]

end FiniteSet

end ContextFree
