import ContextFree.Text.Draft

namespace ContextFree.Text

/-- One rule for each name, in the order in which the names first appear, with the alternatives of
all rules of that name in order. -/
def gather (rules : List Rule) : List Rule :=
  (rules.map Rule.name).eraseDups.map fun name =>
    ⟨name, (rules.filter (·.name = name)).flatMap Rule.choices⟩

theorem filter_name_eq_nil {rules : List Rule} {name : Name} (missing : name ∉ rules.map Rule.name) :
    rules.filter (·.name = name) = [] := by
  refine List.filter_eq_nil_iff.mpr fun rule member => ?_
  simpa using fun same : rule.name = name => missing (List.mem_map.mpr ⟨rule, member, same⟩)

theorem nodup_eraseDups (names : List Name) : names.eraseDups.Nodup := by
  induction length : names.length using Nat.strongRecOn generalizing names with
  | ind n ih =>
    cases names with
    | nil => exact .nil
    | cons name rest =>
      rw [List.eraseDups_cons, List.nodup_cons, List.mem_eraseDups]
      refine ⟨by simp, ih (rest.filter fun other => !other == name).length ?_ _ rfl⟩
      have le := List.length_filter_le (fun other => !other == name) rest
      rw [List.length_cons] at length
      omega

/-- Alternatives are added to the rule of their name, or make a new last rule. -/
theorem addChoices_map {names : List Name} (distinct : names.Nodup) {choicesOf : Name → List (List Name)} {name : Name}
    (none : name ∉ names → choicesOf name = []) (choices : List (List Name)) :
    Draft.addChoices name choices (names.map fun n => ⟨n, choicesOf n⟩) =
      (if name ∈ names then names else names ++ [name]).map
        fun n => ⟨n, choicesOf n ++ if n = name then choices else []⟩ := by
  induction names with
  | nil => simp [Draft.addChoices, none]
  | cons first rest ih =>
    obtain ⟨notInRest, distinct⟩ := List.nodup_cons.mp distinct
    rw [List.map_cons, Draft.addChoices]
    by_cases same : first = name
    · subst same
      have others : ∀ n ∈ rest, n ≠ first := fun n member same => notInRest (same ▸ member)
      simp +contextual [others]
    · have inRest : name ∈ first :: rest ↔ name ∈ rest := by simp [Ne.symm same]
      have tail := ih distinct fun missing => none (mt inRest.mp missing)
      simp only [if_neg same, tail, inRest]
      split <;> simp [same]

theorem eraseDups_concat (names : List Name) (name : Name) :
    (names ++ [name]).eraseDups = if name ∈ names then names.eraseDups else names.eraseDups ++ [name] := by
  rw [List.eraseDups_append]
  by_cases old : name ∈ names <;> simp [List.removeAll, List.eraseDups_cons, old]

theorem addChoices_gather (rules : List Rule) (name : Name) (choices : List (List Name)) :
    Draft.addChoices name choices (gather rules) = gather (rules ++ [⟨name, choices⟩]) := by
  have none : name ∉ (rules.map Rule.name).eraseDups →
      (rules.filter (·.name = name)).flatMap Rule.choices = [] := by
    intro missing
    rw [List.mem_eraseDups] at missing
    rw [filter_name_eq_nil missing, List.flatMap_nil]
  rw [gather, gather, addChoices_map (nodup_eraseDups _) none, List.map_append, List.map_singleton, eraseDups_concat]
  simp only [List.mem_eraseDups]
  refine List.map_congr_left fun n _ => ?_
  rw [List.filter_append, List.flatMap_append]
  by_cases same : name = n <;> simp [same, Ne.symm]

theorem eraseDups_of_nodup {names : List Name} (distinct : names.Nodup) : names.eraseDups = names := by
  induction names with
  | nil => rfl
  | cons name rest ih =>
    obtain ⟨notInRest, distinct⟩ := List.nodup_cons.mp distinct
    have kept : rest.filter (fun other => !other == name) = rest := by
      refine List.filter_eq_self.mpr fun other member => ?_
      have different : other ≠ name := fun same => notInRest (same ▸ member)
      simpa using different
    rw [List.eraseDups_cons, kept, ih distinct]

theorem filter_name_of_nodup {rules : List Rule} (distinct : (rules.map Rule.name).Nodup) {rule : Rule}
    (member : rule ∈ rules) : rules.filter (·.name = rule.name) = [rule] := by
  induction rules with
  | nil => cases member
  | cons first rest ih =>
    rw [List.map_cons, List.nodup_cons] at distinct
    obtain ⟨notInRest, distinct⟩ := distinct
    rcases List.mem_cons.mp member with rfl | later
    · rw [List.filter_cons_of_pos (by simp), filter_name_eq_nil notInRest]
    · have different : first.name ≠ rule.name := fun same => notInRest (List.mem_map.mpr ⟨rule, later, same.symm⟩)
      rw [List.filter_cons_of_neg (by simpa using different), ih distinct later]

/-- Rules of different names are left as they are. -/
theorem gather_of_nodup {rules : List Rule} (distinct : (rules.map Rule.name).Nodup) : gather rules = rules := by
  rw [gather, eraseDups_of_nodup distinct, List.map_map]
  refine (List.map_congr_left fun rule member => ?_).trans (List.map_id rules)
  rw [Function.comp_apply, filter_name_of_nodup distinct member, List.flatMap_singleton]
  rfl

end ContextFree.Text
