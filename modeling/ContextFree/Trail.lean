namespace ContextFree

variable {α : Type} [DecidableEq α]

/-- The states that `step` passes through from `s` until it changes nothing. There are as many
of them as rounds, the round that changes nothing included. -/
def trail (step : α → α) (missing : α → Nat)
    (shrinks : ∀ s, step s ≠ s → missing (step s) < missing s) (s : α) : List α :=
  if _ : step s = s then [s] else s :: trail step missing shrinks (step s)
termination_by missing s
decreasing_by exact shrinks s ‹_›

variable {step : α → α} {missing : α → Nat}
  {shrinks : ∀ s, step s ≠ s → missing (step s) < missing s}

theorem trail_eq (s : α) :
    trail step missing shrinks s = if step s = s then [s] else s :: trail step missing shrinks (step s) := by
  rw [trail]
  simp

theorem trail_ne_nil (s : α) : trail step missing shrinks s ≠ [] := by
  rw [trail_eq]
  split <;> simp

/-- The state that `step` changes no more. -/
def settle (step : α → α) (missing : α → Nat)
    (shrinks : ∀ s, step s ≠ s → missing (step s) < missing s) (s : α) : α :=
  (trail step missing shrinks s).getLast (trail_ne_nil s)

theorem step_settle (s : α) : step (settle step missing shrinks s) = settle step missing shrinks s := by
  fun_induction trail step missing shrinks s with
  | case1 s settled => simp [settle, trail_eq s, settled]
  | case2 s unsettled ih => simpa [settle, trail_eq s, unsettled, List.getLast_cons (trail_ne_nil _)] using ih

end ContextFree
