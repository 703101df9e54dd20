import ContextFree.Proofs.Operation

namespace ContextFree

namespace NameSupply

/-- The least number from `first` on with a free name. -/
structure LeastFree (g : Grammar) (stem : String) (first n : Nat) : Prop where
  le : first ≤ n
  free : g.usesName (numbered stem n) = false
  taken : ∀ m, first ≤ m → m < n → g.usesName (numbered stem m) = true

/-- One try: the next number is used up, and its name is given unless a symbol has it. -/
def attempt (supply : NameSupply) (g : Grammar) (stem : String) : Option Name × NameSupply :=
  let name := numbered stem supply.next
  (if g.usesName name then none else some name, { supply with next := supply.next + 1 })

/-- Tries are made until one gives a name, which is declared. Nothing but that bounds their number. -/
inductive Searches (g : Grammar) (stem : String) : (supply : NameSupply) → (tries : Nat) → Minted → Prop
  | found {supply after : NameSupply} {name : Name} : supply.attempt g stem = (some name, after) →
      Searches g stem supply 1 ⟨name, g.declareNonterminal name, after⟩
  | again {supply after : NameSupply} {tries : Nat} {minted : Minted} : supply.attempt g stem = (none, after) →
      Searches g stem after tries minted → Searches g stem supply (tries + 1) minted

/-- The numbered names that a supply gives, one call after another. Each call is for some grammar, and for a name of
its own choice or for a numbered one. -/
def numberedNames (supply : NameSupply) : List (Grammar × Option Name) → List Name
  | [] => []
  | (g, none) :: rest => (supply.mint g).name :: (supply.mint g).supply.numberedNames rest
  | (g, some name) :: rest => (supply.mintNamed g name).supply.numberedNames rest

end NameSupply

/-- Takes no symbol away. -/
def Operation.grows : Operation → Bool
  | declareTerminal _ | declareNonterminal _ | addProduction _ | mint _ | mintNamed _ _ | copy => true
  | _ => false

/-- The new name that an operation gives, if it is one that asks for a name. -/
def Operation.newName? (g : Grammar) : Operation → Option Name
  | mint supply => some (supply.mint g).name
  | mintNamed supply name => some (supply.mintNamed g name).name
  | _ => none

/-- The new names that are given while operations are carried out on a grammar, one after another. -/
def Grammar.newNames (g : Grammar) : List Operation → List Name
  | [] => []
  | operation :: rest => (operation.newName? g).toList ++ (g.apply operation).newNames rest

namespace NameSupply

/-! ### One name -/

/-- Numbers with used names run out before there are more of them than declared symbols. -/
theorem leastFree_freeNumber (g : Grammar) (stem : String) (first : Nat) :
    LeastFree g stem first (freeNumber g stem first) ∧
      freeNumber g stem first ≤ first + (g.terminals.size + g.nonterminals.size) := by
  cases found : (List.range' first (g.terminals.size + g.nonterminals.size + 1)).find?
      fun n => !g.usesName (numbered stem n) with
  | none =>
    obtain ⟨n, inRange, free⟩ := exists_free g stem first
    have taken := List.find?_eq_none.mp found n inRange
    simp [free] at taken
  | some n =>
    have same : freeNumber g stem first = n := by simp [freeNumber, found]
    obtain ⟨free, inRange, taken⟩ := List.find?_range'_eq_some.mp found
    obtain ⟨le, less⟩ := List.mem_range'_1.mp inRange
    rw [same]
    exact ⟨⟨le, by simpa using free, fun m after before => by simpa using taken m after before⟩, by omega⟩

theorem attempt_of_free {supply : NameSupply} {g : Grammar} {stem : String}
    (free : g.usesName (numbered stem supply.next) = false) :
    supply.attempt g stem = (some (numbered stem supply.next), { supply with next := supply.next + 1 }) := by
  simp [attempt, free]

theorem attempt_of_taken {supply : NameSupply} {g : Grammar} {stem : String}
    (taken : g.usesName (numbered stem supply.next) = true) :
    supply.attempt g stem = (none, { supply with next := supply.next + 1 }) := by
  simp [attempt, taken]

/-- The search goes through the used names up to the first free one. -/
theorem searches_of_leastFree {g : Grammar} {stem : String} (tries : Nat) {supply : NameSupply}
    (least : LeastFree g stem supply.next (supply.next + tries)) :
    Searches g stem supply (tries + 1) ⟨numbered stem (supply.next + tries),
      g.declareNonterminal (numbered stem (supply.next + tries)), ⟨supply.stem, supply.next + tries + 1⟩⟩ := by
  induction tries generalizing supply with
  | zero => exact .found (attempt_of_free least.free)
  | succ tries ih =>
    have next : supply.next + (tries + 1) = supply.next + 1 + tries := by omega
    rw [next] at least ⊢
    refine .again (attempt_of_taken (least.taken _ (Nat.le_refl _) (by omega))) (ih ?_)
    exact ⟨by simp, least.free, fun m le less => least.taken m (by simp at le; omega) less⟩

theorem Searches.unique {g : Grammar} {stem : String} {supply : NameSupply} {tries others : Nat} {minted other : Minted}
    (search : Searches g stem supply tries minted) (again : Searches g stem supply others other) :
    tries = others ∧ minted = other := by
  induction search generalizing others other with
  | found given =>
    cases again with
    | found same =>
      cases given.symm.trans same
      exact ⟨rfl, rfl⟩
    | again taken => cases given.symm.trans taken
  | again taken _ ih =>
    cases again with
    | found given => cases taken.symm.trans given
    | again same behind =>
      cases taken.symm.trans same
      obtain ⟨rfl, rfl⟩ := ih behind
      exact ⟨rfl, rfl⟩

/-- What the search for a name with this stem comes to: it ends with the number `n` and has this result. -/
structure Finds (supply : NameSupply) (g : Grammar) (stem : String) (minted : Minted) (n : Nat) : Prop where
  least : LeastFree g stem supply.next n
  few : n + 1 - supply.next ≤ g.terminals.size + g.nonterminals.size + 1
  searches : ∀ tries result, Searches g stem supply tries result ↔ tries = n + 1 - supply.next ∧ result = minted
  minted_eq : minted = ⟨numbered stem n, g.declareNonterminal (numbered stem n), ⟨supply.stem, n + 1⟩⟩

theorem mintNumbered_finds (supply : NameSupply) (g : Grammar) (stem : String) :
    Finds supply g stem (supply.mintNumbered g stem) (freeNumber g stem supply.next) := by
  obtain ⟨least, few⟩ := leastFree_freeNumber g stem supply.next
  obtain ⟨tries, split⟩ := Nat.exists_eq_add_of_le least.le
  have search := searches_of_leastFree tries (split ▸ least)
  rw [← split] at search
  have count : freeNumber g stem supply.next + 1 - supply.next = tries + 1 := by omega
  refine ⟨least, by omega, fun others result => ?_, rfl⟩
  rw [count]
  constructor
  · intro other
    exact other.unique search
  · rintro ⟨rfl, rfl⟩
    exact search

/-! ### One supply -/

theorem mintNamed_supply (supply : NameSupply) (g : Grammar) (name : Name) :
    (supply.mintNamed g name).supply.stem = supply.stem ∧ supply.next ≤ (supply.mintNamed g name).supply.next := by
  unfold mintNamed
  split
  · exact ⟨rfl, Nat.le_succ_of_le (leastFree_freeNumber g name supply.next).1.le⟩
  · exact ⟨rfl, Nat.le_refl _⟩

/-- The numbers of the names grow from call to call, also where a name was asked for in between. -/
theorem exists_numbers (supply : NameSupply) (calls : List (Grammar × Option Name)) : ∃ numbers : List Nat,
    numbers.Pairwise (· < ·) ∧ (∀ n ∈ numbers, supply.next ≤ n) ∧
      supply.numberedNames calls = numbers.map (numbered supply.stem) := by
  induction calls generalizing supply with
  | nil => exact ⟨[], .nil, List.forall_mem_nil _, rfl⟩
  | cons call rest ih =>
    obtain ⟨g, _ | name⟩ := call
    · obtain ⟨numbers, increasing, above, same⟩ := ih (supply.mint g).supply
      have first := (leastFree_freeNumber g supply.stem supply.next).1.le
      have later : ∀ n ∈ numbers, freeNumber g supply.stem supply.next < n := above
      refine ⟨freeNumber g supply.stem supply.next :: numbers, List.pairwise_cons.mpr ⟨later, increasing⟩,
        List.forall_mem_cons.mpr ⟨first, fun n member => first.trans (later n member).le⟩, ?_⟩
      rw [numberedNames, same]
      rfl
    · obtain ⟨stem, next⟩ := mintNamed_supply supply g name
      obtain ⟨numbers, increasing, above, same⟩ := ih (supply.mintNamed g name).supply
      exact ⟨numbers, increasing, fun n member => next.trans (above n member), by rw [numberedNames, same, stem]⟩

theorem nodup_numberedNames (supply : NameSupply) (calls : List (Grammar × Option Name)) :
    (supply.numberedNames calls).Nodup := by
  obtain ⟨numbers, increasing, _, same⟩ := exists_numbers supply calls
  rw [same]
  exact increasing.map _ fun m n less equal => absurd (numbered_injective equal) less.ne

end NameSupply

namespace Grammar

/-! ### One grammar -/

variable {g : Grammar}

theorem usesName_declareNonterminal {a b : Name} :
    (g.declareNonterminal a).usesName b = true ↔ b = a ∨ g.usesName b = true := by
  simp only [usesName, declareNonterminal, Bool.or_eq_true, Std.ExtTreeSet.contains_iff_mem, FiniteSet.mem_insert_iff]
  exact or_left_comm

theorem usesName_declareTerminal {a b : Name} :
    (g.declareTerminal a).usesName b = true ↔ b = a ∨ g.usesName b = true := by
  simp only [usesName, declareTerminal, Bool.or_eq_true, Std.ExtTreeSet.contains_iff_mem, FiniteSet.mem_insert_iff,
    or_assoc]

theorem usesName_minted {minted : Minted} (fresh : minted.IsFresh g) {a : Name} :
    minted.grammar.usesName a = true ↔ a = minted.name ∨ g.usesName a = true := by
  rw [fresh.declared, usesName_declareNonterminal]

/-- Names stay in use while a grammar grows. -/
theorem usesName_apply {operation : Operation} (grows : operation.grows = true) {a : Name}
    (used : g.usesName a = true) : (g.apply operation).usesName a = true := by
  cases operation with
  | declareTerminal name => exact usesName_declareTerminal.mpr (.inr used)
  | declareNonterminal name => exact usesName_declareNonterminal.mpr (.inr used)
  | addProduction p =>
    by_cases declared : p.lhs ∈ g.nonterminals
    · have added : g.apply (.addProduction p) = g.insert p := by
        simp only [apply, Operation.assert, Operation.perform, assertAdd_of_mem declared]
      rw [added]
      exact used
    · have refused : g.apply (.addProduction p) = g := by
        simp only [apply, Operation.assert, Operation.perform, assertAdd_of_not_mem declared]
      rwa [refused]
  | mint supply => exact (usesName_minted (supply.mint_isFresh g)).mpr (.inr used)
  | mintNamed supply name => exact (usesName_minted (supply.mintNamed_isFresh g name)).mpr (.inr used)
  | copy => exact used
  | _ => cases grows

/-- A new name was not in use, and is from then on. -/
theorem usesName_newName {operation : Operation} {name : Name} (given : operation.newName? g = some name) :
    g.usesName name = false ∧ (g.apply operation).usesName name = true := by
  cases operation with
  | mint supply =>
    cases given
    have fresh := supply.mint_isFresh g
    exact ⟨fresh.unused, (usesName_minted fresh).mpr (.inl rfl)⟩
  | mintNamed supply base =>
    cases given
    have fresh := supply.mintNamed_isFresh g base
    exact ⟨fresh.unused, (usesName_minted fresh).mpr (.inl rfl)⟩
  | _ => cases given

/-- Whatever supplies are asked, a grammar that only grows is given each name once, and none that it had. -/
theorem newNames_fresh {operations : List Operation} (grows : ∀ operation ∈ operations, operation.grows = true) :
    (g.newNames operations).Nodup ∧ ∀ name ∈ g.newNames operations, g.usesName name = false := by
  induction operations generalizing g with
  | nil => exact ⟨.nil, List.forall_mem_nil _⟩
  | cons operation rest ih =>
    obtain ⟨here, later⟩ := List.forall_mem_cons.mp grows
    obtain ⟨distinct, unused⟩ := ih (g := g.apply operation) later
    have stillUnused : ∀ name ∈ (g.apply operation).newNames rest, g.usesName name = false := by
      intro name member
      by_contra used
      have after := usesName_apply here (by simpa using used)
      cases after.symm.trans (unused name member)
    rw [newNames]
    cases given : operation.newName? g with
    | none => exact ⟨distinct, stillUnused⟩
    | some name =>
      obtain ⟨new, used⟩ := usesName_newName given
      refine ⟨List.nodup_cons.mpr ⟨fun again => ?_, distinct⟩, List.forall_mem_cons.mpr ⟨new, stillUnused⟩⟩
      cases used.symm.trans (unused name again)

end Grammar

namespace NameSupply

/-- A call for a numbered name gives the least free number at or above that of the supply, after no more tries than
there are declared symbols and one; so does a call for a name that is used already, while a free name is given as it
is. Nothing else changes. The names that are given while one grammar grows are different from each other and from all
that it had; so are the numbered names from one supply, whatever grammars they are for. -/
theorem mint_exact (supply : NameSupply) (g : Grammar) :
    (∃ n, Finds supply g supply.stem (supply.mint g) n) ∧
    (∀ name, g.usesName name = true → ∃ n, Finds supply g name (supply.mintNamed g name) n) ∧
    (∀ name, g.usesName name = false → supply.mintNamed g name = ⟨name, g.declareNonterminal name, supply⟩) ∧
    (∀ operations : List Operation, (∀ operation ∈ operations, operation.grows = true) →
      (g.newNames operations).Nodup ∧ ∀ name ∈ g.newNames operations, g.usesName name = false) ∧
    ∀ calls, (supply.numberedNames calls).Nodup := by
  refine ⟨⟨_, mintNumbered_finds supply g supply.stem⟩, fun name used => ?_, fun name free => ?_,
    fun _ grows => Grammar.newNames_fresh grows, nodup_numberedNames supply⟩
  · rw [mintNamed, if_pos used]
    exact ⟨_, mintNumbered_finds supply g name⟩
  · rw [mintNamed, if_neg (by simp [free])]

/-- A grammar in which the first numbers of two stems are used. -/
def taken : Grammar :=
  ((Grammar.ofStart "X0").declareTerminal "X1").declareNonterminal "X10"

theorem taken_mint_exact :
    (∃ n, Finds ⟨"X", 0⟩ taken "X" (mint ⟨"X", 0⟩ taken) n) ∧
    (taken.usesName "X1" = true ∧ ∃ n, Finds ⟨"X", 0⟩ taken "X1" (mintNamed ⟨"X", 0⟩ taken "X1") n) ∧
    (taken.usesName "X2" = false ∧
      mintNamed ⟨"X", 0⟩ taken "X2" = ⟨"X2", taken.declareNonterminal "X2", ⟨"X", 0⟩⟩) ∧
    ((taken.newNames [.mint ⟨"X", 0⟩, .mintNamed ⟨"X", 0⟩ "X1", .addProduction ⟨"X9", []⟩, .mintNamed ⟨"X", 1⟩ "X1"]) =
        ["X2", "X11", "X12"] ∧
      (taken.newNames [.mint ⟨"X", 0⟩, .mintNamed ⟨"X", 0⟩ "X1", .addProduction ⟨"X9", []⟩,
        .mintNamed ⟨"X", 1⟩ "X1"]).Nodup) ∧
    (numberedNames ⟨"X", 0⟩ [(taken, none), (.ofStart "S", some "S"), (.ofStart "S", none)]).Nodup := by
  obtain ⟨numbered, named, free, grown, calls⟩ := mint_exact ⟨"X", 0⟩ taken
  have used : taken.usesName "X1" = true := by decide +kernel
  have unused : taken.usesName "X2" = false := by decide +kernel
  exact ⟨numbered, ⟨used, named "X1" used⟩, ⟨unused, free "X2" unused⟩,
    ⟨by decide +kernel, (grown _ (by decide)).1⟩, calls _⟩

end NameSupply

end ContextFree
