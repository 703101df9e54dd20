import ContextFree.Proofs.Arguments

namespace ContextFree.CommandLine

/-! ### Words -/

def Word.flag? : Word → Option Flag
  | flag given => some given
  | _ => none

def Word.query? : Word → Option Query
  | query asked => some asked
  | _ => none

def flagsOf (words : List (Option Word)) : List Flag :=
  words.filterMap fun word => word.bind Word.flag?

def firstQuery (words : List (Option Word)) : Option Query :=
  words.findSome? fun word => word.bind Word.query?

/-- The words that are left when some flags are dropped. -/
def dropFlags (flags : List Flag) (words : List (Option Word)) : List (Option Word) :=
  words.filter fun word => ∀ flag ∈ flags, word ≠ some (.flag flag)

/-- The words that are left when all flags are dropped. -/
def bareWords (words : List (Option Word)) : List (Option Word) :=
  words.filter fun word => (word.bind Word.flag?).isNone

theorem words_of_spelling {flag : Flag} {piece : Piece} (spelled : piece ∈ flag.spellings) :
    piece.words = [some (.flag flag)] := by
  cases flag with
  | verbose | quiet =>
    obtain rfl := List.mem_singleton.mp spelled
    rfl
  | dumpStages =>
    rcases List.mem_cons.mp spelled with rfl | rest
    · rfl
    · obtain rfl := List.mem_singleton.mp rest
      decide +kernel

theorem letter?_eq_flag {c : Char} {flag : Flag} (read : letter? c = some (.flag flag)) :
    .letter c ∈ flag.spellings := by
  unfold letter? at read
  split at read <;> cases read <;> simp [Flag.spellings]

theorem option?_eq_flag {name : String} {value : Option String} {flag : Flag}
    (read : option? name value = some (.flag flag)) : flag = .dumpStages := by
  unfold option? at read
  split at read <;> cases read
  rfl

/-- There are long names for the stages only. -/
theorem spelling_of_words {flag : Flag} {piece : Piece} (member : some (.flag flag) ∈ piece.words)
    (short : flag ≠ .dumpStages) : piece ∈ flag.spellings := by
  cases piece with
  | letter c => exact letter?_eq_flag (List.mem_singleton.mp member).symm
  | behind text => cases List.mem_singleton.mp member
  | whole text =>
    rw [Piece.words] at member
    split at member
    · cases member
    · have read := (List.mem_singleton.mp member).symm
      unfold long? at read
      split at read <;> exact absurd (option?_eq_flag read) short
    · cases List.mem_singleton.mp member

theorem count_words {flag : Flag} (short : flag ≠ .dumpStages) (arguments : List String) :
    (words arguments).count (some (.flag flag)) = flag.count arguments := by
  rw [words, Flag.count]
  induction pieces arguments with
  | nil => rfl
  | cons piece rest ih =>
    rw [List.flatMap_cons, List.count_append, ih, List.countP_cons, Nat.add_comm]
    congr 1
    by_cases spelled : piece ∈ flag.spellings
    · simp [spelled, words_of_spelling spelled]
    · simp [spelled, List.count_eq_zero.mpr fun member => spelled (spelling_of_words member short)]

theorem mem_words_of_count {flag : Flag} {arguments : List String} (given : 0 < flag.count arguments) :
    some (.flag flag) ∈ words arguments := by
  obtain ⟨piece, member, spelled⟩ := List.countP_pos_iff.mp given
  refine List.mem_flatMap.mpr ⟨piece, member, ?_⟩
  rw [words_of_spelling (of_decide_eq_true spelled)]
  exact List.mem_singleton_self _

/-- Pieces that spell flags are dropped as the words that they are. -/
theorem dropFlags_words (flags : List Flag) (arguments : List String) :
    dropFlags flags (words arguments) = dropFlags flags ((without flags arguments).flatMap Piece.words) := by
  rw [words, without]
  induction pieces arguments with
  | nil => rfl
  | cons piece rest ih =>
    rw [List.flatMap_cons, dropFlags, List.filter_append, List.filter_cons]
    split
    · rw [List.flatMap_cons, dropFlags, List.filter_append]
      exact congrArg _ ih
    · next dropped =>
      simp only [decide_eq_true_eq, Classical.not_forall, Classical.not_not] at dropped
      obtain ⟨flag, member, spelled⟩ := dropped
      rw [words_of_spelling spelled, List.filter_cons_of_neg (by simpa using member), List.filter_nil, List.nil_append]
      exact ih

theorem bareWords_dropFlags (flags : List Flag) (words : List (Option Word)) :
    bareWords (dropFlags flags words) = bareWords words := by
  rw [bareWords, bareWords, dropFlags, List.filter_filter]
  refine List.filter_congr fun word _ => ?_
  cases flag : word.bind Word.flag? with
  | some _ => rfl
  | none =>
    refine (Bool.true_and _).trans (decide_eq_true fun given _ same => ?_)
    rw [same] at flag
    cases flag

theorem count_dropFlags {flags : List Flag} {flag : Flag} (kept : flag ∉ flags) (words : List (Option Word)) :
    (dropFlags flags words).count (some (.flag flag)) = words.count (some (.flag flag)) := by
  refine List.count_filter ?_
  rw [decide_eq_true_iff]
  rintro other member same
  cases same
  exact kept member

theorem firstQuery_bareWords (words : List (Option Word)) : firstQuery (bareWords words) = firstQuery words := by
  induction words with
  | nil => rfl
  | cons word rest ih =>
    cases word with
    | none => exact ih
    | some word =>
      cases word with
      | query query => rfl
      | plain | path | flag | setting => exact ih

/-! ### What has been read -/

namespace Draft

/-- What has been read but for the flags. -/
def bare (d : Draft) : Draft := { d with flags := [] }

theorem setPath_eq_some {d next : Draft} {path : String} (set : d.setPath path = some next) :
    next = { d with path := some path } := by
  obtain ⟨_, same⟩ := Option.ite_none_left_eq_some.mp set
  exact (Option.some.inj same).symm

theorem enter_flags {d next : Draft} {word : Word} (entered : d.enter word = some next) :
    next.flags = d.flags ++ flagsOf [some word] := by
  cases word with
  | plain text =>
    simp only [enter] at entered
    split at entered
    · obtain rfl := Option.some.inj entered
      exact (List.append_nil _).symm
    · obtain rfl := setPath_eq_some entered
      exact (List.append_nil _).symm
  | path text =>
    obtain rfl := setPath_eq_some entered
    exact (List.append_nil _).symm
  | flag flag =>
    obtain rfl := Option.some.inj entered
    rfl
  | query query =>
    obtain rfl := Option.some.inj entered
    exact (List.append_nil _).symm
  | setting setting value =>
    cases value <;> obtain rfl := Option.some.inj entered <;> exact (List.append_nil _).symm

/-- What has been read says something if nothing is missing and nothing was given too often. -/
theorem finish_eq_some {d : Draft} {a : Arguments} (finished : d.finish = some a) :
    ∃ path maxNullable freshPrefix terminalPrefix, d.path = some path ∧
      (d.flags.count .quiet ≤ 1 ∧ d.flags.count .dumpStages ≤ 1) ∧
      d.value? .maxNullable = some maxNullable ∧ d.value? .freshPrefix = some freshPrefix ∧
      d.value? .terminalPrefix = some terminalPrefix ∧
      a = ⟨some path, d.flags.count .verbose, d.flags.contains .quiet, d.flags.contains .dumpStages,
        maxNullable, freshPrefix, terminalPrefix⟩ := by
  obtain ⟨path, found, rest⟩ := Option.bind_eq_some_iff.mp finished
  obtain ⟨_, guarded, rest⟩ := Option.bind_eq_some_iff.mp rest
  obtain ⟨maxNullable, first, rest⟩ := Option.bind_eq_some_iff.mp rest
  obtain ⟨freshPrefix, second, rest⟩ := Option.bind_eq_some_iff.mp rest
  obtain ⟨terminalPrefix, third, rest⟩ := Option.bind_eq_some_iff.mp rest
  obtain ⟨single, _⟩ := Option.ite_none_right_eq_some.mp guarded
  exact ⟨path, maxNullable, freshPrefix, terminalPrefix, found, single, first, second, third, (Option.some.inj rest).symm⟩

/-- A setting has been named and is past getting a single value. -/
structure Spoiled (d : Draft) (setting : Setting) : Prop where
  named : 1 ≤ d.named.count setting
  excess : 2 ≤ d.named.count setting ∨ 2 ≤ (d.valuesOf setting).length ∨
    d.valuesOf setting = [] ∧ d.awaiting ≠ some setting

/-- Only a setting that was named has values, and one for which a value is awaited has been named too
often or has not exactly one. -/
structure Sound (d : Draft) : Prop where
  values : ∀ setting, d.named.count setting = 0 → d.valuesOf setting = []
  awaiting : ∀ setting, d.awaiting = some setting → 1 ≤ d.named.count setting ∧
    (2 ≤ d.named.count setting ∨ (d.valuesOf setting).length ≠ 1)

theorem Sound.empty : Sound {} where
  values _ _ := rfl
  awaiting _ waiting := by cases waiting

theorem valuesOf_addValue (d : Draft) (setting other : Setting) (value : String) :
    (d.addValue setting value).valuesOf other = d.valuesOf other ++ if setting = other then [value] else [] := by
  by_cases same : setting = other <;> simp [valuesOf, addValue, same]

theorem valuesOf_supply (d : Draft) (setting other : Setting) (value : String) :
    (d.supply setting value).valuesOf other = d.valuesOf other ++ if setting = other then [value] else [] :=
  valuesOf_addValue d setting other value

theorem awaiting_supply (d : Draft) (setting : Setting) (value : String) :
    (d.supply setting value).awaiting = if d.valuesOf setting = [] then none else some setting := by
  have one : ((d.addValue setting value).valuesOf setting).length = 1 ↔ d.valuesOf setting = [] := by
    rw [valuesOf_addValue, if_pos rfl, List.length_append, List.length_singleton, ← List.length_eq_zero_iff]
    omega
  simp only [supply, one]

theorem count_concat (named : List Setting) (setting other : Setting) :
    (named ++ [setting]).count other = named.count other + if setting = other then 1 else 0 := by
  by_cases same : setting = other <;> simp [same]

/-- What a word can do to the settings: nothing, but for ending a wait; supply the awaited value; name a
setting; or name it and give its value. -/
theorem enter_cases {d next : Draft} {word : Word} (entered : d.enter word = some next) :
    (next.named = d.named ∧ next.values = d.values ∧ (next.awaiting = none ∨ next.awaiting = d.awaiting)) ∨
    (∃ setting text, d.awaiting = some setting ∧ next = d.supply setting text) ∨
    (∃ setting, next = { d with named := d.named ++ [setting], awaiting := some setting }) ∨
    ∃ setting value, next = { d with named := d.named ++ [setting], awaiting := none }.addValue setting value := by
  cases word with
  | plain text =>
    cases waiting : d.awaiting with
    | some setting =>
      simp only [enter, waiting, Option.some.injEq] at entered
      exact .inr (.inl ⟨setting, text, rfl, entered.symm⟩)
    | none =>
      simp only [enter, waiting] at entered
      obtain rfl := setPath_eq_some entered
      exact .inl ⟨rfl, rfl, .inl waiting⟩
  | path text =>
    obtain rfl := setPath_eq_some entered
    exact .inl ⟨rfl, rfl, .inr rfl⟩
  | flag | query =>
    obtain rfl := Option.some.inj entered
    exact .inl ⟨rfl, rfl, .inl rfl⟩
  | setting setting value =>
    cases value with
    | none => exact .inr (.inr (.inl ⟨setting, (Option.some.inj entered).symm⟩))
    | some value => exact .inr (.inr (.inr ⟨setting, value, (Option.some.inj entered).symm⟩))

/-- No word makes up for a spoiled setting. -/
theorem Spoiled.enter {d next : Draft} {setting : Setting} (spoiled : d.Spoiled setting) {word : Word}
    (entered : d.enter word = some next) : next.Spoiled setting := by
  obtain ⟨named, excess⟩ := spoiled
  rcases enter_cases entered with ⟨sameNamed, sameValues, waiting⟩ | ⟨other, text, waiting, rfl⟩ | ⟨other, rfl⟩ |
    ⟨other, value, rfl⟩
  · have values : next.valuesOf setting = d.valuesOf setting := by rw [valuesOf, valuesOf, sameValues]
    rw [← sameNamed] at named excess
    refine ⟨named, excess.imp_right (.imp (values ▸ id) fun unmet => ⟨values ▸ unmet.1, fun again => ?_⟩)⟩
    rcases waiting with none | same
    · cases none.symm.trans again
    · exact unmet.2 (same ▸ again)
  · have values := valuesOf_supply d other setting text
    by_cases same : other = setting
    · subst same
      have several : 2 ≤ d.named.count other ∨ 2 ≤ (d.valuesOf other).length :=
        excess.imp_right fun rest => rest.resolve_right fun unmet => unmet.2 waiting
      refine ⟨named, several.imp_right fun many => .inl ?_⟩
      rw [values, List.length_append]
      omega
    · rw [if_neg same, List.append_nil] at values
      rw [← values] at excess
      refine ⟨named, excess.imp_right (.imp_right fun unmet => ⟨unmet.1, ?_⟩)⟩
      rw [awaiting_supply]
      split <;> simp [same]
  · have count := count_concat d.named other setting
    by_cases same : other = setting
    · rw [if_pos same] at count
      have again : 2 ≤ (d.named ++ [other]).count setting := by omega
      exact ⟨Nat.le_of_succ_le again, .inl again⟩
    · rw [if_neg same, Nat.add_zero] at count
      rw [← count] at named excess
      exact ⟨named, excess.imp_right (.imp_right fun unmet => ⟨unmet.1, fun waiting => same (Option.some.inj waiting)⟩)⟩
  · have count := count_concat d.named other setting
    have values := valuesOf_addValue { d with named := d.named ++ [other], awaiting := none } other setting value
    by_cases same : other = setting
    · rw [if_pos same] at count
      have again : 2 ≤ (d.named ++ [other]).count setting := by omega
      exact ⟨Nat.le_of_succ_le again, .inl again⟩
    · rw [if_neg same, Nat.add_zero] at count
      rw [if_neg same, List.append_nil] at values
      have old : d.valuesOf setting = _ := values.symm
      rw [← count, old] at excess
      rw [← count] at named
      exact ⟨named, excess.imp_right (.imp_right fun unmet => ⟨unmet.1, nofun⟩)⟩

theorem Spoiled.value?_eq_none {d : Draft} {setting : Setting} (spoiled : d.Spoiled setting) :
    d.value? setting = none := by
  obtain ⟨named, excess⟩ := spoiled
  unfold value?
  split
  · omega
  · rename_i once single
    simp [once, single] at excess
  · rfl

theorem Spoiled.finish_eq_none {d : Draft} {setting : Setting} (spoiled : d.Spoiled setting) : d.finish = none := by
  have none := spoiled.value?_eq_none
  cases finished : d.finish with
  | none => rfl
  | some a =>
    obtain ⟨_, _, _, _, _, _, maxNullable, freshPrefix, terminalPrefix, _⟩ := finish_eq_some finished
    cases setting with
    | maxNullable => cases none.symm.trans maxNullable
    | freshPrefix => cases none.symm.trans freshPrefix
    | terminalPrefix => cases none.symm.trans terminalPrefix

/-- A word that ends the wait for a value spoils the setting. -/
theorem Sound.spoiled {d next : Draft} (sound : d.Sound) {setting : Setting} (waiting : d.awaiting = some setting)
    (named : next.named = d.named) (values : next.values = d.values) (ended : next.awaiting = none) :
    next.Spoiled setting := by
  obtain ⟨once, excess⟩ := sound.awaiting setting waiting
  have sameValues : next.valuesOf setting = d.valuesOf setting := by rw [valuesOf, valuesOf, values]
  rw [← named] at once excess
  refine ⟨once, excess.imp_right fun notOne => ?_⟩
  rw [ended, sameValues]
  by_cases none : d.valuesOf setting = []
  · exact .inr ⟨none, nofun⟩
  · have positive := List.length_pos_iff.mpr none
    exact .inl (by omega)

theorem Sound.enter {d next : Draft} (sound : d.Sound) {word : Word} (entered : d.enter word = some next) :
    next.Sound := by
  obtain ⟨noValues, excess⟩ := sound
  rcases enter_cases entered with ⟨sameNamed, sameValues, ended⟩ | ⟨other, text, waiting, rfl⟩ | ⟨other, rfl⟩ |
    ⟨other, value, rfl⟩
  · have values (setting : Setting) : next.valuesOf setting = d.valuesOf setting := by rw [valuesOf, valuesOf, sameValues]
    refine ⟨fun setting => ?_, fun setting waiting => ?_⟩
    · rw [sameNamed, values]
      exact noValues setting
    · rw [sameNamed, values]
      rcases ended with none | same
      · cases none.symm.trans waiting
      · exact excess setting (same ▸ waiting)
  · obtain ⟨once, _⟩ := excess other waiting
    refine ⟨fun setting unnamed => ?_, fun setting again => ?_⟩
    · have different : other ≠ setting := by
        rintro rfl
        have never : d.named.count other = 0 := unnamed
        omega
      rw [valuesOf_supply, if_neg different, List.append_nil]
      exact noValues setting unnamed
    · rw [awaiting_supply] at again
      obtain ⟨some, same⟩ := Option.ite_none_left_eq_some.mp again
      obtain rfl : other = setting := Option.some.inj same
      refine ⟨once, .inr ?_⟩
      have positive := List.length_pos_iff.mpr some
      rw [valuesOf_supply, if_pos rfl, List.length_append, List.length_singleton]
      omega
  · have count := count_concat d.named other
    refine ⟨fun setting unnamed => ?_, fun setting again => ?_⟩
    · rw [count] at unnamed
      exact noValues setting (Nat.eq_zero_of_add_eq_zero_right unnamed)
    · obtain rfl : other = setting := Option.some.inj again
      rw [count, if_pos rfl]
      refine ⟨Nat.succ_pos _, ?_⟩
      by_cases first : d.named.count other = 0
      · refine .inr ?_
        have none : d.valuesOf other = [] := noValues other first
        have kept : ({ d with named := d.named ++ [other], awaiting := some other } : Draft).valuesOf other = [] := none
        rw [kept]
        decide
      · exact .inl (by omega)
  · have count := count_concat d.named other
    refine ⟨fun setting unnamed => ?_, fun setting again => by cases again⟩
    have split : d.named.count setting + (if other = setting then 1 else 0) = 0 := (count setting).symm.trans unnamed
    have different : other ≠ setting := by
      rintro rfl
      simp at split
    rw [valuesOf_addValue, if_neg different, List.append_nil]
    exact noValues setting (Nat.eq_zero_of_add_eq_zero_right split)

/-! ### Dropping the flags -/

theorem bare_finish {d : Draft} {a : Arguments} (finished : d.finish = some a) :
    d.bare.finish = some (a.but [.verbose, .quiet, .dumpStages]) := by
  obtain ⟨path, maxNullable, freshPrefix, terminalPrefix, found, _, first, second, third, rfl⟩ := finish_eq_some finished
  refine Option.bind_eq_some_iff.mpr ⟨path, found, ?_⟩
  refine Option.bind_eq_some_iff.mpr ⟨(), if_pos ⟨Nat.zero_le 1, Nat.zero_le 1⟩, ?_⟩
  refine Option.bind_eq_some_iff.mpr ⟨maxNullable, first, ?_⟩
  refine Option.bind_eq_some_iff.mpr ⟨freshPrefix, second, ?_⟩
  exact Option.bind_eq_some_iff.mpr ⟨terminalPrefix, third, rfl⟩

/-- A flag is read without a trace if no value is awaited. -/
theorem bare_of_flag {d next : Draft} {flag : Flag} (entered : d.enter (.flag flag) = some next) :
    next.named = d.named ∧ next.values = d.values ∧ next.awaiting = none ∧ (d.awaiting = none → next.bare = d.bare) := by
  obtain rfl := Option.some.inj entered
  refine ⟨rfl, rfl, rfl, fun unawaited => ?_⟩
  simp only [bare, unawaited]

theorem bare_setPath {d next : Draft} {path : String} (set : d.setPath path = some next) :
    d.bare.setPath path = some next.bare := by
  obtain ⟨first, same⟩ := Option.ite_none_left_eq_some.mp set
  obtain rfl := Option.some.inj same
  exact if_neg first

/-- Other words are read as if there had been no flags. -/
theorem bare_enter {d next : Draft} {word : Word} (noFlag : word.flag? = none) (entered : d.enter word = some next) :
    d.bare.enter word = some next.bare := by
  cases word with
  | plain text =>
    have same : d.bare.awaiting = d.awaiting := rfl
    simp only [enter, same] at entered ⊢
    cases waiting : d.awaiting with
    | some setting =>
      rw [waiting] at entered
      obtain rfl := Option.some.inj entered
      rfl
    | none =>
      rw [waiting] at entered
      exact bare_setPath entered
  | path text => exact bare_setPath entered
  | query query =>
    obtain rfl := Option.some.inj entered
    rfl
  | setting setting value =>
    cases value <;>
      · obtain rfl := Option.some.inj entered
        rfl
  | flag flag => cases noFlag

end Draft

namespace Request

def query? : Request → Option Query
  | answer query => some query
  | convert _ => none

/-- The flags of a conversion are those of the words. -/
theorem ofWords_flags {d : Draft} {words : List (Option Word)} {a : Arguments}
    (read : ofWords d words = some (.convert a)) :
    ∃ e : Draft, e.finish = some a ∧ e.flags = d.flags ++ flagsOf words := by
  fun_induction ofWords d words with
  | case1 d =>
    obtain ⟨b, finished, same⟩ := Option.map_eq_some_iff.mp read
    cases same
    exact ⟨d, finished, (List.append_nil _).symm⟩
  | case2 => cases read
  | case3 => cases read
  | case4 d word rest other ih =>
    obtain ⟨next, entered, read⟩ := Option.bind_eq_some_iff.mp read
    obtain ⟨e, finished, flags⟩ := ih next read
    refine ⟨e, finished, ?_⟩
    rw [flags, Draft.enter_flags entered, List.append_assoc, flagsOf, flagsOf, ← List.filterMap_append]
    rfl

theorem ofWords_spoiled {d : Draft} {setting : Setting} (spoiled : d.Spoiled setting) {words : List (Option Word)}
    {a : Arguments} : ofWords d words ≠ some (.convert a) := by
  intro read
  fun_induction ofWords d words with
  | case1 d => simp [spoiled.finish_eq_none] at read
  | case2 => cases read
  | case3 => cases read
  | case4 d word rest other ih =>
    obtain ⟨next, entered, read⟩ := Option.bind_eq_some_iff.mp read
    exact ih next (spoiled.enter entered) read

/-- Words that ask for a conversion ask for the same one without the flags. -/
theorem ofWords_bareWords {d : Draft} (sound : d.Sound) {words : List (Option Word)} {a : Arguments}
    (read : ofWords d words = some (.convert a)) :
    ofWords d.bare (bareWords words) = some (.convert (a.but [.verbose, .quiet, .dumpStages])) := by
  fun_induction ofWords d words with
  | case1 d =>
    obtain ⟨b, finished, same⟩ := Option.map_eq_some_iff.mp read
    cases same
    exact Option.map_eq_some_iff.mpr ⟨_, Draft.bare_finish finished, rfl⟩
  | case2 => cases read
  | case3 => cases read
  | case4 d word rest other ih =>
    obtain ⟨next, entered, later⟩ := Option.bind_eq_some_iff.mp read
    have behind := ih next (sound.enter entered) later
    cases isFlag : word.flag? with
    | some flag =>
      obtain rfl : word = .flag flag := by
        cases word with
        | flag given => exact congrArg Word.flag (Option.some.inj isFlag)
        | plain | path | query | setting => cases isFlag
      obtain ⟨named, values, ended, same⟩ := Draft.bare_of_flag entered
      have unawaited : d.awaiting = none := by
        cases waiting : d.awaiting with
        | none => rfl
        | some setting => exact absurd later (ofWords_spoiled (sound.spoiled waiting named values ended))
      rw [← same unawaited]
      exact behind
    | none =>
      have kept : bareWords (some word :: rest) = some word :: bareWords rest :=
        List.filter_cons_of_pos (by simp [isFlag])
      rw [kept, ofWords, Draft.bare_enter isFlag entered]
      · exact behind
      · exact other

/-- Of words that are accepted the first query decides. -/
theorem query?_eq {d : Draft} {words : List (Option Word)} {request : Request}
    (read : ofWords d words = some request) : request.query? = firstQuery words := by
  fun_induction ofWords d words with
  | case1 d =>
    obtain ⟨_, _, rfl⟩ := Option.map_eq_some_iff.mp read
    rfl
  | case2 => cases read
  | case3 =>
    obtain rfl := Option.some.inj read
    rfl
  | case4 d word rest other ih =>
    obtain ⟨next, _, read⟩ := Option.bind_eq_some_iff.mp read
    rw [ih next read]
    cases word with
    | query query => cases other query rfl
    | plain | path | flag | setting => rfl

end Request

/-! ### The reader keeps to the law -/

theorem count_flagsOf (flag : Flag) (words : List (Option Word)) :
    (flagsOf words).count flag = words.count (some (.flag flag)) := by
  induction words with
  | nil => rfl
  | cons word rest ih =>
    rw [flagsOf, List.filterMap_cons, List.count_cons, ← ih]
    cases word with
    | none => rfl
    | some word =>
      cases word with
      | flag given => simp [Word.flag?, flagsOf, List.count_cons]
      | plain | path | query | setting => rfl

/-- Arguments that say the same but for all flags, and agree on some, say the same but for the others. -/
theorem Arguments.but_eq {a b : Arguments} {flags : List Flag}
    (bare : a.but [.verbose, .quiet, .dumpStages] = b.but [.verbose, .quiet, .dumpStages])
    (verbosity : .verbose ∉ flags → a.verbosity = b.verbosity) (quiet : .quiet ∉ flags → a.quiet = b.quiet)
    (dumpStages : .dumpStages ∉ flags → a.dumpStages = b.dumpStages) : a.but flags = b.but flags := by
  obtain ⟨_, _, _, _, _, _, _⟩ := a
  obtain ⟨_, _, _, _, _, _, _⟩ := b
  have others := mk.inj bare
  rw [but, but, mk.injEq]
  exact ⟨others.1, ite_congr rfl (fun _ => rfl) verbosity, ite_congr rfl (fun _ => rfl) quiet,
    ite_congr rfl (fun _ => rfl) dumpStages, others.2.2.2.2⟩

namespace Texts

variable {texts : Texts} {arguments first second : List String} {a : Arguments}

theorem exists_request (accepted : (texts.parse arguments).accepted) : ∃ request,
    Request.ofWords {} (words arguments) = some request ∧ texts.parse arguments = texts.respond request := by
  unfold parse at accepted ⊢
  split at accepted
  · cases accepted
  · next request read => exact ⟨request, read, rfl⟩

theorem ofWords_of_found (asked : texts.parse arguments = .found a) :
    Request.ofWords {} (words arguments) = some (.convert a) := by
  obtain ⟨request, read, response⟩ := exists_request (by rw [asked]; rfl)
  rw [asked] at response
  cases request with
  | answer query => cases response
  | convert b =>
    cases response
    exact read

/-- The flags of a conversion are those of its words. -/
theorem flags_of_found (asked : texts.parse arguments = .found a) :
    a.verbosity = (words arguments).count (some (.flag .verbose)) ∧
      a.quiet = decide (0 < (words arguments).count (some (.flag .quiet))) ∧
      a.dumpStages = decide (0 < (words arguments).count (some (.flag .dumpStages))) := by
  obtain ⟨e, finished, flags⟩ := Request.ofWords_flags (ofWords_of_found asked)
  obtain ⟨_, _, _, _, _, _, _, _, _, rfl⟩ := Draft.finish_eq_some finished
  have given (flag : Flag) : e.flags.count flag = (words arguments).count (some (.flag flag)) := by
    rw [flags, List.nil_append, count_flagsOf]
  have present (flag : Flag) : e.flags.contains flag = decide (0 < (words arguments).count (some (.flag flag))) := by
    rw [Bool.eq_iff_iff, List.contains_iff_mem, decide_eq_true_iff, ← given, List.count_pos_iff]
  exact ⟨given .verbose, present .quiet, present .dumpStages⟩

theorem alike (flags : List Flag) (accepted : (texts.parse first).accepted) (accepts : (texts.parse second).accepted)
    (same : without flags first = without flags second) : Alike flags (texts.parse first) (texts.parse second) := by
  have left : dropFlags flags (words first) = dropFlags flags (words second) := by
    rw [dropFlags_words, same, ← dropFlags_words]
  have bare : bareWords (words first) = bareWords (words second) := by
    rw [← bareWords_dropFlags flags, left, bareWords_dropFlags]
  have counts (flag : Flag) (kept : flag ∉ flags) :
      (words first).count (some (.flag flag)) = (words second).count (some (.flag flag)) := by
    rw [← count_dropFlags kept, left, count_dropFlags kept]
  have queries : firstQuery (words first) = firstQuery (words second) := by
    rw [← firstQuery_bareWords, bare, firstQuery_bareWords]
  obtain ⟨request, read, response⟩ := exists_request accepted
  obtain ⟨other, reads, responds⟩ := exists_request accepts
  rw [← Request.query?_eq read, ← Request.query?_eq reads] at queries
  rw [response, responds]
  cases request with
  | answer query =>
    cases other with
    | answer query' =>
      obtain rfl := Option.some.inj queries
      exact .answered _
    | convert b => cases queries
  | convert a =>
    cases other with
    | answer query => cases queries
    | convert b =>
      have first := Request.ofWords_bareWords .empty read
      have second := Request.ofWords_bareWords .empty reads
      rw [bare] at first
      obtain ⟨verbosity, quiet, dumpStages⟩ := flags_of_found response
      obtain ⟨verbosity', quiet', dumpStages'⟩ := flags_of_found responds
      refine .found (Arguments.but_eq (Request.convert.inj (Option.some.inj (first.symm.trans second))) (fun kept => ?_)
        (fun kept => ?_) fun kept => ?_)
      · rw [verbosity, verbosity', counts .verbose kept]
      · rw [quiet, quiet', counts .quiet kept]
      · rw [dumpStages, dumpStages', counts .dumpStages kept]

end Texts

/-- Reading arguments word by word is as a run needs it. -/
theorem standard_lawful : Libraries.standard.Lawful where
  verbosity arguments a asked := by
    rw [(Texts.flags_of_found asked).1, count_words (by decide)]
  quiet arguments a asked := by
    rw [(Texts.flags_of_found asked).2.1, count_words (by decide)]
  dumpStages arguments a asked given := by
    rw [(Texts.flags_of_found asked).2.2, decide_eq_true_iff, List.count_pos_iff]
    exact mem_words_of_count given
  alike flags _ _ := Texts.alike flags

end ContextFree.CommandLine
