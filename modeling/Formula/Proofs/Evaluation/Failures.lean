import Formula.Proofs.Evaluation.Reduced
import Formula.Proofs.Parser.Refusals

/-! Where the error of an evaluation comes from. Main statement: over numbers and over values of any
kind, an evaluation that fails tells of a part of the tree that could not be read, ends with an
error that the host raised, or tells of a symbol of the tree. -/
namespace Formula

variable {σ ν α β : Type} {error other : Error} {symbol : Symbol}

/-! ### Errors that actions raise -/

namespace Action

/-- In some state the action ends with the error. -/
def Raises (action : Action σ α) (error : Error) : Prop := ∃ s, (action.run s).1 = .error error

theorem not_raises_pure {value : α} : ¬Raises (pure value : Action σ α) error := by
  rintro ⟨s, ⟨⟩⟩

theorem eq_of_raises_throw (h : Raises (throw other : Action σ α) error) : error = other := by
  obtain ⟨s, hs⟩ := h
  exact (Except.error.inj hs).symm

theorem raises_bind {x : Action σ α} {f : α → Action σ β} (h : Raises (x >>= f) error) :
    Raises x error ∨ ∃ value, Raises (f value) error := by
  obtain ⟨s, hs⟩ := h
  rcases hrun : x.run s with ⟨failure | value, s'⟩
  · rw [run_bind_error hrun] at hs
    obtain rfl := Except.error.inj hs
    exact .inl ⟨s, congrArg Prod.fst hrun⟩
  · rw [run_bind_ok hrun] at hs
    exact .inr ⟨value, s', hs⟩

theorem raises_of_onHost {action : Action σ α} (h : Raises (Memory.onHost action) error) :
    Raises action error := by
  obtain ⟨m, hm⟩ := h
  exact ⟨m.host, hm⟩

theorem raises_of_onBase {action : Action (Memory σ) α}
    (h : Raises (Mixed.Memory.onBase action) error) : Raises action error := by
  obtain ⟨m, hm⟩ := h
  exact ⟨m.toMemory, hm⟩

end Action

open Formula.Action

/-! ### Errors of trees -/

namespace Tree

mutual

/-- Why parts of the tree could not be read. -/
def faults : Tree ν → List Error
  | literal _ => []
  | apply _ args => faultsIn args
  | malformed error _ => [error]

def faultsIn : List (Tree ν) → List Error
  | [] => []
  | arg :: args => faults arg ++ faultsIn args

end

mutual

@[simp] theorem faults_map {μ : Type} (f : ν → μ) (t : Tree ν) : (t.map f).faults = t.faults := by
  cases t with
  | literal => rfl
  | apply symbol args => exact faultsIn_mapAll f args
  | malformed => rfl

@[simp] theorem faultsIn_mapAll {μ : Type} (f : ν → μ) (ts : List (Tree ν)) :
    faultsIn (mapAll f ts) = faultsIn ts := by
  cases ts with
  | nil => rfl
  | cons t ts => simp only [mapAll, faultsIn, faults_map f t, faultsIn_mapAll f ts]

end

mutual

/-- Folding makes no part unreadable. -/
theorem faults_fold (m : Meaning σ ν) (t : Tree ν) (s : σ) :
    (t.fold m s).1.faults.Sublist t.faults := by
  cases t with
  | literal value => exact .refl _
  | malformed error source => exact .refl _
  | apply symbol args =>
    rw [fold_apply]
    rcases foldCall_own m [] symbol args (foldAll m args s).1 (foldAll m args s).2 with
      ⟨v, x, -, -, hfold⟩ | ⟨-, hfold⟩ <;> rw [hfold]
    · exact List.nil_sublist _
    · exact faultsIn_foldAll m args s

theorem faultsIn_foldAll (m : Meaning σ ν) (ts : List (Tree ν)) (s : σ) :
    (faultsIn (foldAll m ts s).1).Sublist (faultsIn ts) := by
  cases ts with
  | nil => exact .refl _
  | cons t ts =>
    rw [foldAll_cons]
    exact (faults_fold m t s).append (faultsIn_foldAll m ts _)

end

theorem WellFormed.faults {t : Tree Float} (h : t.WellFormed) : t.faults = [] := by
  induction h with
  | literal => rfl
  | apply _ _ _ ih =>
    rename_i args _ _ _
    rw [Tree.faults]
    clear * - ih
    induction args with
    | nil => rfl
    | cons arg args iharg =>
      rw [List.forall_mem_cons] at ih
      rw [faultsIn, ih.1, iharg ih.2, List.append_nil]

mutual

/-- An evaluation fails at a part that could not be read or in the call of a symbol. -/
theorem raises_evaluate {m : Meaning σ ν} (t : Tree ν) (h : Raises (t.evaluate m) error) :
    error ∈ t.faults ∨ ∃ symbol ∈ t.occurrences, ∃ args, Raises (m.call symbol args) error := by
  cases t with
  | literal value => exact absurd h not_raises_pure
  | malformed other source =>
    rw [eq_of_raises_throw h]
    exact .inl List.mem_cons_self
  | apply symbol args =>
    rw [evaluate] at h
    obtain h | ⟨values, h⟩ := raises_bind h
    · obtain hfault | ⟨inner, hinner, hcall⟩ := raises_evaluateAll args h
      · exact .inl hfault
      · exact .inr ⟨inner, List.mem_cons_of_mem symbol hinner, hcall⟩
    · exact .inr ⟨symbol, List.mem_cons_self, values, h⟩

theorem raises_evaluateAll {m : Meaning σ ν} (ts : List (Tree ν))
    (h : Raises (evaluateAll m ts) error) :
    error ∈ faultsIn ts ∨
      ∃ symbol ∈ occurrencesIn ts, ∃ args, Raises (m.call symbol args) error := by
  cases ts with
  | nil => exact absurd h not_raises_pure
  | cons t ts =>
    rw [evaluateAll] at h
    rw [faultsIn, occurrencesIn, List.mem_append]
    obtain h | ⟨value, h⟩ := raises_bind h
    · obtain hfault | ⟨symbol, hsymbol, hcall⟩ := raises_evaluate t h
      · exact .inl (.inl hfault)
      · exact .inr ⟨symbol, List.mem_append_left _ hsymbol, hcall⟩
    · obtain h | ⟨values, h⟩ := raises_bind h
      · obtain hfault | ⟨symbol, hsymbol, hcall⟩ := raises_evaluateAll ts h
        · exact .inl (.inr hfault)
        · exact .inr ⟨symbol, List.mem_append_right _ hsymbol, hcall⟩
      · exact absurd h not_raises_pure

end

end Tree

/-! ### Errors of calls -/

/-- The error is about the symbol, or about a function of its name with another number of
arguments. -/
inductive Error.Concerns (symbol : Symbol) : Error → Prop
  | undefined : Concerns symbol (.undefinedSymbol symbol)
  | arity {other : Symbol} (h : other.name = symbol.name) : Concerns symbol (.arityMismatch other)
  | bounds (index : Float) : Concerns symbol (.arrayBounds index symbol)
  | mismatch (types : List String) : Concerns symbol (.typeMismatch symbol types)

theorem Error.Concerns.token? (h : error.Concerns symbol) : error.token? = some symbol.name := by
  cases h with
  | arity h => exact congrArg some h
  | _ => rfl

theorem concerns_unbound (symbol : Symbol) (arities : List Nat) :
    (Error.unbound symbol arities).Concerns symbol := by
  unfold Error.unbound
  split
  · split
    · exact .arity rfl
    · exact .undefined
  · exact .undefined

/-- What is reported if nothing answers for the symbol. -/
def Binding.missing? : Binding σ → Option Error
  | evaluator _ _ missing => some missing
  | unbound error => some error
  | _ => none

namespace Bindings

variable {b : Bindings σ}

/-- A function of the host ends with the error, or its evaluator does. -/
inductive Raises (b : Bindings σ) (error : Error) : Prop
  | function {symbol f args} (bound : (symbol, f) ∈ b.symbols) (h : Action.Raises (f args) error)
  | evaluator {ask symbol args} (bound : b.evaluator = some ask)
    (h : Action.Raises (ask symbol args) error)

theorem concerns_element {values args : List Float} (h : element symbol values args = .error error) :
    error.Concerns symbol := by
  unfold element at h
  dsimp only at h
  split at h
  · cases h
  · rw [← Except.error.inj h]
    exact .bounds _

theorem raises_callEvaluator {settles : Bool} {ask : List Float → Action σ (Option Float)}
    {fallback : Option Library.Function} {missing : Error} {args : List Float}
    (h : Action.Raises (callEvaluator settles symbol ask fallback missing args) error) :
    Action.Raises (ask args) error ∨ error = missing := by
  unfold callEvaluator at h
  cases fallback with
  | none =>
    obtain h | ⟨answer, h⟩ := raises_bind h
    · exact .inl (raises_of_onHost h)
    · cases answer with
      | none => exact .inr (eq_of_raises_throw h)
      | some value => exact absurd h not_raises_pure
  | some f =>
    obtain ⟨s, ⟨⟩⟩ | ⟨settled, h⟩ := raises_bind h
    cases settled with
    | true => exact absurd h not_raises_pure
    | false =>
      obtain h | ⟨answer, h⟩ := raises_bind h
      · exact .inl (raises_of_onHost h)
      · cases answer with
        | none => cases settles <;> exact absurd h (by rintro ⟨s, ⟨⟩⟩)
        | some value => exact absurd h not_raises_pure

/-- A symbol that no function is found for is reported as missing. -/
theorem eq_missing (h : (b.resolve symbol).missing? = some other) : other = b.missing symbol := by
  unfold resolve at h
  split at h
  · rename_i data hdata
    unfold data? at hdata
    split at hdata
    · obtain ⟨value, -, rfl⟩ := Option.map_eq_some_iff.1 hdata
      cases h
    · obtain ⟨values, -, rfl⟩ := Option.map_eq_some_iff.1 hdata
      cases h
    · cases hdata
  · split at h
    · cases h
    · dsimp only at h
      split at h
      · exact (Option.some.inj h).symm
      · split at h
        · cases h
        · exact (Option.some.inj h).symm

/-- The error of a call is raised by the host or about the symbol. -/
theorem raises_call {args : List Float} (h : Action.Raises (b.call symbol args) error) :
    b.Raises error ∨ error.Concerns symbol := by
  unfold call at h
  have horigin := b.origin symbol
  cases hres : b.resolve symbol <;> rw [hres] at h horigin <;> dsimp only at h
  case constant value => exact absurd h not_raises_pure
  case array values =>
    cases helement : element symbol values args with
    | ok value =>
      rw [helement] at h
      exact absurd h not_raises_pure
    | error failure =>
      rw [helement] at h
      rw [eq_of_raises_throw h]
      exact .inr (concerns_element helement)
  case host f =>
    cases horigin with
    | host bound => exact .inl (.function bound (raises_of_onHost h))
  case evaluator ask fallback missing =>
    cases horigin with
    | evaluator bound =>
      obtain hraised | rfl := raises_callEvaluator h
      · exact .inl (.evaluator bound hraised)
      · rw [eq_missing (congrArg Binding.missing? hres)]
        exact .inr (concerns_unbound symbol _)
  case library f => exact absurd h not_raises_pure
  case unbound failure =>
    rw [eq_of_raises_throw h, eq_missing (congrArg Binding.missing? hres)]
    exact .inr (concerns_unbound symbol _)

/-- Some evaluation of the tree under the bindings ends with the error. -/
def Fails (b : Bindings σ) (tree : Tree Float) (error : Error) : Prop :=
  ∃ start, Action.Raises (Expression.build b tree start).1.evaluate error

/-- A formula over numbers fails at a part that could not be read, in its host or at a symbol. -/
theorem Fails.origin {tree : Tree Float} (h : b.Fails tree error) :
    error ∈ tree.faults ∨ b.Raises error ∨ ∃ symbol ∈ tree.occurrences, error.Concerns symbol := by
  obtain ⟨start, h⟩ := h
  have hsub : (Expression.build b tree start).1.tree.faults ⊆ tree.faults ∧
      (Expression.build b tree start).1.tree.occurrences ⊆ tree.occurrences := by
    rw [build_eq]
    dsimp only
    split
    · exact ⟨(Tree.faults_fold _ tree start).subset, (Tree.occurrences_fold _ tree start).subset⟩
    · exact ⟨List.Subset.refl _, List.Subset.refl _⟩
  have hbindings : (Expression.build b tree start).1.bindings = b := by rw [build_eq]
  unfold Expression.evaluate at h
  rw [hbindings] at h
  obtain hfault | ⟨symbol, hsymbol, args, hcall⟩ := Tree.raises_evaluate _ h
  · exact .inl (hsub.1 hfault)
  · exact .inr ((raises_call hcall).imp_right fun hconcerns => ⟨symbol, hsub.2 hsymbol, hconcerns⟩)

end Bindings

/-! ### Errors over values of any kind -/

namespace Value.Library

/-- The function fails only with the types of the values that it was given. -/
def Complains (f : Function) : Prop :=
  ∀ symbol words values error, f symbol words values = .error error →
    error = .mismatch symbol values

theorem bind_eq_error {x : Except Error α} {f : α → Except Error β} (h : (x >>= f) = .error error) :
    x = .error error ∨ ∃ a, x = .ok a ∧ f a = .error error := by
  cases x with
  | error failure =>
    obtain rfl := Except.error.inj h
    exact .inl rfl
  | ok a => exact .inr ⟨a, rfl, h⟩

theorem truthy_eq_error {values : List Value} {value : Value}
    (h : truthy symbol values value = .error error) : error = .mismatch symbol values := by
  unfold truthy at h
  split at h
  · cases h
  · cases h
  · cases h
  · exact (Except.error.inj h).symm

theorem complains_always (value : Value) : Complains (always value) := nofun

theorem complains_join : Complains join := by
  intro symbol words values error h
  unfold join at h
  split at h
  · split at h <;> cases h
  · cases h

theorem complains_equal (wanted : Bool) : Complains (equal wanted) := by
  intro symbol words values error h
  unfold equal at h
  split at h <;> cases h

theorem complains_coalesce : Complains coalesce := by
  intro symbol words values error h
  unfold coalesce at h
  split at h <;> cases h

theorem complains_compare (accepts : Ordering → Bool) : Complains (compare accepts) := by
  intro symbol words values error h
  unfold compare at h
  split at h
  · cases h
  · cases h
  · exact (Except.error.inj h).symm

theorem complains_logical (f : Bool → Bool → Bool) : Complains (logical f) := by
  intro symbol words values error h
  unfold logical at h
  split at h
  · obtain h | ⟨l, -, h⟩ := bind_eq_error h
    · exact truthy_eq_error h
    · obtain h | ⟨r, -, ⟨⟩⟩ := bind_eq_error h
      exact truthy_eq_error h
  · cases h

theorem complains_negate : Complains negate := by
  intro symbol words values error h
  unfold negate at h
  split at h
  · obtain h | ⟨t, -, ⟨⟩⟩ := bind_eq_error h
    exact truthy_eq_error h
  · cases h

theorem complains_choose : Complains choose := by
  intro symbol words values error h
  unfold choose at h
  split at h
  · obtain h | ⟨t, -, ⟨⟩⟩ := bind_eq_error h
    exact truthy_eq_error h
  · obtain h | ⟨t, -, ⟨⟩⟩ := bind_eq_error h
    exact truthy_eq_error h
  · cases h

theorem complains_general : ∀ entry ∈ general, Complains entry.2 := by
  simp only [general, List.forall_mem_cons]
  exact ⟨complains_always _, complains_join, complains_equal _, complains_equal _,
    complains_coalesce, List.forall_mem_nil _⟩

theorem complains_logic : ∀ entry ∈ logic, Complains entry.2 := by
  simp only [logic, List.forall_mem_cons]
  exact ⟨complains_always _, complains_always _, complains_logical _, complains_logical _,
    complains_negate, complains_compare _, complains_compare _, complains_compare _,
    complains_compare _, complains_choose, List.forall_mem_nil _⟩

theorem complains_of_lookup {options : Options} {f : Function}
    (h : lookup? options symbol = some f) : Complains f := by
  have hmem := mem_of_lookup h
  split at hmem
  · exact (List.mem_append.1 hmem).elim (complains_general _) (complains_logic _)
  · exact complains_general _ hmem

end Value.Library

namespace Mixed.Bindings

open Formula.Mixed (Handler)

variable {b : Bindings σ}

/-- A function of the host ends with the error, or its evaluator does. -/
inductive Raises (b : Bindings σ) (error : Error) : Prop
  | numeric {symbol f args} (bound : (symbol, f) ∈ b.numericSymbols)
    (h : Action.Raises (f args) error)
  | function {symbol f args} (bound : (symbol, f) ∈ b.symbols) (h : Action.Raises (f args) error)
  | evaluator {ask symbol args} (bound : b.evaluator = some ask)
    (h : Action.Raises (ask symbol args) error)

theorem concerns_element {value : Value} {args : List Value}
    (h : element symbol value args = .error error) : error.Concerns symbol := by
  unfold element at h
  split at h
  · split at h
    · rw [← Except.error.inj h]
      exact .bounds _
    · dsimp only at h
      split at h
      · cases h
      · rw [← Except.error.inj h]
        exact .bounds _
      · rw [← Except.error.inj h]
        exact .mismatch _
  · rw [← Except.error.inj h]
    exact .mismatch _

theorem raises_liftExcept {result : Except Error α}
    (h : Action.Raises (Handler.liftExcept result : Action σ α) error) :
    result = .error error := by
  cases result with
  | ok value => exact absurd h not_raises_pure
  | error failure => rw [eq_of_raises_throw h]

/-- The error of a handler is raised by the host or about the symbol. -/
theorem raises_handler {handler : Handler σ} (hmem : handler ∈ b.handlers symbol)
    {words : List Word} {values : List Value}
    (h : Action.Raises (handler.call symbol words values) error) :
    b.Raises error ∨ error.Concerns symbol := by
  unfold handlers at hmem
  split at hmem
  · obtain rfl := List.mem_singleton.1 hmem
    have helement := raises_liftExcept h
    cases hvalue : element symbol _ values with
    | ok value =>
      rw [hvalue] at helement
      cases helement
    | error failure =>
      rw [hvalue] at helement
      rw [← Except.error.inj helement]
      exact .inr (concerns_element hvalue)
  · simp only [List.mem_append, Option.mem_toList, Option.map_eq_some_iff, or_assoc] at hmem
    obtain ⟨f, hf, rfl⟩ | ⟨f, hf, rfl⟩ | ⟨ask, hask, rfl⟩ | ⟨f, hf, rfl⟩ | ⟨f, hf, rfl⟩ := hmem
    · rw [Handler.call] at h
      split at h
      · obtain h | ⟨value, h⟩ := raises_bind h
        · exact .inl (.numeric (mem_of_lookup hf) h)
        · exact absurd h not_raises_pure
      · exact absurd h not_raises_pure
    · obtain h | ⟨value, h⟩ := raises_bind h
      · exact .inl (.function (mem_of_lookup hf) h)
      · exact absurd h not_raises_pure
    · exact .inl (.evaluator hask h)
    · have hcomplaint := Value.Library.complains_of_lookup hf _ _ _ _ (raises_liftExcept h)
      exact .inr (hcomplaint ▸ .mismatch _)
    · rw [Handler.call] at h
      split at h
      · exact absurd h not_raises_pure
      · rw [eq_of_raises_throw h]
        exact .inr (.mismatch _)

theorem raises_answer {words : List Word} {values : List Value} {declined : Bool}
    {handlers : List (Handler σ)}
    (h : Action.Raises (b.answer symbol words values declined handlers) error) :
    ∃ handler ∈ handlers, Action.Raises (handler.call symbol words values) error := by
  induction handlers generalizing declined with
  | nil => exact absurd h not_raises_pure
  | cons handler handlers ih =>
    rw [List.exists_mem_cons_iff]
    rw [answer] at h
    -- the evaluator is passed over, answers or fails, and whoever declines leaves it to the others
    have hothers (declined : Bool)
        (h : Action.Raises (b.answer symbol words values declined handlers) error) :
        Action.Raises (handler.call symbol words values) error ∨
          ∃ handler ∈ handlers, Action.Raises (handler.call symbol words values) error :=
      .inr (ih h)
    obtain ⟨s, ⟨⟩⟩ | ⟨settled, h⟩ := raises_bind h
    split at h
    · exact hothers _ h
    · obtain h | ⟨answer, h⟩ := raises_bind h
      · exact .inl (raises_of_onHost (raises_of_onBase h))
      · cases answer with
        | none => exact hothers _ h
        | some value =>
          dsimp only at h
          split at h <;> exact absurd h (by rintro ⟨s, ⟨⟩⟩)

/-- The error of a call is raised by the host or about the symbol. -/
theorem raises_dispatch {words : List Word} (h : Action.Raises (b.dispatch symbol words) error) :
    b.Raises error ∨ error.Concerns symbol := by
  unfold dispatch at h
  obtain ⟨s, ⟨⟩⟩ | ⟨memory, h⟩ := raises_bind h
  obtain h | ⟨answer, h⟩ := raises_bind h
  · obtain ⟨handler, hmem, hraised⟩ := raises_answer h
    exact raises_handler hmem hraised
  · cases answer with
    | some value => exact absurd h (by rintro ⟨s, ⟨⟩⟩)
    | none =>
      rw [eq_of_raises_throw h]
      split
      · exact .inr (.mismatch _)
      · exact .inr (concerns_unbound symbol _)

/-- A symbol that stands for a value raises nothing. -/
theorem raises_call {words : Words} {args : List Word}
    (h : Action.Raises ((b.meaning words).call symbol args) error) :
    b.Raises error ∨ error.Concerns symbol := by
  unfold meaning at h
  dsimp only at h
  split at h
  · exact absurd h not_raises_pure
  · exact raises_dispatch h

end Mixed.Bindings

namespace Mixed.Expression

open Formula.Mixed (Bindings Memory)

theorem folded_subset (b : Bindings σ) (words : Bindings.Words) (tree : Tree Word) (m : Memory σ) :
    (folded b words tree m).1.faults ⊆ tree.faults ∧
      (folded b words tree m).1.occurrences ⊆ tree.occurrences := by
  unfold folded
  split
  · exact ⟨(Tree.faults_fold _ tree m).subset, (Tree.occurrences_fold _ tree m).subset⟩
  · exact ⟨List.Subset.refl _, List.Subset.refl _⟩

/-- Dropping what is left in the table raises nothing. -/
theorem raises_of_evaluate {e : Mixed.Expression σ} (h : Action.Raises e.evaluate error) :
    Action.Raises (e.tree.evaluate (e.bindings.meaning e.words)) error := by
  obtain ⟨memory, h⟩ := h
  refine ⟨memory, ?_⟩
  change ((e.tree.evaluate (e.bindings.meaning e.words)).run memory).1.map _ = _ at h
  cases hresult : ((e.tree.evaluate (e.bindings.meaning e.words)).run memory).1 with
  | ok word =>
    rw [hresult] at h
    cases h
  | error failure =>
    rw [hresult] at h
    rw [Except.error.inj h]

end Mixed.Expression

namespace Mixed.Bindings

variable {b : Bindings σ}

/-- Some evaluation of the tree under the bindings ends with the error. -/
def Fails (b : Bindings σ) (tree : Tree Float) (error : Error) : Prop :=
  ∃ start, Action.Raises (Expression.build b tree start).1.evaluate error

/-- A formula over values fails at a part that could not be read, in its host or at a symbol. -/
theorem Fails.origin {tree : Tree Float} (h : b.Fails tree error) :
    error ∈ tree.faults ∨ b.Raises error ∨ ∃ symbol ∈ tree.occurrences, error.Concerns symbol := by
  obtain ⟨start, h⟩ := h
  rw [Expression.build_eq] at h
  have hsub := Expression.folded_subset b (b.boxConstants tree.symbols start).1
    (tree.map Word.ofNumber) (b.boxConstants tree.symbols start).2
  rw [Tree.faults_map, Tree.occurrences_map] at hsub
  obtain hfault | ⟨symbol, hsymbol, args, hcall⟩ :=
    Tree.raises_evaluate _ (Expression.raises_of_evaluate h)
  · exact .inl (hsub.1 hfault)
  · exact .inr ((raises_call hcall).imp_right fun hconcerns => ⟨symbol, hsub.2 hsymbol, hconcerns⟩)

end Mixed.Bindings

end Formula
