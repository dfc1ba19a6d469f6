import Formula.Proofs.Evaluation.Boxing
import Formula.Proofs.Evaluation.Optimize

/-! Calls of functions that nothing is bound to. Main statement: over numbers and over values of
any kind, such a call reports the closest number of arguments that a function of its name takes,
whatever order the tables list them in, and an undefined symbol if there is none. -/
namespace Formula

variable {σ : Type}

/-- A number of arguments that is bound, with none closer to the given one, and of two that are as
close the smaller. -/
structure Nearest (bound : Nat → Prop) (arity known : Nat) : Prop where
  mem : bound known
  closest : ∀ other, bound other → arityDistance known arity ≤ arityDistance other arity
  smaller : ∀ other, bound other → arityDistance other arity = arityDistance known arity →
    known ≤ other

/-- What a call of a function reports when some numbers of arguments are bound for its name, in
whatever order they are listed. -/
structure Misses (bound : Nat → Prop) (name : String) (arity : Nat) (error : Error) : Prop where
  mismatch : (∃ known, error = .arityMismatch (.function name known)) ↔ ∃ known, bound known
  nearest : ∀ known, error = .arityMismatch (.function name known) → Nearest bound arity known
  undefined : (¬ ∃ known, bound known) → error = .undefinedSymbol (.function name arity)
  unordered : ∀ arities, (∀ known, known ∈ arities ↔ bound known) →
    error = .unbound (.function name arity) arities

theorem Nearest.unique {bound : Nat → Prop} {arity known other : Nat}
    (h : Nearest bound arity known) (h' : Nearest bound arity other) : known = other := by
  have hclosest := h.closest other h'.mem
  have hclosest' := h'.closest known h.mem
  have hsmaller := h.smaller other h'.mem
  have hsmaller' := h'.smaller known h.mem
  omega

theorem nearest_of_nearestArity? {arity known : Nat} {arities : List Nat}
    (h : nearestArity? arity arities = some known) : Nearest (· ∈ arities) arity known where
  mem := nearestArity?_mem h
  closest other hother := by
    rcases nearestArity?_le h hother with hlt | ⟨heq, -⟩
    · exact hlt.le
    · exact heq.le
  smaller other hother hsame := by
    rcases nearestArity?_le h hother with hlt | ⟨-, hle⟩
    · omega
    · exact hle

/-- The closest number of arguments does not depend on the order of the numbers. -/
theorem nearestArity?_congr {arity : Nat} {arities others : List Nat}
    (h : ∀ known, known ∈ arities ↔ known ∈ others) :
    nearestArity? arity arities = nearestArity? arity others := by
  have hsame : (· ∈ arities) = (· ∈ others) := funext fun known => propext (h known)
  cases hleft : nearestArity? arity arities with
  | none =>
    rw [nearestArity?_eq_none] at hleft
    refine (nearestArity?_eq_none.2 (List.eq_nil_iff_forall_not_mem.2 fun known hknown => ?_)).symm
    rw [← h known, hleft] at hknown
    cases hknown
  | some known =>
    have hnearest := nearest_of_nearestArity? hleft
    rw [hsame] at hnearest
    cases hright : nearestArity? arity others with
    | none =>
      have hmem := hnearest.mem
      rw [nearestArity?_eq_none.1 hright] at hmem
      cases hmem
    | some other => rw [hnearest.unique (nearest_of_nearestArity? hright)]

theorem misses_unbound (name : String) (arity : Nat) (arities : List Nat) :
    Misses (· ∈ arities) name arity (.unbound (.function name arity) arities) := by
  have hunordered : ∀ others, (∀ known, known ∈ others ↔ known ∈ arities) →
      Error.unbound (.function name arity) arities = .unbound (.function name arity) others := by
    intro others hothers
    unfold Error.unbound
    dsimp only
    rw [nearestArity?_congr hothers]
  cases hknown : nearestArity? arity arities with
  | none =>
    have hnone : Error.unbound (.function name arity) arities =
        .undefinedSymbol (.function name arity) := by
      unfold Error.unbound
      dsimp only
      rw [hknown]
    obtain rfl := nearestArity?_eq_none.1 hknown
    exact ⟨by simp [hnone], fun known h => by simp [hnone] at h, fun _ => hnone, hunordered⟩
  | some known =>
    have hsome : Error.unbound (.function name arity) arities =
        .arityMismatch (.function name known) := by
      unfold Error.unbound
      dsimp only
      rw [hknown]
    have hnearest := nearest_of_nearestArity? hknown
    refine ⟨⟨fun _ => ⟨known, hnearest.mem⟩, fun _ => ⟨known, hsome⟩⟩, fun other h => ?_,
      fun h => absurd ⟨known, hnearest.mem⟩ h, hunordered⟩
    rw [hsome] at h
    cases h
    exact hnearest

theorem mem_aritiesOf {name : String} {symbols : List Symbol} {arity : Nat} :
    arity ∈ aritiesOf name symbols ↔ .function name arity ∈ symbols := by
  rw [aritiesOf, List.mem_filterMap]
  constructor
  · rintro ⟨symbol, hsymbol, h⟩
    cases symbol with
    | function other k =>
      simp only [Option.ite_none_right_eq_some, Option.some.injEq] at h
      obtain ⟨rfl, rfl⟩ := h
      exact hsymbol
    | _ => cases h
  · exact fun h => ⟨_, h, if_pos rfl⟩

theorem isSome_lookup {α : Type} {entries : List (Symbol × α)} {symbol : Symbol} :
    (entries.lookup symbol).isSome ↔ symbol ∈ entries.map Prod.fst := by
  rw [Option.isSome_iff_ne_none, ne_eq, List.lookup_eq_none_iff]
  simp

namespace Bindings

/-- The host or the library has a function for the symbol. -/
def Binds (b : Bindings σ) (symbol : Symbol) : Prop :=
  (b.symbols.lookup symbol).isSome ∨ (Library.lookup? b.options symbol).isSome

variable {b : Bindings σ} {name : String} {arity : Nat}

theorem misses_missing (b : Bindings σ) (name : String) (arity : Nat) :
    Misses (fun known => b.Binds (.function name known)) name arity
      (b.missing (.function name arity)) := by
  have hbinds : (fun known => b.Binds (.function name known)) =
      (· ∈ aritiesOf name (b.symbols.map Prod.fst ++ (Library.entries b.options).map Prod.fst)) := by
    funext known
    rw [Binds, Library.lookup?, isSome_lookup, isSome_lookup, mem_aritiesOf, List.mem_append]
  rw [hbinds]
  exact misses_unbound name arity _

/-- A function that nothing is bound to is left to the evaluator, if there is one. -/
theorem resolve_of_not_binds (h : ¬ b.Binds (.function name arity)) :
    b.resolve (.function name arity) = match b.evaluator with
      | some ask =>
        .evaluator (ask (.function name arity)) none (b.missing (.function name arity))
      | none => .unbound (b.missing (.function name arity)) := by
  rw [Binds, not_or, Option.not_isSome_iff_eq_none, Option.not_isSome_iff_eq_none] at h
  unfold resolve data?
  cases b.evaluator with
  | none =>
    dsimp only
    rw [h.1, h.2]
  | some ask =>
    dsimp only
    rw [h.1, h.2]

theorem run_call_unbound (h : ¬ b.Binds (.function name arity)) {args : List Float} {m : Memory σ}
    (hdeclines : ∀ ask, b.evaluator = some ask →
      ((ask (.function name arity) args).run m.host).1 = .ok none) :
    ((b.call (.function name arity) args).run m).1 = .error (b.missing (.function name arity)) := by
  unfold call
  rw [resolve_of_not_binds h]
  cases hask : b.evaluator with
  | none => rfl
  | some ask =>
    dsimp only
    rw [run_callEvaluator_none, hdeclines ask hask]

end Bindings

namespace Mixed.Bindings

open Formula.Mixed (Handler)

/-- The host, in either of its tables, or the library has a function for the symbol. -/
def Binds (b : Bindings σ) (symbol : Symbol) : Prop :=
  (b.numericSymbols.lookup symbol).isSome ∨ (b.symbols.lookup symbol).isSome ∨
    (Value.Library.lookup? b.options symbol).isSome ∨ (Library.lookup? {} symbol).isSome

variable {b : Bindings σ} {name : String} {arity : Nat}

/-- The operators on values are not functions. -/
theorem lookup?_function (options : Options) (name : String) (arity : Nat) :
    Value.Library.lookup? options (.function name arity) = none := by
  rw [Value.Library.lookup?, List.lookup_eq_none_iff]
  split <;> simp [Value.Library.general, Value.Library.logic]

theorem misses_missing (b : Bindings σ) (name : String) (arity : Nat) :
    Misses (fun known => b.Binds (.function name known)) name arity
      (b.missing (.function name arity)) := by
  have hbinds : (fun known => b.Binds (.function name known)) =
      (· ∈ aritiesOf name (b.numericSymbols.map Prod.fst ++ b.symbols.map Prod.fst ++
        (Library.entries {}).map Prod.fst)) := by
    funext known
    rw [Binds, lookup?_function, Library.lookup?, isSome_lookup, isSome_lookup, isSome_lookup,
      mem_aritiesOf, List.mem_append, List.mem_append]
    simp [or_assoc]
  rw [hbinds]
  exact misses_unbound name arity _

/-- A function that nothing is bound to has no handler but the evaluator. -/
theorem handlers_of_not_binds (h : ¬ b.Binds (.function name arity)) :
    b.handlers (.function name arity) =
      (b.evaluator.map fun ask => Handler.evaluator (ask (.function name arity))).toList := by
  simp only [Binds, not_or, Option.not_isSome_iff_eq_none] at h
  obtain ⟨hnumeric, hgeneral, hoperator, hlibrary⟩ := h
  have hdata : b.subscripted? (.function name arity) = none := rfl
  rw [handlers, hdata, hnumeric, hgeneral, hoperator, hlibrary]
  simp

theorem run_dispatch_unbound (h : ¬ b.Binds (.function name arity)) {words : List Word}
    {m : Memory σ} (hdeclines : ∀ ask, b.evaluator = some ask →
      ((ask (.function name arity) (words.map m.table.unbox)).run m.host).1 = .ok none) :
    ((b.dispatch (.function name arity) words).run m).1 =
      .error (b.missing (.function name arity)) := by
  have hhandlers := handlers_of_not_binds h
  have hanswer : ((b.firstAnswer (.function name arity) words (words.map m.table.unbox) false
      (b.handlers (.function name arity))).run m.toMemory).1 = .ok none := by
    rw [hhandlers]
    cases hask : b.evaluator with
    | none => rfl
    | some ask =>
      rw [Option.map_some, Option.toList_some, run_firstAnswer_cons]
      split
      · rfl
      · dsimp only [Handler.call]
        rw [hdeclines ask hask]
        rfl
  have hdeclined : b.declined (.function name arity) (words.map m.table.unbox) =
      b.missing (.function name arity) := by
    rw [declined, hhandlers]
    cases b.evaluator <;> rfl
  rw [run_dispatch]
  dsimp only
  rw [hanswer, hdeclined]

end Mixed.Bindings

/-- A call of a function that nothing is bound to, made with arguments that have values and not
answered by an evaluator, reports the closest number of arguments that is bound for its name, or
that the function is not defined if none is. -/
theorem evaluate_unbound (name : String) (arity : Nat) :
    (∀ (b : Bindings σ) args m values m',
      ¬ b.Binds (.function name arity) →
      (Tree.evaluateAll b.meaning args).run m = (.ok values, m') →
      (∀ ask, b.evaluator = some ask →
        ((ask (.function name arity) values).run m'.host).1 = .ok none) →
      ∃ error, (((Tree.apply (.function name arity) args).evaluate b.meaning).run m).1 =
          .error error ∧
        Misses (fun known => b.Binds (.function name known)) name arity error) ∧
    ∀ (b : Mixed.Bindings σ) tree start args m words m',
      let e := (Mixed.Expression.build b tree start).1
      ¬ b.Binds (.function name arity) →
      (Tree.evaluateAll (e.bindings.meaning e.words) args).run m = (.ok words, m') →
      (∀ ask, b.evaluator = some ask →
        ((ask (.function name arity) (words.map m'.table.unbox)).run m'.host).1 = .ok none) →
      ∃ error, (((Tree.apply (.function name arity) args).evaluate
          (e.bindings.meaning e.words)).run m).1 = .error error ∧
        Misses (fun known => b.Binds (.function name known)) name arity error := by
  constructor
  · intro b args m values m' hbinds hargs hdeclines
    refine ⟨_, ?_, b.misses_missing name arity⟩
    rw [Tree.evaluate, Action.run_bind_ok hargs]
    exact Bindings.run_call_unbound hbinds hdeclines
  · intro b tree start args m words m' e hbinds hargs hdeclines
    have he : e = ⟨b, (b.boxConstants tree.symbols start).1, e.tree⟩ := by
      unfold e
      rw [Mixed.Expression.build_eq]
    have hword : e.words.lookup (.function name arity) = none := by
      rw [he]
      exact Mixed.Bindings.lookup_boxConstants rfl tree.symbols start
    have hcall : (e.bindings.meaning e.words).call (.function name arity) words =
        b.dispatch (.function name arity) words := by
      unfold Mixed.Bindings.meaning
      dsimp only
      rw [hword, he]
    refine ⟨_, ?_, b.misses_missing name arity⟩
    rw [Tree.evaluate, Action.run_bind_ok hargs, hcall]
    exact Mixed.Bindings.run_dispatch_unbound hbinds hdeclines

/-- A host with functions of one and of three numbers under one name, and an evaluator that
declines. -/
def overloaded : Bindings Unit where
  symbols := [(.function "f" 3, fun args => pure (Library.arg args 2)),
    (.function "f" 1, fun args => pure (Library.arg args 0))]
  evaluator := some fun _ _ => pure none

/-- The same, with one of the functions in each table. -/
def Mixed.overloaded : Mixed.Bindings Unit where
  numericSymbols := [(.function "f" 3, fun args => pure (Library.arg args 2))]
  symbols := [(.function "f" 1, fun args => pure (args.headD .nil))]
  evaluator := some fun _ _ => pure none

/-- Called with two arguments, the smaller of the two functions is reported. -/
theorem evaluate_unbound_overloaded :
    let f := Symbol.function "f" 2
    let e := (Mixed.Expression.build Mixed.overloaded (.literal 0) { host := () }).1
    (¬ overloaded.Binds f ∧
      (((Tree.apply f [.literal 1, .literal 2]).evaluate overloaded.meaning).run ⟨(), []⟩).1 =
        .error (.arityMismatch (.function "f" 1))) ∧
    ¬ Mixed.overloaded.Binds f ∧
      (((Tree.apply f [.literal (Word.ofNumber 1), .literal (Word.ofNumber 2)]).evaluate
        (e.bindings.meaning e.words)).run { host := () }).1 =
          .error (.arityMismatch (.function "f" 1)) := by
  intro f e
  have hfree : ¬ overloaded.Binds f := by
    unfold Bindings.Binds
    decide
  have hfree' : ¬ Mixed.overloaded.Binds f := by
    unfold Mixed.Bindings.Binds
    decide
  have hbound : ∀ known, known ∈ [1, 3] ↔ overloaded.Binds (.function "f" known) := by
    intro known
    rw [Bindings.Binds, Library.lookup?, isSome_lookup, isSome_lookup]
    simp [overloaded, Library.entries, Library.arithmetic, or_comm]
  have hbound' : ∀ known, known ∈ [1, 3] ↔ Mixed.overloaded.Binds (.function "f" known) := by
    intro known
    rw [Mixed.Bindings.Binds, Mixed.Bindings.lookup?_function, Library.lookup?, isSome_lookup,
      isSome_lookup, isSome_lookup]
    simp [Mixed.overloaded, Library.entries, Library.arithmetic, or_comm]
  obtain ⟨error, hrun, hmisses⟩ := (evaluate_unbound "f" 2).1 overloaded
    [.literal 1, .literal 2] ⟨(), []⟩ _ _ hfree rfl (by rintro ask ⟨⟩; rfl)
  obtain ⟨error', hrun', hmisses'⟩ := (evaluate_unbound "f" 2).2 Mixed.overloaded (.literal 0)
    { host := () } [.literal (Word.ofNumber 1), .literal (Word.ofNumber 2)] { host := () } _ _
    hfree' rfl (by rintro ask ⟨⟩; rfl)
  exact ⟨⟨hfree, hrun.trans (congrArg _ (hmisses.unordered [1, 3] hbound))⟩,
    hfree', hrun'.trans (congrArg _ (hmisses'.unordered [1, 3] hbound'))⟩

end Formula
