import Formula.Proofs.Evaluation.Arity
import Formula.Proofs.Evaluation.LockStep
import Formula.Proofs.Evaluation.Numbers

/-! Formulas of numbers. Main statement: a formula that is bound to numbers only comes to the same
in every evaluation, whether it is evaluated over numbers or over values of any kind, and makes the
same calls of the host in the same order. -/
namespace Formula

open Formula.Mixed (numbers?)

variable {σ α : Type}

namespace Bindings

variable {b : Bindings σ} {otherwise : Evaluator σ Value}

/-- A call over numbers keeps to the library what is settled. -/
theorem known_call (symbol : Symbol) (args : List Float) {m : Memory σ} (hm : b.Known m) :
    b.Known ((b.call symbol args).run m).2 := by
  have hsource := b.source symbol
  unfold call
  generalize b.resolve symbol = binding at hsource
  cases hsource with
  | constant => exact hm
  | array =>
    dsimp only
    rw [run_liftExcept]
    exact hm
  | host => exact hm
  | evaluator =>
    dsimp only
    cases hf : Library.lookup? b.options symbol with
    | none =>
      rw [run_callEvaluator_none]
      exact hm
    | some f =>
      rw [run_callEvaluator_some]
      have hsettled : ∀ s ∈ symbol :: m.settled, Library.lookup? b.options s ≠ none :=
        List.forall_mem_cons.2 ⟨by rw [hf]; exact nofun, hm⟩
      split
      · exact hm
      · split
        · exact hm
        · dsimp only
          split
          · exact hsettled
          · exact hm
        · exact hm
  | library => exact hm
  | unbound => exact hm

/-- Symbols of a tree that mean the same over numbers and over values, each with as many arguments
as it takes. -/
def numeric (b : Bindings σ) (names : Symbol → Prop) : b.meaning.Invariant where
  Fits symbol count := names symbol ∧ b.Shared symbol ∧ symbol.Takes count
  Valid := b.Known
  Good _ _ := True
  Extends m m' := b.Known m → b.Known m'
  refl _ := id
  trans h h' := h' ∘ h
  valid_of_extends h := h
  good_of_extends _ _ := trivial
  call {symbol args _} _ _ _ := ⟨b.known_call symbol args, fun _ _ => trivial⟩

/-- A memory over values that holds numbers only. -/
def overValues (m : Memory σ) : Mixed.Memory σ := ⟨m, .empty⟩

theorem mirror_mixed (otherwise : Evaluator σ Value) (hlogic : b.options.logic = false)
    (htrusted : b.options.pureSymbols = false) {names : Symbol → Prop}
    {words : Mixed.Bindings.Words}
    (hwords : ∀ symbol, names symbol → words.lookup symbol = (b.number? symbol).map .ofNumber) :
    Mirror (b.numeric names) ((b.mixed otherwise).meaning words) overValues Word.ofNumber where
  call := by
    intro symbol args m hfits hm _
    obtain ⟨hname, hshared, htakes⟩ := hfits
    unfold Seen Mixed.Bindings.meaning
    dsimp only
    rw [hwords symbol hname]
    cases hnumber : b.number? symbol with
    | some x =>
      have hcall : b.meaning.call symbol args = pure x := by
        change b.call symbol args = pure x
        unfold call resolve
        rw [data?_eq, hnumber]
        rfl
      rw [hcall]
      rfl
    | none => exact run_dispatch_mixed hlogic hshared hnumber htakes hm
  isPure := fun ⟨hname, hshared, _⟩ => isPure_mixed hlogic htrusted hshared (hwords _ hname)

/-- Numbers have a word of their own, which leaves the table empty. -/
theorem boxConstants_mixed (otherwise : Evaluator σ Value) {symbols : List Symbol}
    (h : ∀ symbol ∈ symbols, b.Shared symbol) (m : Memory σ) :
    ((b.mixed otherwise).boxConstants symbols (overValues m)).2 = overValues m ∧
      ∀ symbol ∈ symbols,
        ((b.mixed otherwise).boxConstants symbols (overValues m)).1.lookup symbol =
          (b.number? symbol).map .ofNumber := by
  induction symbols with
  | nil => exact ⟨rfl, nofun⟩
  | cons first symbols ih =>
    rw [List.forall_mem_cons] at h
    obtain ⟨hmemory, hwords⟩ := ih h.2
    have hconstant := constant?_mixed otherwise h.1
    rw [Mixed.Bindings.boxConstants_cons, hconstant]
    cases hnumber : b.number? first with
    | none =>
      refine ⟨hmemory, List.forall_mem_cons.2 ⟨?_, hwords⟩⟩
      rw [hnumber] at hconstant ⊢
      exact Mixed.Bindings.lookup_boxConstants hconstant symbols _
    | some x =>
      refine ⟨hmemory, fun symbol hsymbol => ?_⟩
      dsimp only [Option.map_some]
      rw [List.lookup_cons]
      by_cases hfirst : symbol = first
      · subst hfirst
        rw [beq_self_eq_true, hnumber]
        rfl
      · rw [beq_eq_false_iff_ne.2 hfirst]
        exact hwords symbol ((List.mem_cons.1 hsymbol).resolve_left hfirst)

/-! ### One evaluation after another -/

section
variable {names : Symbol → Prop} {words : Mixed.Bindings.Words} {tree : Tree Float} {m : Memory σ}

theorem trace_mixed (hmirror : Mirror (b.numeric names) ((b.mixed otherwise).meaning words)
      overValues Word.ofNumber)
    (htree : tree.Every (fun _ => True) (b.numeric names).Fits) (steps : List (σ → σ))
    (hm : b.Known m) :
    (Mixed.Expression.trace ⟨b.mixed otherwise, words, tree.map .ofNumber⟩ steps
        (overValues m)).1.map Prod.fst =
      (Expression.results ⟨b, tree⟩ steps m).1.map (Except.map .number) ∧
    (Mixed.Expression.trace ⟨b.mixed otherwise, words, tree.map .ofNumber⟩ steps
        (overValues m)).2 = overValues (Expression.results ⟨b, tree⟩ steps m).2 := by
  induction steps generalizing m with
  | nil => exact ⟨rfl, rfl⟩
  | cons step steps ih =>
    let start : Memory σ := { m with host := step m.host }
    have hstart : b.Known start := hm
    have hrun : ((tree.map Word.ofNumber).evaluate ((b.mixed otherwise).meaning words)).run
          (overValues start) =
        (((tree.evaluate b.meaning).run start).1.map .ofNumber,
          overValues ((tree.evaluate b.meaning).run start).2) := hmirror.evaluate hstart htree
    have hnext : b.Known ((tree.evaluate b.meaning).run start).2 :=
      ((b.numeric names).evaluate hstart htree).1 hstart
    have hvalue : ∀ r : Except Error Float,
        (r.map Word.ofNumber).map Table.empty.unbox = r.map .number := by
      rintro (error | x)
      · rfl
      · exact congrArg Except.ok (Word.StandsFor.number x).unbox
    have hsame : ({ overValues m with host := step (overValues m).host } : Mixed.Memory σ) =
      overValues start := rfl
    obtain ⟨hresults, hmemory⟩ := ih hnext
    rw [Mixed.Expression.trace_cons]
    dsimp only
    rw [hsame, hrun]
    exact ⟨congrArg₂ List.cons (hvalue _) hresults, hmemory⟩

end

theorem build_eq (b : Bindings σ) (tree : Tree Float) (m : Memory σ) :
    Expression.build b tree m =
      let f := if b.options.optimize then tree.fold b.meaning m else (tree, m)
      (⟨b, f.1⟩, f.2) := by
  unfold Expression.build
  cases b.options.optimize <;> rfl

/-- Every evaluation over values of any kind comes to what it does over numbers, and leaves the same
memory. -/
theorem run_mixed_tree (otherwise : Evaluator σ Value) (hlogic : b.options.logic = false)
    (htrusted : b.options.pureSymbols = false) {tree : Tree Float}
    (htree : tree.Every (fun _ => True) (b.numeric (· ∈ tree.symbols)).Fits)
    (hshared : ∀ symbol ∈ tree.symbols, b.Shared symbol) (steps : List (σ → σ)) (host : σ) :
    ((b.mixed otherwise).trace tree steps host).1.map Prod.fst =
      (b.run tree steps host).1.map (Except.map .number) ∧
    ((b.mixed otherwise).trace tree steps host).2 = overValues (b.run tree steps host).2 := by
  let start : Memory σ := ⟨host, []⟩
  let f := if b.options.optimize then tree.fold b.meaning start else (tree, start)
  have hstart : b.Known start := nofun
  obtain ⟨hconstants, hwords⟩ := boxConstants_mixed otherwise hshared start
  have hmirror := mirror_mixed otherwise hlogic htrusted hwords
  have hnumeric : b.Known f.2 ∧
      f.1.Every (fun _ => True) (b.numeric (· ∈ tree.symbols)).Fits := by
    unfold f
    split
    · obtain ⟨hextends, hevery⟩ := (b.numeric (· ∈ tree.symbols)).fold hstart htree
      exact ⟨hextends hstart, hevery⟩
    · exact ⟨hstart, htree⟩
  have hfolded : Mixed.Expression.folded (b.mixed otherwise)
      ((b.mixed otherwise).boxConstants tree.symbols (overValues start)).1 (tree.map .ofNumber)
      (overValues start) = (f.1.map .ofNumber, overValues f.2) := by
    have hoptimize : (b.mixed otherwise).options.optimize = b.options.optimize := rfl
    unfold f Mixed.Expression.folded
    rw [hoptimize]
    split
    · exact hmirror.fold hstart htree
    · rfl
  have htrace := trace_mixed hmirror hnumeric.2 steps hnumeric.1
  have hempty : ({ host } : Mixed.Memory σ) = overValues start := rfl
  unfold Mixed.Bindings.trace run
  rw [Mixed.Expression.build_eq, build_eq, hempty]
  dsimp only
  rw [hconstants, hfolded]
  exact htrace

end Bindings

/-! ### Calls of the host -/

/-- A call of a function of the host, or of its evaluator. -/
inductive HostCall where
  | function (symbol : Symbol) (args : List Value)
  | evaluator (symbol : Symbol) (args : List Value)

/-- Runs an action of the host and adds a call to the list. -/
def logged (c : HostCall) (action : Action σ α) : Action (σ × List HostCall) α := fun state =>
  ((action.run state.1).1, (action.run state.1).2, state.2 ++ [c])

theorem logged_map {β : Type} (c : HostCall) (action : Action σ α) (f : α → β) :
    (logged c action >>= fun x => pure (f x)) = logged c (action >>= fun x => pure (f x)) := by
  funext state
  have hlogged := Action.run_map (logged c action) f state
  have haction := Action.run_map action f state.1
  change (logged c action >>= fun x => pure (f x)).run state = _
  rw [hlogged]
  unfold logged
  rw [haction]
  rfl

/-- The same step of a host that lists its calls. -/
def alongside (step : σ → σ) (state : σ × List HostCall) : σ × List HostCall :=
  (step state.1, state.2)

/-- The same bindings for a host that lists its calls. -/
def Bindings.logging (b : Bindings σ) : Bindings (σ × List HostCall) where
  options := b.options
  constants := b.constants
  arrays := b.arrays
  symbols := b.symbols.map fun (symbol, f) =>
    (symbol, fun args => logged (.function symbol (args.map .number)) (f args))
  evaluator := b.evaluator.map fun ask symbol args =>
    logged (.evaluator symbol (args.map .number)) (ask symbol args)

/-- The calls of the host while a formula is built and evaluated. -/
def Bindings.hostCalls (b : Bindings σ) (tree : Tree Float) (steps : List (σ → σ)) (host : σ) :
    List HostCall :=
  (b.logging.run tree (steps.map alongside) (host, [])).2.host.2

/-- The same evaluator of values for a host that lists its calls. -/
def Evaluator.logging (ask : Evaluator σ Value) : Evaluator (σ × List HostCall) Value :=
  fun symbol values => logged (.evaluator symbol values) (ask symbol values)

/-- The same bindings for a host that lists its calls. -/
def Mixed.Bindings.logging (b : Mixed.Bindings σ) : Mixed.Bindings (σ × List HostCall) where
  options := b.options
  constants := b.constants
  numericSymbols := b.numericSymbols.map fun (symbol, f) =>
    (symbol, fun args => logged (.function symbol (args.map .number)) (f args))
  symbols := b.symbols.map fun (symbol, f) =>
    (symbol, fun values => logged (.function symbol values) (f values))
  evaluator := b.evaluator.map Evaluator.logging

/-- The calls of the host while a formula over values is built and evaluated. -/
def Mixed.Bindings.hostCalls (b : Mixed.Bindings σ) (tree : Tree Float) (steps : List (σ → σ))
    (host : σ) : List HostCall :=
  (b.logging.trace tree (steps.map alongside) (host, [])).2.host.2

namespace Bindings

variable {b : Bindings σ} {otherwise : Evaluator σ Value}

/-- A host lists the same whether its calls are logged over numbers or over values. -/
theorem logging_mixed :
    b.logging.mixed otherwise.logging = (b.mixed otherwise).logging := by
  have hevaluator : ∀ ask : Evaluator σ Float,
      Evaluator.mixed
        (fun symbol args => logged (.evaluator symbol (args.map .number)) (ask symbol args))
        otherwise.logging = (ask.mixed otherwise).logging := by
    intro ask
    funext symbol values
    cases h : numbers? values with
    | none => simp only [Evaluator.mixed, Evaluator.logging, h]
    | some args =>
      simp only [Evaluator.mixed, Evaluator.logging, h, ← Mixed.eq_map_of_numbers? h]
      exact logged_map _ _ _
  unfold mixed Mixed.Bindings.logging logging
  cases b.evaluator with
  | none => rfl
  | some ask =>
    dsimp only [Option.map_some]
    rw [hevaluator]
    rfl

theorem every_of_source (source : String)
    (hshared : ∀ symbol ∈ (Tree.ofSource source).occurrences, b.Shared symbol) :
    (Tree.ofSource source).Every (fun _ => True)
      (b.numeric (· ∈ (Tree.ofSource source).symbols)).Fits := by
  have hboth := ((Tree.every_ofSource source).of_occurrences hshared).of_occurrences
    (R := (· ∈ (Tree.ofSource source).symbols)) fun _ => Tree.mem_symbols.2
  exact hboth

/-- A source whose symbols mean the same over numbers and over values: any number of evaluations
give the same numbers and errors, one for one, and the functions and the evaluator of the host are
called with the same arguments in the same order. -/
theorem run_mixed (b : Bindings σ) (otherwise : Evaluator σ Value) (source : String)
    (hlogic : b.options.logic = false) (htrusted : b.options.pureSymbols = false)
    (hshared : ∀ symbol ∈ (Tree.ofSource source).occurrences, b.Shared symbol)
    (steps : List (σ → σ)) (host : σ) :
    ((b.mixed otherwise).trace (Tree.ofSource source) steps host).1.map Prod.fst =
      (b.run (Tree.ofSource source) steps host).1.map (Except.map .number) ∧
    (b.mixed otherwise).hostCalls (Tree.ofSource source) steps host =
      b.hostCalls (Tree.ofSource source) steps host := by
  have hsymbols : ∀ symbol ∈ (Tree.ofSource source).symbols, b.Shared symbol :=
    fun symbol h => hshared symbol (Tree.mem_symbols.1 h)
  have hlogged : ∀ symbol ∈ (Tree.ofSource source).occurrences, b.logging.Shared symbol := by
    intro symbol h
    have hsymbol := hshared symbol h
    cases symbol <;> exact hsymbol
  have hrun := run_mixed_tree otherwise hlogic htrusted
    (every_of_source source hshared) hsymbols steps host
  have hcalls := run_mixed_tree (b := b.logging) otherwise.logging hlogic htrusted
    (every_of_source source hlogged) (fun symbol h => hlogged symbol (Tree.mem_symbols.1 h))
    (steps.map alongside) (host, [])
  rw [logging_mixed] at hcalls
  exact ⟨hrun.1, congrArg (fun m => m.host.2) hcalls.2⟩

/-- A host with a number, an array, a function that works once, and an evaluator that declines. -/
def busy : Bindings Nat where
  constants := [("i", 1)]
  arrays := [("a", [5, 7])]
  symbols := [(.function "f" 1, fun args => fun visits =>
    (if visits = 0 then .ok (Library.arg args 0) else .error (.message "busy"), visits + 1))]
  evaluator := some fun _ _ => pure none

theorem run_mixed_busy :
    let tree := Tree.ofSource "f(a[i])+i"
    let values := busy.mixed fun _ _ => pure (some .nil)
    (∀ symbol ∈ tree.occurrences, busy.Shared symbol) ∧
    (busy.hostCalls tree [id, id] 0).length = 3 ∧
    (values.trace tree [id, id] 0).1.map Prod.fst =
      (busy.run tree [id, id] 0).1.map (Except.map .number) ∧
    values.hostCalls tree [id, id] 0 = busy.hostCalls tree [id, id] 0 := by
  intro tree values
  have htree : tree = .apply (.infixOp "+") [.apply (.function "f" 1)
      [.apply (.array "a") [.named "i"]], .named "i"] := by
    unfold tree
    cbv
  have hshared : ∀ symbol ∈ tree.occurrences, busy.Shared symbol := by
    have hvar : busy.Shared (.var "i") := ⟨by decide, by decide, rfl⟩
    have hplus : busy.Shared (.infixOp "+") := ⟨by decide, by decide, by decide⟩
    have harray : busy.Shared (.array "a") := rfl
    have hoccurrences : tree.occurrences =
        [.infixOp "+", .function "f" 1, .array "a", .var "i", .var "i"] := by
      rw [htree]
      rfl
    rw [hoccurrences]
    simp only [List.forall_mem_cons]
    exact ⟨hplus, trivial, harray, hvar, hvar, by simp⟩
  have hcalls : (busy.hostCalls tree [id, id] 0).length = 3 := by
    rw [htree]
    decide +kernel
  exact ⟨hshared, hcalls, run_mixed busy _ _ rfl rfl hshared _ 0⟩

end Bindings
end Formula
