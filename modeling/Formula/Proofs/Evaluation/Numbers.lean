import Formula.Proofs.Evaluation.Boxing
import Formula.Proofs.Evaluation.Optimize
import Formula.Proofs.Tree.WellFormed

/-! Numbers among values of any kind. Main statement: a symbol that means the same over both is
called with numbers over values of any kind as it is called over numbers. -/
namespace Formula

open Formula.Mixed (Handler numbers? textLiteral?)

variable {σ α : Type}

/-- An evaluator for values of any kind, which answers numbers with numbers. What it does with other
values is left open. -/
def Evaluator.mixed (ask : Evaluator σ Float) (otherwise : Evaluator σ Value) :
    Evaluator σ Value := fun symbol values =>
  match numbers? values with
  | some args => do return (← ask symbol args).map .number
  | none => otherwise symbol values

namespace Bindings

/-- The same bindings for values of any kind: arrays are lists, functions accept numbers only. -/
def mixed (b : Bindings σ) (otherwise : Evaluator σ Value) : Mixed.Bindings σ where
  options := b.options
  constants := b.constants.map (fun (name, x) => (name, .number x)) ++
    b.arrays.map fun (name, xs) => (name, .list (xs.map .number))
  numericSymbols := b.symbols
  evaluator := b.evaluator.map fun ask => ask.mixed otherwise

/-- The symbol means the same over numbers and over values of any kind: it is no text and no
operator that only values have, a number is not subscripted, and an array is not used alone. -/
def Shared (b : Bindings σ) : Symbol → Prop
  | .var name => textLiteral? (.var name) = none ∧ name ≠ "nil" ∧ b.arrays.lookup name = none
  | .infixOp op => op ≠ "==" ∧ op ≠ "!=" ∧ op ≠ "??"
  | .array name => b.constants.lookup name = none
  | .prefixOp _ | .postfixOp _ | .function _ _ => True

/-- The number that a variable is bound to. -/
def number? (b : Bindings σ) : Symbol → Option Float
  | .var name => b.constants.lookup name
  | _ => none

/-- The array that a symbol takes an element of. -/
def array? (b : Bindings σ) : Symbol → Option (List Float)
  | .array name => b.arrays.lookup name
  | _ => none

variable {b : Bindings σ} {otherwise : Evaluator σ Value}
  {symbol : Symbol}

theorem data?_eq (b : Bindings σ) (symbol : Symbol) :
    b.data? symbol = ((b.number? symbol).map .constant).or ((b.array? symbol).map .array) := by
  cases symbol <;> simp [data?, number?, array?]

theorem lookup_constants_mixed (name : String) :
    (b.mixed otherwise).constants.lookup name = ((b.constants.lookup name).map Value.number).or
      ((b.arrays.lookup name).map fun xs => .list (xs.map .number)) := by
  have hnumbers := Mixed.Bindings.lookup_map b.constants Value.number name
  have harrays := Mixed.Bindings.lookup_map b.arrays (fun xs => Value.list (xs.map .number)) name
  rw [← hnumbers, ← harrays]
  exact List.lookup_append

theorem constant?_mixed (otherwise : Evaluator σ Value) (h : b.Shared symbol) :
    (b.mixed otherwise).constant? symbol = (b.number? symbol).map .number := by
  unfold Mixed.Bindings.constant?
  cases symbol with
  | var name =>
    obtain ⟨htext, -, harray⟩ := h
    rw [htext]
    dsimp only
    rw [lookup_constants_mixed, harray]
    exact Option.or_none
  | _ => rfl

theorem subscripted?_mixed (h : b.Shared symbol) :
    (b.mixed otherwise).subscripted? symbol =
      (b.array? symbol).map fun xs => .list (xs.map .number) := by
  cases symbol with
  | array name =>
    have hnumber : b.constants.lookup name = none := h
    change (b.mixed otherwise).constants.lookup name = _
    rw [lookup_constants_mixed, hnumber]
    rfl
  | _ => rfl

/-! ### Handlers of numbers -/

theorem numbers?_map (args : List Float) : numbers? (args.map .number) = some args := by
  unfold numbers?
  induction args with
  | nil => rfl
  | cons x args ih =>
    rw [List.map_cons, List.mapM_cons, ih]
    rfl

theorem values_of_numbers (args : List Float) :
    (args.map Word.ofNumber).map Table.empty.unbox = args.map .number := by
  rw [List.map_map]
  exact List.map_congr_left fun x _ => (Word.StandsFor.number x).unbox

/-- Of the operators on values only the one that joins texts is shared, and it declines numbers. -/
theorem operator_declines (hlogic : b.options.logic = false) (h : b.Shared symbol)
    {f : Value.Library.Function} (hf : Value.Library.lookup? b.options symbol = some f) :
    symbol = .infixOp "+" ∧
      ∀ words (args : List Float), f symbol words (args.map .number) = .ok none := by
  unfold Value.Library.lookup? at hf
  rw [hlogic] at hf
  have hmem := mem_of_lookup hf
  simp only [Bool.false_eq_true, if_false, Value.Library.general, List.mem_cons, Prod.mk.injEq,
    List.not_mem_nil, or_false] at hmem
  rcases hmem with ⟨rfl, rfl⟩ | ⟨rfl, rfl⟩ | ⟨rfl, rfl⟩ | ⟨rfl, rfl⟩ | ⟨rfl, rfl⟩
  · exact absurd rfl h.2.1
  · refine ⟨rfl, fun words args => ?_⟩
    rcases args with _ | ⟨x, _ | ⟨y, _ | ⟨z, args⟩⟩⟩ <;> rfl
  · exact absurd rfl h.1
  · exact absurd rfl h.2.1
  · exact absurd rfl h.2.2

theorem library_of_operator (hlogic : b.options.logic = false) (h : b.Shared symbol)
    (hnone : Library.lookup? {} symbol = none) : Value.Library.lookup? b.options symbol = none := by
  rcases hf : Value.Library.lookup? b.options symbol with _ | f
  · rfl
  · obtain ⟨rfl, -⟩ := operator_declines hlogic h hf
    exact absurd hnone (by decide)

theorem entries_plain (hlogic : b.options.logic = false) :
    Library.entries b.options = Library.entries {} := by
  unfold Library.entries
  rw [hlogic]

theorem lookup?_plain (hlogic : b.options.logic = false) (symbol : Symbol) :
    Library.lookup? b.options symbol = Library.lookup? {} symbol := by
  unfold Library.lookup?
  rw [entries_plain hlogic]

/-- What the library has for a symbol: its operator on values, then its function of numbers. -/
def libraryHandlers (b : Bindings σ) (symbol : Symbol) : List (Handler σ) :=
  ((Value.Library.lookup? b.options symbol).map Handler.operator).toList ++
    ((Library.lookup? {} symbol).map Handler.library).toList

theorem libraryHandlers_of_unknown (hlogic : b.options.logic = false) (h : b.Shared symbol)
    (hnone : Library.lookup? {} symbol = none) : b.libraryHandlers symbol = [] := by
  rw [libraryHandlers, library_of_operator hlogic h hnone, hnone]
  rfl

theorem handlers_of_array (h : b.Shared symbol) {xs : List Float} (ha : b.array? symbol = some xs) :
    (b.mixed otherwise).handlers symbol = [.subscript (.list (xs.map .number))] := by
  unfold Mixed.Bindings.handlers
  rw [subscripted?_mixed h, ha]
  rfl

theorem handlers_mixed (h : b.Shared symbol) (ha : b.array? symbol = none) :
    (b.mixed otherwise).handlers symbol =
      ((b.symbols.lookup symbol).map Handler.numeric).toList ++
      ((b.mixed otherwise).evaluator.map fun ask => Handler.evaluator (ask symbol)).toList ++
      b.libraryHandlers symbol := by
  unfold Mixed.Bindings.handlers libraryHandlers
  rw [subscripted?_mixed h, ha]
  change _ ++ [] ++ _ ++ _ ++ _ = _
  rw [List.append_nil, List.append_assoc]
  rfl

theorem handlers_of_evaluator (otherwise : Evaluator σ Value) (h : b.Shared symbol)
    (ha : b.array? symbol = none) (hfree : b.symbols.lookup symbol = none) {ask : Evaluator σ Float}
    (hask : b.evaluator = some ask) :
    (b.mixed otherwise).handlers symbol =
      .evaluator (ask.mixed otherwise symbol) :: b.libraryHandlers symbol := by
  rw [handlers_mixed h ha, hfree]
  unfold mixed
  rw [hask]
  rfl

theorem handlers_of_library (otherwise : Evaluator σ Value) (h : b.Shared symbol)
    (ha : b.array? symbol = none) (hfree : b.symbols.lookup symbol = none)
    (halone : b.evaluator = none) :
    (b.mixed otherwise).handlers symbol = b.libraryHandlers symbol := by
  rw [handlers_mixed h ha, hfree]
  unfold mixed
  rw [halone]
  rfl

theorem isPure_libraryHandlers (hlogic : b.options.logic = false) (h : b.Shared symbol)
    (trusted : Bool) :
    (!(b.libraryHandlers symbol).isEmpty &&
      (b.libraryHandlers symbol).all (Handler.isPure trusted)) =
        (Library.lookup? {} symbol).isSome := by
  cases hf : Library.lookup? {} symbol with
  | none =>
    rw [libraryHandlers_of_unknown hlogic h hf]
    rfl
  | some f =>
    unfold libraryHandlers
    rw [hf]
    cases Value.Library.lookup? b.options symbol <;> rfl

theorem element_mixed (symbol : Symbol) (xs : List Float) (x : Float) :
    Mixed.element symbol (.list (xs.map .number)) [.number x] =
      (element symbol xs [x]).map .number := by
  have harg : Library.arg [x] 0 = x := rfl
  unfold Mixed.element element
  dsimp only
  rw [harg]
  cases Number.natural? x with
  | none => rfl
  | some place =>
    dsimp only [Option.bind_some]
    rw [List.getElem?_map]
    cases xs[place]? <;> rfl

/-! ### Calls with numbers -/

/-- The library answers for its functions, and declines all else. -/
theorem run_libraryHandlers (otherwise : Evaluator σ Value) (hlogic : b.options.logic = false)
    (h : b.Shared symbol) (words : List Word) (args : List Float) (declined : Bool) (m : Memory σ) :
    ((b.mixed otherwise).firstAnswer symbol words (args.map .number) declined
      (b.libraryHandlers symbol)).run m =
      match Library.lookup? {} symbol with
      | some f => (.ok (some (.number (f args))),
          ⟨m.host, if declined && b.options.optimize then symbol :: m.settled else m.settled⟩)
      | none => (.ok none, m) := by
  have hlibrary : ∀ m : Memory σ,
      ((b.mixed otherwise).firstAnswer symbol words (args.map .number) declined
        ((Library.lookup? {} symbol).map Handler.library).toList).run m =
        match Library.lookup? {} symbol with
        | some f => (.ok (some (.number (f args))),
            ⟨m.host, if declined && b.options.optimize then symbol :: m.settled else m.settled⟩)
        | none => (.ok none, m) := by
    intro m
    cases Library.lookup? {} symbol with
    | none => rfl
    | some f =>
      rw [Option.map_some, Option.toList_some, Mixed.Bindings.run_firstAnswer_cons]
      simp only [Handler.isEvaluator, Handler.call, numbers?_map, Handler.isLibrary,
        Bool.false_and, Bool.false_eq_true, if_false, Bool.and_true]
      rfl
  unfold libraryHandlers
  cases hf : Value.Library.lookup? b.options symbol with
  | none => exact hlibrary m
  | some f =>
    have hdeclines := (operator_declines hlogic h hf).2 words args
    rw [Option.map_some, Option.toList_some, List.singleton_append,
      Mixed.Bindings.run_firstAnswer_cons]
    simp only [Handler.isEvaluator, Handler.call, hdeclines, Bool.false_and, Bool.false_eq_true,
      if_false, Bool.or_false]
    exact hlibrary m

theorem missing_mixed (hlogic : b.options.logic = false) (symbol : Symbol) :
    (b.mixed otherwise).missing symbol = b.missing symbol := by
  unfold Mixed.Bindings.missing missing
  rw [entries_plain hlogic]
  change Error.unbound symbol (aritiesOf symbol.name (_ ++ [] ++ _)) = _
  rw [List.append_nil]
  rfl

/-- An answer with a number is the word of the number. -/
theorem dispatch_of_answer {args : List Float} {m n : Memory σ} (result : Except Error Float)
    (hanswer : ((b.mixed otherwise).firstAnswer symbol (args.map .ofNumber) (args.map .number) false
      ((b.mixed otherwise).handlers symbol)).run m =
        (result.map fun x => some (.number x), n)) :
    ((b.mixed otherwise).dispatch symbol (args.map .ofNumber)).run ⟨m, .empty⟩ =
      (result.map .ofNumber, ⟨n, .empty⟩) := by
  rw [Mixed.Bindings.run_dispatch, values_of_numbers]
  dsimp only
  rw [hanswer]
  cases result <;> rfl

/-- If all handlers decline, and none is numeric, the symbol is missing. -/
theorem dispatch_of_declined (hlogic : b.options.logic = false) {args : List Float}
    {m n : Memory σ}
    (hanswer : ((b.mixed otherwise).firstAnswer symbol (args.map .ofNumber) (args.map .number) false
      ((b.mixed otherwise).handlers symbol)).run m = (.ok none, n))
    (hnumeric : ((b.mixed otherwise).handlers symbol).any Handler.isNumeric = false) :
    ((b.mixed otherwise).dispatch symbol (args.map .ofNumber)).run ⟨m, .empty⟩ =
      (.error (b.missing symbol), ⟨n, .empty⟩) := by
  rw [Mixed.Bindings.run_dispatch, values_of_numbers]
  dsimp only
  rw [hanswer]
  dsimp only
  rw [Mixed.Bindings.declined, hnumeric, if_neg Bool.false_ne_true, missing_mixed hlogic]

/-- What a symbol is bound to, with what comes before it passed over. -/
inductive Source (b : Bindings σ) (symbol : Symbol) : Binding σ → Prop where
  | constant {x} (number : b.number? symbol = some x) : Source b symbol (.constant x)
  | array {xs} (number : b.number? symbol = none) (array : b.array? symbol = some xs) :
    Source b symbol (.array xs)
  | host {f} (number : b.number? symbol = none) (array : b.array? symbol = none)
    (bound : b.symbols.lookup symbol = some f) : Source b symbol (.host f)
  | evaluator {ask} (number : b.number? symbol = none) (array : b.array? symbol = none)
    (free : b.symbols.lookup symbol = none) (bound : b.evaluator = some ask) :
    Source b symbol
      (.evaluator (ask symbol) (Library.lookup? b.options symbol) (b.missing symbol))
  | library {f} (number : b.number? symbol = none) (array : b.array? symbol = none)
    (free : b.symbols.lookup symbol = none) (alone : b.evaluator = none)
    (bound : Library.lookup? b.options symbol = some f) : Source b symbol (.library f)
  | unbound (number : b.number? symbol = none) (array : b.array? symbol = none)
    (free : b.symbols.lookup symbol = none) (alone : b.evaluator = none)
    (unknown : Library.lookup? b.options symbol = none) :
    Source b symbol (.unbound (b.missing symbol))

theorem source (b : Bindings σ) (symbol : Symbol) : b.Source symbol (b.resolve symbol) := by
  unfold resolve
  rw [data?_eq]
  cases hnumber : b.number? symbol with
  | some x => exact .constant hnumber
  | none =>
    cases harray : b.array? symbol with
    | some xs => exact .array hnumber harray
    | none =>
      dsimp only [Option.map_none, Option.none_or]
      split
      · rename_i f hf
        exact .host hnumber harray hf
      · rename_i hfree
        split
        · rename_i ask hask
          exact .evaluator hnumber harray hfree hask
        · rename_i halone
          split
          · rename_i f hf
            exact .library hnumber harray hfree halone hf
          · rename_i hunknown
            exact .unbound hnumber harray hfree halone hunknown

/-- Symbols that the evaluator is no longer asked about are in the library. -/
def Known (b : Bindings σ) (m : Memory σ) : Prop :=
  ∀ symbol ∈ m.settled, Library.lookup? b.options symbol ≠ none

section
variable (hlogic : b.options.logic = false) (h : b.Shared symbol)
  (harray : b.array? symbol = none) {args : List Float} (m : Memory σ)

theorem run_liftExcept (result : Except Error α) :
    (call.liftExcept result : Action (Memory σ) α).run m = (result, m) := by
  cases result <;> rfl

include h in
theorem run_dispatch_array {xs : List Float} (ha : b.array? symbol = some xs) (x : Float) :
    ((b.mixed otherwise).dispatch symbol ([x].map .ofNumber)).run ⟨m, .empty⟩ =
      ((element symbol xs [x]).map .ofNumber, ⟨m, .empty⟩) := by
  refine dispatch_of_answer _ ?_
  rw [handlers_of_array h ha, Mixed.Bindings.run_firstAnswer_cons]
  simp only [Handler.isEvaluator, Handler.call, List.map_cons, List.map_nil, element_mixed,
    Mixed.Bindings.Mirrors.run_liftExcept, Bool.false_and, Bool.false_eq_true, if_false]
  cases element symbol xs [x] <;> rfl

include h harray in
theorem run_dispatch_host {f : List Float → Action σ Float}
    (hf : b.symbols.lookup symbol = some f) :
    ((b.mixed otherwise).dispatch symbol (args.map .ofNumber)).run ⟨m, .empty⟩ =
      (((f args).run m.host).1.map .ofNumber,
        ⟨⟨((f args).run m.host).2, m.settled⟩, .empty⟩) := by
  refine dispatch_of_answer _ ?_
  rw [handlers_mixed h harray, hf, Option.map_some, Option.toList_some, List.append_assoc,
    List.singleton_append, Mixed.Bindings.run_firstAnswer_cons]
  simp only [Handler.isEvaluator, Handler.call, numbers?_map, Action.run_map, Bool.false_and,
    Bool.false_eq_true, if_false]
  cases ((f args).run m.host).1 <;> rfl

include hlogic h harray in
theorem run_dispatch_library (hfree : b.symbols.lookup symbol = none)
    (halone : b.evaluator = none) :
    ((b.mixed otherwise).dispatch symbol (args.map .ofNumber)).run ⟨m, .empty⟩ =
      match Library.lookup? {} symbol with
      | some f => (.ok (.ofNumber (f args)), ⟨m, .empty⟩)
      | none => (.error (b.missing symbol), ⟨m, .empty⟩) := by
  have hhandlers := handlers_of_library otherwise h harray hfree halone
  have hrun := run_libraryHandlers otherwise hlogic h (args.map .ofNumber) args false m
  rw [← hhandlers] at hrun
  cases hf : Library.lookup? {} symbol with
  | some f =>
    rw [hf] at hrun
    exact dispatch_of_answer (.ok (f args)) hrun
  | none =>
    rw [hf] at hrun
    refine dispatch_of_declined hlogic hrun ?_
    rw [hhandlers, libraryHandlers_of_unknown hlogic h hf]
    rfl

theorem run_evaluator_mixed (ask : Evaluator σ Float) (symbol : Symbol) (args : List Float)
    (s : σ) :
    (ask.mixed otherwise symbol (args.map .number)).run s =
      (((ask symbol args).run s).1.map (Option.map .number), ((ask symbol args).run s).2) := by
  unfold Evaluator.mixed
  rw [numbers?_map]
  exact Action.run_map _ _ s

include hlogic h harray in
theorem run_dispatch_evaluator (hm : b.Known m) (hfree : b.symbols.lookup symbol = none)
    {ask : Evaluator σ Float} (hask : b.evaluator = some ask) :
    let p := (callEvaluator b.options.optimize symbol (ask symbol)
      (Library.lookup? b.options symbol) (b.missing symbol) args).run m
    ((b.mixed otherwise).dispatch symbol (args.map .ofNumber)).run ⟨m, .empty⟩ =
      (p.1.map .ofNumber, ⟨p.2, .empty⟩) := by
  have hhandlers := handlers_of_evaluator otherwise h harray hfree hask
  have hanswer := Mixed.Bindings.run_firstAnswer_cons (b.mixed otherwise) symbol
    (args.map .ofNumber) (args.map .number) false (.evaluator (ask.mixed otherwise symbol))
    (b.libraryHandlers symbol) m
  simp only [← hhandlers, Handler.isEvaluator, Handler.call, run_evaluator_mixed, Bool.true_and,
    run_libraryHandlers otherwise hlogic h, Bool.false_and, Bool.false_or] at hanswer
  have hplain := lookup?_plain hlogic symbol
  rw [hplain]
  cases hf : Library.lookup? {} symbol with
  | none =>
    have hasked : m.settled.contains symbol = false := by
      rw [← Bool.not_eq_true, List.contains_iff_mem]
      exact fun hmem => hm symbol hmem (hplain.trans hf)
    rw [run_callEvaluator_none]
    simp only [hasked, hf, Bool.false_eq_true, if_false] at hanswer
    rcases hrun : (ask symbol args).run m.host with ⟨error | _ | x, host⟩ <;> rw [hrun] at hanswer
    · exact dispatch_of_answer (.error error) hanswer
    · refine dispatch_of_declined hlogic hanswer ?_
      rw [hhandlers, libraryHandlers_of_unknown hlogic h hf]
      rfl
    · exact dispatch_of_answer (.ok x) hanswer
  | some f =>
    rw [run_callEvaluator_some]
    simp only [hf] at hanswer
    cases hasked : m.settled.contains symbol with
    | true =>
      simp only [hasked, if_true] at hanswer
      exact dispatch_of_answer (.ok (f args)) hanswer
    | false =>
      simp only [hasked, Bool.false_eq_true, if_false] at hanswer ⊢
      rcases hrun : (ask symbol args).run m.host with ⟨error | _ | x, host⟩ <;>
        rw [hrun] at hanswer
      · exact dispatch_of_answer (.error error) hanswer
      · exact dispatch_of_answer (.ok (f args)) hanswer
      · exact dispatch_of_answer (.ok x) hanswer

end

/-- Over values of any kind, what is not a number itself is called as over numbers. -/
theorem run_dispatch_mixed (hlogic : b.options.logic = false) (h : b.Shared symbol)
    (hnumber : b.number? symbol = none) {args : List Float} (htakes : symbol.Takes args.length)
    {m : Memory σ} (hm : b.Known m) :
    ((b.mixed otherwise).dispatch symbol (args.map .ofNumber)).run ⟨m, .empty⟩ =
      (((b.call symbol args).run m).1.map .ofNumber,
        ⟨((b.call symbol args).run m).2, .empty⟩) := by
  have hsource := b.source symbol
  unfold call
  generalize b.resolve symbol = binding at hsource
  cases hsource with
  | constant number =>
    rw [hnumber] at number
    cases number
  | array _ array =>
    have hone : args.length = 1 := by
      cases symbol with
      | array name => exact htakes
      | _ => cases array
    obtain ⟨x, rfl⟩ := List.length_eq_one_iff.1 hone
    dsimp only
    rw [run_liftExcept]
    exact run_dispatch_array h m array x
  | host _ array bound => exact run_dispatch_host h array m bound
  | evaluator _ array free bound =>
    exact run_dispatch_evaluator hlogic h array m hm free bound
  | library _ array free alone bound =>
    rw [run_dispatch_library hlogic h array m free alone, ← lookup?_plain hlogic, bound]
    rfl
  | unbound _ array free alone unknown =>
    rw [run_dispatch_library hlogic h array m free alone, ← lookup?_plain hlogic, unknown]
    rfl

/-- What may be called ahead of evaluation is the same over numbers and over values. -/
theorem isPure_mixed (hlogic : b.options.logic = false) (htrusted : b.options.pureSymbols = false)
    (h : b.Shared symbol) {words : Mixed.Bindings.Words}
    (hwords : words.lookup symbol = (b.number? symbol).map .ofNumber) :
    ((b.mixed otherwise).meaning words).isPure symbol = b.meaning.isPure symbol := by
  change (b.options.optimize &&
    ((words.lookup symbol).isSome || (b.mixed otherwise).isPure symbol)) =
    (b.options.optimize && _)
  refine congrArg (b.options.optimize && ·) ?_
  rw [hwords]
  have huntrusted : (b.mixed otherwise).options.pureSymbols = false := htrusted
  have hsource := b.source symbol
  generalize b.resolve symbol = binding at hsource
  unfold Mixed.Bindings.isPure
  rw [huntrusted]
  cases hsource with
  | constant number => rw [number]; rfl
  | array number array => rw [number, handlers_of_array h array]; rfl
  | host number array bound =>
    rw [number, handlers_mixed h array, bound, htrusted]
    rfl
  | evaluator number array free bound =>
    rw [number, handlers_of_evaluator otherwise h array free bound]
    rfl
  | library number array free alone bound =>
    rw [lookup?_plain hlogic] at bound
    rw [number, handlers_of_library otherwise h array free alone]
    dsimp only
    rw [isPure_libraryHandlers hlogic h, bound]
    rfl
  | unbound number array free alone unknown =>
    rw [lookup?_plain hlogic] at unknown
    rw [number, handlers_of_library otherwise h array free alone]
    dsimp only
    rw [isPure_libraryHandlers hlogic h, unknown]
    rfl

end Bindings
end Formula
