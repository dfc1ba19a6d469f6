import Formula.Proofs.Evaluation.Settling

/-! Symbols that an evaluator of values is no longer asked about. Main statement: the evaluator is
asked and passed over by the law that holds over numbers, whichever of the handlers after it
answers, and unless one before it does. -/
namespace Formula

open Formula.Mixed (Handler numbers?)
open Visit

variable {σ τ : Type}

namespace Mixed

namespace Expression

/-- The visits of one evaluation after another, before each of which the host takes a step. -/
def history (e : Expression σ) : List (σ → σ) → Memory σ → List (Visit (Memory σ) Word)
  | [], _ => []
  | step :: steps, m =>
    let start : Memory σ := { m with host := step m.host }
    e.tree.visits (e.bindings.meaning e.words) start ++ e.history steps (e.evaluate.run start).2

theorem history_visits (e : Expression σ) (steps : List (σ → σ)) (m : Memory σ) :
    History (e.bindings.meaning e.words) e.tree (fun m => m.settled) m.settled
      (e.history steps m) (e.trace steps m).2.settled := by
  induction steps generalizing m with
  | nil => exact .nil
  | cons step steps ih =>
    exact .cons { m with host := step m.host } (ih (e.evaluate.run { m with host := step m.host }).2)

end Expression

namespace Bindings

variable {b : Bindings σ} {words : Words} {symbol : Symbol} {args : List Word} {values : List Value}

/-- What the function of numbers that the library has for a symbol makes of values. -/
def functionAnswer (symbol : Symbol) (values : List Value) : Except Error (Option Value) :=
  match Library.lookup? {} symbol with
  | some f =>
    match numbers? values with
    | some numbers => .ok (some (.number (f numbers)))
    | none => .error (.mismatch symbol values)
  | none => .ok none

/-- What the library makes of values. Its operator on values may leave them to its function of
numbers. -/
def libraryAnswer (b : Bindings σ) (symbol : Symbol) (args : List Word) (values : List Value) :
    Except Error (Option Value) :=
  match Value.Library.lookup? b.options symbol with
  | some f =>
    match f symbol args values with
    | .ok none => functionAnswer symbol values
    | answer => answer
  | none => functionAnswer symbol values

def isAnswer : Except Error (Option Value) → Bool
  | .ok (some _) => true
  | _ => false

/-- The memory after an answer of the library. -/
def settledBy (b : Bindings σ) (symbol : Symbol) (declined : Bool)
    (answer : Except Error (Option Value)) (m : Formula.Memory σ) : Formula.Memory σ :=
  { m with settled :=
      if declined && b.options.optimize && isAnswer answer then symbol :: m.settled
      else m.settled }

theorem run_functionHandler (declined : Bool) (m : Formula.Memory σ) :
    (b.firstAnswer symbol args values declined
        ((Library.lookup? {} symbol).map Handler.library).toList).run m =
      (functionAnswer symbol values,
        b.settledBy symbol declined (functionAnswer symbol values) m) := by
  unfold functionAnswer
  cases Library.lookup? {} symbol with
  | none => simp [firstAnswer, settledBy, isAnswer, Action.run_pure]
  | some f =>
    rw [Option.map_some, Option.toList_some, run_firstAnswer_cons, Handler.call]
    cases numbers? values with
    | none => simp [Handler.isEvaluator, settledBy, isAnswer]; rfl
    | some numbers => rfl

/-- What the library has for a symbol. -/
def libraryHandlers (b : Bindings σ) (symbol : Symbol) : List (Handler σ) :=
  ((Value.Library.lookup? b.options symbol).map Handler.operator).toList ++
    ((Library.lookup? {} symbol).map Handler.library).toList

theorem run_libraryHandlers (declined : Bool) (m : Formula.Memory σ) :
    (b.firstAnswer symbol args values declined (b.libraryHandlers symbol)).run m =
      (b.libraryAnswer symbol args values,
        b.settledBy symbol declined (b.libraryAnswer symbol args values) m) := by
  unfold libraryHandlers libraryAnswer
  cases Value.Library.lookup? b.options symbol with
  | none => exact run_functionHandler declined m
  | some f =>
    rw [Option.map_some, Option.toList_some, List.singleton_append, run_firstAnswer_cons,
      Handler.call, Mirrors.run_liftExcept]
    dsimp only
    rcases f symbol args values with error | _ | value
    · simp [Handler.isEvaluator, settledBy, isAnswer]
    · simpa [Handler.isEvaluator] using run_functionHandler declined m
    · rfl

/-- No constant stands for the symbol, and no function of the host answers the values. -/
structure Undecided (b : Bindings σ) (words : Words) (symbol : Symbol) (values : List Value) :
    Prop where
  word : words.lookup symbol = none
  subscripted : b.subscripted? symbol = none
  numeric : b.numericSymbols.lookup symbol = none ∨ numbers? values = none
  general : b.symbols.lookup symbol = none

/-- What comes of the answer of an evaluator. If it declines, the library answers. -/
def answered (b : Bindings σ) (symbol : Symbol) (args : List Word) (values : List Value) :
    Except Error (Option Value) → Except Error (Option Value)
  | .ok none => b.libraryAnswer symbol args values
  | answer => answer

def isDecline : Except Error (Option Value) → Bool
  | .ok none => true
  | _ => false

theorem run_evaluatorHandler (ask : Evaluator σ Value) (m : Formula.Memory σ) :
    (b.firstAnswer symbol args values false
        (.evaluator (ask symbol) :: b.libraryHandlers symbol)).run m =
      if m.settled.contains symbol then (b.libraryAnswer symbol args values, m)
      else
        let p := (ask symbol values).run m.host
        (b.answered symbol args values p.1,
          b.settledBy symbol (isDecline p.1) (b.libraryAnswer symbol args values)
            ⟨p.2, m.settled⟩) := by
  rw [run_firstAnswer_cons]
  simp only [Handler.isEvaluator, Handler.isLibrary, Handler.call, Bool.true_and, Bool.or_true,
    run_libraryHandlers]
  split
  · simp [settledBy]
  · rcases (ask symbol values).run m.host with ⟨error | _ | value, s⟩
    · simp [answered, isDecline, settledBy]
    · rfl
    · simp [answered, isDecline, settledBy]

/-- The evaluator is the first that may answer. -/
theorem Undecided.run_handlers (h : b.Undecided words symbol values) {ask : Evaluator σ Value}
    (hask : b.evaluator = some ask) (args : List Word) (m : Formula.Memory σ) :
    (b.firstAnswer symbol args values false (b.handlers symbol)).run m =
      (b.firstAnswer symbol args values false
        (.evaluator (ask symbol) :: b.libraryHandlers symbol)).run m := by
  have hhandlers : b.handlers symbol =
      ((b.numericSymbols.lookup symbol).map Handler.numeric).toList ++
        .evaluator (ask symbol) :: b.libraryHandlers symbol := by
    unfold handlers libraryHandlers
    rw [h.subscripted, h.general, hask]
    simp
  rw [hhandlers]
  cases hnumeric : b.numericSymbols.lookup symbol with
  | none => rfl
  | some f =>
    have hnumbers := h.numeric.resolve_left (by rw [hnumeric]; nofun)
    rw [Option.map_some, Option.toList_some, List.singleton_append, run_firstAnswer_cons,
      Handler.call, hnumbers]
    rfl

/-! ### Calls that do not reach the evaluator -/

/-- Nothing is settled before the evaluator declines, and what every handler does to the host holds
of all of them. -/
theorem kept_firstAnswer {R : σ → σ → Prop} (hrefl : ∀ s, R s s)
    (htrans : ∀ s s' s'', R s s' → R s' s'' → R s s'') (before : List (Handler σ))
    {rest : List (Handler σ)}
    (hbefore : ∀ h ∈ before, h.isEvaluator = false ∧ ∀ s, R s ((h.call symbol args values).run s).2)
    (hrest : rest = [] ∨ ∃ h hs, rest = h :: hs ∧ h.isEvaluator = false ∧
      ∀ s, ((h.call symbol args values).run s).1 ≠ .ok none ∧
        R s ((h.call symbol args values).run s).2) (m : Formula.Memory σ) :
    let m' := ((b.firstAnswer symbol args values false (before ++ rest)).run m).2
    m'.settled = m.settled ∧ R m.host m'.host := by
  induction before generalizing m with
  | nil =>
    rcases hrest with rfl | ⟨h, hs, rfl, hplain, hanswers⟩
    · exact ⟨rfl, hrefl m.host⟩
    · obtain ⟨hanswer, hhost⟩ := hanswers m.host
      rw [List.nil_append, run_firstAnswer_cons, hplain]
      simp only [Bool.false_and, Bool.false_eq_true, if_false]
      split
      · exact ⟨rfl, hhost⟩
      · rename_i hnone
        exact absurd hnone hanswer
      · exact ⟨rfl, hhost⟩
  | cons h before ih =>
    rw [List.forall_mem_cons] at hbefore
    obtain ⟨⟨hplain, hhost⟩, hbefore⟩ := hbefore
    rw [List.cons_append, run_firstAnswer_cons, hplain]
    simp only [Bool.false_and, Bool.false_eq_true, if_false, Bool.or_false]
    split
    · exact ⟨rfl, hhost m.host⟩
    · obtain ⟨hsettled, hhost'⟩ := ih hbefore ⟨((h.call symbol args values).run m.host).2, m.settled⟩
      exact ⟨hsettled, htrans _ _ _ (hhost m.host) hhost'⟩
    · exact ⟨rfl, hhost m.host⟩

theorem isEvaluator_libraryHandlers (b : Bindings σ) (symbol : Symbol) :
    ∀ h ∈ b.libraryHandlers symbol, h.isEvaluator = false := by
  unfold libraryHandlers
  cases Value.Library.lookup? b.options symbol <;> cases Library.lookup? {} symbol <;>
    simp [Handler.isEvaluator]

theorem run_some_ne {α : Type} (action : Action σ α) (f : α → Value) (s : σ) :
    ((do return some (f (← action)) : Action σ (Option Value)).run s).1 ≠ .ok none := by
  rw [Action.run_map action fun x => some (f x)]
  intro h
  obtain ⟨x, -, hx⟩ := exists_of_map_eq_ok h
  cases hx

/-- If the evaluator is not reached, there is none or a handler before it always answers. -/
theorem handlers_decided (hword : words.lookup symbol = none)
    (h : b.Undecided words symbol values → b.evaluator = none) (args : List Word) :
    ∃ before rest, b.handlers symbol = before ++ rest ∧ (∀ h ∈ before, h.isEvaluator = false) ∧
      (rest = [] ∨ ∃ h hs, rest = h :: hs ∧ h.isEvaluator = false ∧
        ∀ s, ((h.call symbol args values).run s).1 ≠ .ok none) := by
  cases hsub : b.subscripted? symbol with
  | some value =>
    refine ⟨[.subscript value], [], ?_, List.forall_mem_singleton.2 rfl, .inl rfl⟩
    rw [handlers, hsub, List.append_nil]
  | none =>
    have hhandlers : b.handlers symbol =
        ((b.numericSymbols.lookup symbol).map Handler.numeric).toList ++
          (((b.symbols.lookup symbol).map Handler.general).toList ++
            ((b.evaluator.map fun ask => Handler.evaluator (ask symbol)).toList ++
              b.libraryHandlers symbol)) := by
      rw [handlers, hsub, libraryHandlers]
      simp only [List.append_assoc]
    have hnumeric : ∀ h ∈ ((b.numericSymbols.lookup symbol).map Handler.numeric).toList,
        h.isEvaluator = false := by
      cases b.numericSymbols.lookup symbol with
      | none => exact nofun
      | some f => exact List.forall_mem_singleton.2 rfl
    cases hgeneral : b.symbols.lookup symbol with
    | some f =>
      rw [hgeneral] at hhandlers
      refine ⟨_, _, hhandlers, hnumeric, .inr ⟨.general f, _, rfl, rfl, ?_⟩⟩
      exact run_some_ne (f values) id
    | none =>
      by_cases hnumbers : b.numericSymbols.lookup symbol = none ∨ numbers? values = none
      · rw [hgeneral, h ⟨hword, hsub, hnumbers, hgeneral⟩] at hhandlers
        refine ⟨_, [], hhandlers.trans (List.append_nil _).symm, fun h hmem => ?_, .inl rfl⟩
        exact (List.mem_append.1 hmem).elim (hnumeric h) (isEvaluator_libraryHandlers b symbol h)
      · obtain ⟨f, hf⟩ := Option.ne_none_iff_exists'.1 (not_or.1 hnumbers).1
        obtain ⟨numbers, hvalues⟩ := Option.ne_none_iff_exists'.1 (not_or.1 hnumbers).2
        rw [hf] at hhandlers
        refine ⟨[], _, hhandlers, nofun, .inr ⟨.numeric f, _, rfl, rfl, fun s => ?_⟩⟩
        rw [Handler.call, hvalues]
        exact run_some_ne (f numbers) Value.number s

/-- A call that does not reach the evaluator settles nothing, and does to the host what the other
handlers do. -/
theorem kept_decided {R : σ → σ → Prop} (hrefl : ∀ s, R s s)
    (htrans : ∀ s s' s'', R s s' → R s' s'' → R s s'') (hword : words.lookup symbol = none)
    (h : b.Undecided words symbol values → b.evaluator = none)
    (hhandlers : ∀ h ∈ b.handlers symbol, h.isEvaluator = false →
      ∀ s, R s ((h.call symbol args values).run s).2) (m : Formula.Memory σ) :
    let m' := ((b.firstAnswer symbol args values false (b.handlers symbol)).run m).2
    m'.settled = m.settled ∧ R m.host m'.host := by
  obtain ⟨before, rest, heq, hbefore, hrest⟩ := handlers_decided hword h args
  rw [heq] at hhandlers ⊢
  refine kept_firstAnswer hrefl htrans before (fun h hmem => ?_) (hrest.imp_right ?_) m
  · exact ⟨hbefore h hmem, hhandlers h (List.mem_append_left _ hmem) (hbefore h hmem)⟩
  · rintro ⟨h, hs, rfl, hplain, hanswers⟩
    refine ⟨h, hs, rfl, hplain, fun s => ⟨hanswers s, ?_⟩⟩
    exact hhandlers h (List.mem_append_right _ List.mem_cons_self) hplain s

/-! ### A host that lists its calls -/

theorem lookup_numericSymbols_logging (b : Bindings σ) (symbol : Symbol) :
    b.logging.numericSymbols.lookup symbol =
      (b.numericSymbols.lookup symbol).map fun f args =>
        logged (.function symbol (args.map .number)) (f args) :=
  lookup_mapWithKey b.numericSymbols (fun symbol f (args : List Float) =>
    logged (.function symbol (args.map .number)) (f args)) symbol

theorem lookup_symbols_logging (b : Bindings σ) (symbol : Symbol) :
    b.logging.symbols.lookup symbol =
      (b.symbols.lookup symbol).map fun f values => logged (.function symbol values) (f values) :=
  lookup_mapWithKey b.symbols (fun symbol f (values : List Value) =>
    logged (.function symbol values) (f values)) symbol

theorem undecided_logging :
    b.logging.Undecided words symbol values ↔ b.Undecided words symbol values := by
  have hnumeric : b.logging.numericSymbols.lookup symbol = none ↔
      b.numericSymbols.lookup symbol = none := by
    rw [lookup_numericSymbols_logging, Option.map_eq_none_iff]
  have hgeneral : b.logging.symbols.lookup symbol = none ↔ b.symbols.lookup symbol = none := by
    rw [lookup_symbols_logging, Option.map_eq_none_iff]
  constructor
  · rintro ⟨word, subscripted, numeric, general⟩
    exact ⟨word, subscripted, numeric.imp_left hnumeric.1, hgeneral.1 general⟩
  · rintro ⟨word, subscripted, numeric, general⟩
    exact ⟨word, subscripted, numeric.imp_left hnumeric.2, hgeneral.2 general⟩

theorem any_isNumeric (b : Bindings σ) (symbol : Symbol) :
    (b.handlers symbol).any Handler.isNumeric =
      ((b.subscripted? symbol).isNone && (b.numericSymbols.lookup symbol).isSome) := by
  unfold handlers
  cases b.subscripted? symbol with
  | some value => rfl
  | none =>
    cases b.numericSymbols.lookup symbol <;> cases b.symbols.lookup symbol <;>
      cases b.evaluator <;> cases Value.Library.lookup? b.options symbol <;>
      cases Library.lookup? {} symbol <;> rfl

theorem declined_logging (b : Bindings σ) (symbol : Symbol) :
    b.logging.declined symbol = b.declined symbol := by
  have hnumeric : (b.logging.handlers symbol).any Handler.isNumeric =
      (b.handlers symbol).any Handler.isNumeric := by
    rw [any_isNumeric, any_isNumeric, lookup_numericSymbols_logging, Option.isSome_map]
    rfl
  have hmissing : b.logging.missing symbol = b.missing symbol := by
    simp only [missing, logging, List.map_map, Function.comp_def]
  funext values
  rw [declined, declined, hnumeric, hmissing]

/-- What the answer to a call becomes. -/
def delivered (b : Bindings σ) (symbol : Symbol) (values : List Value) (t : Table) :
    Except Error (Option Value) → Except Error Word
  | .ok (some value) => .ok (t.box value).1
  | .ok none => .error (b.declined symbol values)
  | .error error => .error error

theorem delivered_logging (b : Bindings σ) (symbol : Symbol) :
    b.logging.delivered symbol = b.delivered symbol := by
  funext values t answer
  rcases answer with error | _ | value
  · rfl
  · exact congrArg Except.error (congrFun (b.declined_logging symbol) values)
  · rfl

theorem run_dispatch_delivered (b : Bindings σ) (symbol : Symbol) (args : List Word)
    (m : Memory σ) :
    let values := args.map m.table.unbox
    let p := (b.firstAnswer symbol args values false (b.handlers symbol)).run m.toMemory
    ((b.dispatch symbol args).run m).1 = b.delivered symbol values m.table p.1 ∧
      ((b.dispatch symbol args).run m).2.toMemory = p.2 := by
  rw [run_dispatch]
  dsimp only
  generalize (b.firstAnswer symbol args _ false (b.handlers symbol)).run m.toMemory = p
  rcases p with ⟨error | _ | value, base⟩ <;> exact ⟨rfl, rfl⟩

/-! ### Visits -/

/-- The values of the arguments. -/
def valuesOf (v : Visit (Memory τ) Word) : List Value := v.args.map v.before.table.unbox

/-- A call that no handler answers before the evaluator. -/
structure Reaches (b : Bindings σ) (words : Words) (symbol : Symbol) (ask : Evaluator σ Value)
    (v : Visit (Memory τ) Word) : Prop where
  node : ∃ args, v.node = .apply symbol args
  undecided : b.Undecided words symbol (valuesOf v)
  bound : b.evaluator = some ask

/-- In an optimized formula, the evaluator was asked about a symbol, it declined, and the library
answered. -/
def Settles (b : Bindings σ) (words : Words) (symbol : Symbol)
    (v : Visit (Memory (σ × List HostCall)) Word) : Prop :=
  b.options.optimize = true ∧ ∃ ask value, b.Reaches words symbol ask v ∧
    v.after.host.2 = v.before.host.2 ++ [.evaluator symbol (valuesOf v)] ∧
    ((ask symbol (valuesOf v)).run v.before.host.1).1 = .ok none ∧
    b.libraryAnswer symbol v.args (valuesOf v) = .ok (some value) ∧
    v.result = .ok (v.before.table.box value).1

/-- What comes of a call that reaches the evaluator. -/
theorem reaches_cases {ask : Evaluator σ Value} {v : Visit (Memory (σ × List HostCall)) Word}
    {earlier : List (Visit (Memory (σ × List HostCall)) Word)}
    (hv : v.Sound (b.logging.meaning words) earlier) (h : b.Reaches words symbol ask v) :
    let answer := ((ask symbol (valuesOf v)).run v.before.host.1).1
    let fallback := b.libraryAnswer symbol v.args (valuesOf v)
    (symbol ∈ v.before.settled ∧ v.after.toMemory = v.before.toMemory ∧
      v.result = b.delivered symbol (valuesOf v) v.before.table fallback) ∨
    symbol ∉ v.before.settled ∧
      v.after.host.2 = v.before.host.2 ++ [.evaluator symbol (valuesOf v)] ∧
      v.result = b.delivered symbol (valuesOf v) v.before.table
        (b.answered symbol v.args (valuesOf v) answer) ∧
      v.after.settled =
        if isDecline answer && b.options.optimize && isAnswer fallback then
          symbol :: v.before.settled
        else v.before.settled := by
  obtain ⟨args, hnode⟩ := h.node
  have hundecided := h.undecided
  cases hv with
  | literal => cases hnode
  | malformed => cases hnode
  | @call place other others xs m length computed =>
    obtain ⟨rfl, rfl⟩ := Tree.apply.inj hnode
    have hcall : (b.logging.meaning words).call other xs = b.logging.dispatch other xs := by
      unfold meaning
      dsimp only
      rw [hundecided.word]
    have hask : b.logging.evaluator = some ask.logging := congrArg (Option.map _) h.bound
    have hrun := (undecided_logging.2 hundecided).run_handlers hask xs m.toMemory
    obtain ⟨hresult, hafter⟩ := b.logging.run_dispatch_delivered other xs m
    rw [run_evaluatorHandler] at hrun
    dsimp only [ofCall, valuesOf] at *
    rw [hcall, hresult, hafter, hrun, delivered_logging]
    by_cases hcontains : m.settled.contains other = true
    · rw [if_pos hcontains]
      exact .inl ⟨List.contains_iff_mem.1 hcontains, rfl, rfl⟩
    · rw [if_neg hcontains]
      exact .inr ⟨fun hmem => hcontains (List.contains_iff_mem.2 hmem), rfl, rfl, rfl⟩

theorem settles_iff {ask : Evaluator σ Value} {other : Symbol}
    {v : Visit (Memory (σ × List HostCall)) Word} (h : b.Reaches words other ask v) :
    b.Settles words symbol v ↔ b.options.optimize = true ∧ symbol = other ∧
      v.after.host.2 = v.before.host.2 ++ [.evaluator symbol (valuesOf v)] ∧
      ((ask symbol (valuesOf v)).run v.before.host.1).1 = .ok none ∧
      ∃ value, b.libraryAnswer symbol v.args (valuesOf v) = .ok (some value) ∧
        v.result = .ok (v.before.table.box value).1 := by
  refine and_congr_right fun _ => ⟨?_, ?_⟩
  · rintro ⟨ask', value, h', hlog, hdeclined, hanswer, hresult⟩
    obtain ⟨args, hnode⟩ := h.node
    obtain ⟨args', hnode'⟩ := h'.node
    obtain ⟨rfl, -⟩ := Tree.apply.inj (hnode.symm.trans hnode')
    obtain rfl := Option.some.inj (h.bound.symm.trans h'.bound)
    exact ⟨rfl, hlog, hdeclined, value, hanswer, hresult⟩
  · rintro ⟨rfl, hlog, hdeclined, value, hanswer, hresult⟩
    exact ⟨ask, value, h, hlog, hdeclined, hanswer, hresult⟩

/-- A call that does not reach the evaluator settles nothing, and does to the host what the other
handlers do. -/
theorem kept_unreached {R : σ → σ → Prop} (hrefl : ∀ s, R s s)
    (htrans : ∀ s s' s'', R s s' → R s' s'' → R s s'') {args : List Word} {m : Memory σ}
    (h : b.Undecided words symbol (args.map m.table.unbox) → b.evaluator = none)
    (hhandlers : ∀ h ∈ b.handlers symbol, h.isEvaluator = false →
      ∀ s, R s ((h.call symbol args (args.map m.table.unbox)).run s).2) :
    let m' := (((b.meaning words).call symbol args).run m).2
    m'.settled = m.settled ∧ R m.host m'.host := by
  unfold meaning
  dsimp only
  cases hword : words.lookup symbol with
  | some word => exact ⟨rfl, hrefl m.host⟩
  | none =>
    have hkept := kept_decided hrefl htrans hword h hhandlers m.toMemory
    rw [← (b.run_dispatch_delivered symbol args m).2] at hkept
    exact hkept

/-- Calls were added, none of them of the evaluator. -/
def Quiet (s s' : σ × List HostCall) : Prop :=
  ∃ calls, s'.2 = s.2 ++ calls ∧ ∀ symbol args, .evaluator symbol args ∉ calls

theorem Quiet.refl (s : σ × List HostCall) : Quiet s s := ⟨[], (List.append_nil _).symm, nofun⟩

theorem Quiet.trans {s s' s'' : σ × List HostCall} (h : Quiet s s') (h' : Quiet s' s'') :
    Quiet s s'' := by
  obtain ⟨calls, heq, hcalls⟩ := h
  obtain ⟨calls', heq', hcalls'⟩ := h'
  refine ⟨calls ++ calls', by rw [heq', heq, List.append_assoc], fun symbol args hmem => ?_⟩
  exact (List.mem_append.1 hmem).elim (hcalls symbol args) (hcalls' symbol args)

theorem Quiet.logged {α : Type} (symbol : Symbol) (args : List Value) (action : Action σ α)
    (s : σ × List HostCall) :
    Quiet s ((logged (.function symbol args) action).run s).2 :=
  ⟨[.function symbol args], rfl, fun _ _ hmem => nomatch List.mem_singleton.1 hmem⟩

/-- A handler other than the evaluator does not ask the evaluator. -/
theorem quiet_handlers {h : Handler (σ × List HostCall)} (hmem : h ∈ b.logging.handlers symbol)
    (hplain : h.isEvaluator = false) (s : σ × List HostCall) :
    Quiet s ((h.call symbol args values).run s).2 := by
  unfold handlers at hmem
  cases hsub : b.logging.subscripted? symbol with
  | some value =>
    rw [hsub] at hmem
    obtain rfl := List.mem_singleton.1 hmem
    rw [Handler.call, Mirrors.run_liftExcept]
    exact .refl s
  | none =>
    rw [hsub] at hmem
    simp only [List.mem_append, Option.mem_toList, Option.map_eq_some_iff,
      lookup_numericSymbols_logging, lookup_symbols_logging] at hmem
    rcases hmem with (((⟨_, ⟨f, -, rfl⟩, rfl⟩ | ⟨_, ⟨f, -, rfl⟩, rfl⟩) | ⟨ask, -, rfl⟩) |
      ⟨f, -, rfl⟩) | ⟨f, -, rfl⟩
    · rw [Handler.call]
      split
      · rw [Action.run_map]
        exact .logged ..
      · exact .refl s
    · rw [Handler.call, Action.run_map]
      exact .logged ..
    · cases hplain
    · rw [Handler.call, Mirrors.run_liftExcept]
      exact .refl s
    · rw [Handler.call]
      split <;> exact .refl s

theorem quiet_unreached {v : Visit (Memory (σ × List HostCall)) Word}
    {earlier : List (Visit (Memory (σ × List HostCall)) Word)}
    (hv : v.Sound (b.logging.meaning words) earlier)
    (hreach : ∀ symbol ask, ¬ b.Reaches words symbol ask v) :
    v.after.settled = v.before.settled ∧ Quiet v.before.host v.after.host := by
  cases hv with
  | literal => exact ⟨rfl, .refl _⟩
  | malformed => exact ⟨rfl, .refl _⟩
  | @call place symbol args values m _ _ =>
    refine kept_unreached Quiet.refl (fun _ _ _ => Quiet.trans) (fun hundecided => ?_)
      fun h hmem hplain => quiet_handlers hmem hplain
    cases hask : b.evaluator with
    | none => exact congrArg (Option.map _) hask
    | some ask =>
      exact absurd ⟨⟨args, rfl⟩, undecided_logging.1 hundecided, hask⟩ (hreach symbol ask)

/-- A symbol is settled where the evaluator leaves it to the library, and nowhere else. -/
theorem mem_settled_after {v : Visit (Memory (σ × List HostCall)) Word}
    {earlier : List (Visit (Memory (σ × List HostCall)) Word)}
    (hv : v.Sound (b.logging.meaning words) earlier) (symbol : Symbol) :
    symbol ∈ v.after.settled ↔ symbol ∈ v.before.settled ∨ b.Settles words symbol v := by
  by_cases hreach : ∃ other ask, b.Reaches words other ask v
  · obtain ⟨other, ask, hreach⟩ := hreach
    rcases reaches_cases hv hreach with ⟨-, hafter, -⟩ | ⟨-, hlog, hresult, hsettled⟩
    · rw [settles_iff hreach, hafter]
      simp
    · rw [settles_iff hreach, hlog, hresult, hsettled]
      by_cases hsymbol : symbol = other
      · subst hsymbol
        rcases ((ask symbol (valuesOf v)).run v.before.host.1).1 with error | _ | value
        · simp [isDecline]
        · rcases hlibrary : b.libraryAnswer symbol v.args (valuesOf v) with error | _ | value <;>
            cases b.options.optimize <;> simp [isDecline, isAnswer, answered, delivered, hlibrary]
        · simp [isDecline]
      · split <;> simp [hsymbol]
  · have hsettles : ¬ b.Settles words symbol v := fun ⟨_, ask, _, h, _⟩ => hreach ⟨symbol, ask, h⟩
    rw [(quiet_unreached hv fun other ask h => hreach ⟨other, ask, h⟩).1]
    simp [hsettles]

/-- Nothing is settled by a call that is made when a formula is built. -/
theorem settled_pure_call (hpure : (b.meaning words).isPure symbol = true) (args : List Word)
    (m : Memory σ) : (((b.meaning words).call symbol args).run m).2.settled = m.settled := by
  have hrefl : ∀ s : σ, True := fun _ => trivial
  refine (kept_unreached (R := fun _ _ => True) hrefl (fun _ _ _ _ _ => trivial)
    (fun hundecided => ?_) fun _ _ _ _ => trivial).1
  cases hask : b.evaluator with
  | none => rfl
  | some ask =>
    have hmem : Handler.evaluator (ask symbol) ∈ b.handlers symbol := by
      rw [handlers, hundecided.subscripted, hask]
      simp
    simp only [meaning, hundecided.word, isPure, Bool.and_eq_true, Option.isSome_none,
      Bool.false_or, List.all_eq_true] at hpure
    exact absurd (hpure.2.2 _ hmem) (by simp [Handler.isPure])

theorem settled_build (b : Bindings σ) (tree : Tree Float) (m : Memory σ) :
    (Expression.build b tree m).2.settled = m.settled := by
  rw [Expression.build_eq]
  dsimp only
  have hboxed := congrArg Formula.Memory.settled (b.toMemory_boxConstants tree.symbols m)
  unfold Expression.folded
  split
  · have hrun := ((tree.map Word.ofNumber).folding
      (b.meaning (b.boxConstants tree.symbols m).1) (b.boxConstants tree.symbols m).2).run
    refine ((hrun.linked.map fun m => m.settled).eq_of_kept fun v hv => ?_).trans hboxed
    obtain ⟨symbol, args, -, hpure, hcall⟩ := hrun.calls v hv
    have hkept := settled_pure_call hpure v.args v.before
    rwa [hcall] at hkept
  · exact hboxed

/-- What an evaluator of values is asked in a visit that comes after others. -/
structure Lawful (b : Bindings σ) (words : Words)
    (earlier : List (Visit (Memory (σ × List HostCall)) Word))
    (v : Visit (Memory (σ × List HostCall)) Word) : Prop where
  /-- It is not asked about a symbol that has been left to the library. -/
  silent : ∀ {symbol}, (∃ w ∈ earlier, b.Settles words symbol w) →
    ∃ calls, v.after.host.2 = v.before.host.2 ++ calls ∧ ∀ args, .evaluator symbol args ∉ calls
  /-- The library answers a call of such a symbol, unless a function of the host does. -/
  answers : ∀ {symbol ask}, b.Reaches words symbol ask v →
    (∃ w ∈ earlier, b.Settles words symbol w) →
    v.result = b.delivered symbol (valuesOf v) v.before.table
      (b.libraryAnswer symbol v.args (valuesOf v))
  /-- A call of any other symbol asks it once, unless a function of the host answers. -/
  asks : ∀ {symbol ask}, b.Reaches words symbol ask v →
    (∀ w ∈ earlier, ¬ b.Settles words symbol w) →
    v.after.host.2 = v.before.host.2 ++ [.evaluator symbol (valuesOf v)] ∧
      v.result = b.delivered symbol (valuesOf v) v.before.table
        (b.answered symbol v.args (valuesOf v) ((ask symbol (valuesOf v)).run v.before.host.1).1)

theorem history_lawful (b : Bindings σ) (tree : Tree Float) (steps : List (σ → σ)) (host : σ)
    {earlier later : List (Visit (Memory (σ × List HostCall)) Word)}
    {v : Visit (Memory (σ × List HostCall)) Word} :
    let built := Expression.build b.logging tree { host := (host, []) }
    built.1.history (steps.map alongside) built.2 = earlier ++ v :: later →
      b.Lawful built.1.words earlier v := by
  intro built hhistory
  have hbuilt : built.1 = ⟨b.logging, built.1.words, built.1.tree⟩ := by
    unfold built
    rw [Expression.build_eq]
  rw [hbuilt] at hhistory
  have hvisits :=
    Expression.history_visits ⟨b.logging, built.1.words, built.1.tree⟩ (steps.map alongside) built.2
  rw [hhistory, show built.2.settled = [] from settled_build b.logging tree _] at hvisits
  have hsettled := hvisits.mem_before (fun w symbol => b.Settles built.1.words symbol w)
    fun hsound => mem_settled_after hsound
  obtain ⟨others, hsound⟩ := hvisits.sound (List.mem_append_right _ List.mem_cons_self)
  constructor
  · intro symbol hleft
    by_cases hreach : ∃ other ask, b.Reaches built.1.words other ask v
    · obtain ⟨other, ask, hreach⟩ := hreach
      rcases reaches_cases hsound hreach with ⟨-, hafter, -⟩ | ⟨hnot, hlog, -⟩
      · refine ⟨[], ?_, nofun⟩
        rw [hafter, List.append_nil]
      · refine ⟨_, hlog, fun args hmem => ?_⟩
        obtain ⟨rfl, -⟩ := HostCall.evaluator.inj (List.mem_singleton.1 hmem)
        exact hnot ((hsettled symbol).2 hleft)
    · have hquiet := (quiet_unreached hsound fun other ask h => hreach ⟨other, ask, h⟩).2
      obtain ⟨calls, hlog, hcalls⟩ := hquiet
      exact ⟨calls, hlog, hcalls symbol⟩
  · intro symbol ask hreach hleft
    rcases reaches_cases hsound hreach with ⟨-, -, hresult⟩ | ⟨hnot, -⟩
    · exact hresult
    · exact absurd ((hsettled symbol).2 hleft) hnot
  · intro symbol ask hreach hkept
    rcases reaches_cases hsound hreach with ⟨hmem, -⟩ | ⟨-, hlog, hresult, -⟩
    · obtain ⟨w, hw, hsettles⟩ := (hsettled symbol).1 hmem
      exact absurd hsettles (hkept w hw)
    · exact ⟨hlog, hresult⟩

end Bindings
end Mixed

/-- In any number of evaluations of a formula and its copies, over numbers or over values of any
kind: a call that reaches the evaluator asks it once, until it has declined the symbol in an
optimized formula where the library answered. From then on it is not asked about that symbol, and
the library answers. -/
theorem histories_lawful (b : Bindings σ) (b' : Mixed.Bindings σ) (tree : Tree Float)
    (steps : List (σ → σ)) (host : σ) :
    (let built := Expression.build b.logging tree ⟨(host, []), []⟩
      ∀ earlier v later,
        built.1.history (steps.map alongside) built.2 = earlier ++ v :: later →
        b.Lawful earlier v) ∧
    (let built := Mixed.Expression.build b'.logging tree { host := (host, []) }
      ∀ earlier v later,
        built.1.history (steps.map alongside) built.2 = earlier ++ v :: later →
        b'.Lawful built.1.words earlier v) :=
  ⟨fun _ _ _ h => b.history_lawful tree steps host h,
    fun _ _ _ h => b'.history_lawful tree steps host h⟩

/-- The circle constant, read twice. -/
def twice : Tree Float := .apply (.infixOp "+") [.named "pi", .named "pi"]

/-- Evaluators that always decline. -/
def Bindings.declining : Bindings Unit where
  evaluator := some fun _ _ => pure none

def Mixed.Bindings.declining : Mixed.Bindings Unit where
  evaluator := some fun _ _ => pure none

theorem Bindings.settles_declining :
    let built := Expression.build declining.logging twice ⟨((), []), []⟩
    ∃ w v u, built.1.history ([id].map alongside) built.2 = [w] ++ v :: [u] ∧
      declining.Settles (.var "pi") w ∧
      ∃ ask f missing, declining.Reaches (.var "pi") ask (some f) missing v := by
  refine ⟨_, _, _, rfl, ?_, ?_⟩
  · exact ⟨rfl, _, _, _, ⟨⟨_, rfl⟩, rfl⟩, rfl, rfl, rfl⟩
  · exact ⟨_, _, _, ⟨_, rfl⟩, rfl⟩

theorem Mixed.Bindings.settles_declining :
    let built := Mixed.Expression.build declining.logging twice { host := ((), []) }
    ∃ w v u, built.1.history ([id].map alongside) built.2 = [w] ++ v :: [u] ∧
      declining.Settles built.1.words (.var "pi") w ∧
      ∃ ask, declining.Reaches built.1.words (.var "pi") ask v := by
  refine ⟨_, _, _, rfl, ?_, ?_⟩
  · exact ⟨rfl, _, .number Library.pi, ⟨⟨_, rfl⟩, ⟨rfl, rfl, .inl rfl, rfl⟩, rfl⟩, rfl, rfl, rfl,
      rfl⟩
  · exact ⟨_, ⟨_, rfl⟩, ⟨rfl, rfl, .inl rfl, rfl⟩, rfl⟩

/-- The circle constant is left to the library where it is first read, so that the evaluator is not
asked about it again. -/
theorem histories_lawful_declining :
    let built := Expression.build Bindings.declining.logging twice ⟨((), []), []⟩
    let boxed := Mixed.Expression.build Mixed.Bindings.declining.logging twice { host := ((), []) }
    (∃ w v u, built.1.history ([id].map alongside) built.2 = [w] ++ v :: [u] ∧
      Bindings.declining.Settles (.var "pi") w ∧
      (∃ ask f missing, Bindings.declining.Reaches (.var "pi") ask (some f) missing v) ∧
      Bindings.declining.Lawful [w] v) ∧
    ∃ w v u, boxed.1.history ([id].map alongside) boxed.2 = [w] ++ v :: [u] ∧
      Mixed.Bindings.declining.Settles boxed.1.words (.var "pi") w ∧
      (∃ ask, Mixed.Bindings.declining.Reaches boxed.1.words (.var "pi") ask v) ∧
      Mixed.Bindings.declining.Lawful boxed.1.words [w] v := by
  have hlawful := histories_lawful Bindings.declining Mixed.Bindings.declining twice [id] ()
  obtain ⟨w, v, u, hhistory, hsettles, hreaches⟩ := Bindings.settles_declining
  obtain ⟨w', v', u', hhistory', hsettles', hreaches'⟩ := Mixed.Bindings.settles_declining
  exact ⟨⟨w, v, u, hhistory, hsettles, hreaches, hlawful.1 _ _ _ hhistory⟩,
    w', v', u', hhistory', hsettles', hreaches', hlawful.2 _ _ _ hhistory'⟩

end Formula
