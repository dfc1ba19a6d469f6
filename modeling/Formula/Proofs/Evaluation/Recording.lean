import Formula.Proofs.Evaluation.Reference
import Formula.Proofs.Evaluation.Simulation

/-! A host that notes the values it returns. Main statement: with no notice taken of the notes, a
formula that is built and evaluated for it gives the results it gives for the host itself. -/
namespace Formula

variable {σ τ ν α β : Type}

/-- The second action does to a part of the state what the first does to all of it. -/
def Projects (view : σ → τ) (x : Action σ α) (y : Action τ α) : Prop :=
  ∀ s, y.run (view s) = ((x.run s).1, view (x.run s).2)

namespace Projects

open Formula.Tree

variable {view : σ → τ}

theorem pure (value : α) : Projects view (pure value) (pure value) := fun _ => rfl

theorem throw (error : Error) :
    Projects view (throw error : Action σ α) (throw error : Action τ α) := fun _ => rfl

theorem bind {x : Action σ α} {y : Action τ α} {f : α → Action σ β} {g : α → Action τ β}
    (h : Projects view x y) (hf : ∀ v, Projects view (f v) (g v)) :
    Projects view (x >>= f) (y >>= g) := by
  intro s
  have hs := h s
  rcases hrun : x.run s with ⟨error | value, s'⟩ <;> rw [hrun] at hs
  · rw [Action.run_bind_error hrun, Action.run_bind_error hs]
  · rw [Action.run_bind_ok hrun, Action.run_bind_ok hs, hf value s']

variable {m : Meaning σ ν} {m' : Meaning τ ν}

mutual

theorem evaluate (hcall : ∀ symbol args, Projects view (m.call symbol args) (m'.call symbol args))
    (t : Tree ν) : Projects view (t.evaluate m) (t.evaluate m') := by
  cases t with
  | literal value => exact .pure value
  | malformed error source => exact .throw error
  | apply symbol args =>
    rw [Tree.evaluate, Tree.evaluate]
    exact (evaluateAll hcall args).bind (hcall symbol)

theorem evaluateAll
    (hcall : ∀ symbol args, Projects view (m.call symbol args) (m'.call symbol args))
    (ts : List (Tree ν)) : Projects view (evaluateAll m ts) (evaluateAll m' ts) := by
  cases ts with
  | nil => exact .pure []
  | cons t ts =>
    rw [Tree.evaluateAll, Tree.evaluateAll]
    refine (evaluate hcall t).bind fun value => ?_
    exact (evaluateAll hcall ts).bind fun values => .pure (value :: values)

end

theorem foldCall (hcall : ∀ symbol args, Projects view (m.call symbol args) (m'.call symbol args))
    (hpure : m.isPure = m'.isPure) (symbol : Symbol) (args : List (Tree ν)) (s : σ) :
    foldCall m' symbol args (view s) =
      ((foldCall m symbol args s).1, view (foldCall m symbol args s).2) := by
  unfold Tree.foldCall
  rw [hpure]
  cases m'.isPure symbol with
  | false => rfl
  | true =>
    cases literals? args with
    | none => rfl
    | some values =>
      simp only [if_true, Action.bind_apply]
      have hs : (m'.call symbol values).run (view s) =
          (((m.call symbol values).run s).1, view ((m.call symbol values).run s).2) :=
        hcall symbol values s
      rw [hs]
      cases ((m.call symbol values).run s).1 <;> rfl

mutual

theorem fold (hcall : ∀ symbol args, Projects view (m.call symbol args) (m'.call symbol args))
    (hpure : m.isPure = m'.isPure) (t : Tree ν) (s : σ) :
    t.fold m' (view s) = ((t.fold m s).1, view (t.fold m s).2) := by
  cases t with
  | literal value => rfl
  | malformed error source => rfl
  | apply symbol args =>
    rw [fold_apply, fold_apply, foldAll hcall hpure args s]
    exact foldCall hcall hpure symbol _ _

theorem foldAll (hcall : ∀ symbol args, Projects view (m.call symbol args) (m'.call symbol args))
    (hpure : m.isPure = m'.isPure) (ts : List (Tree ν)) (s : σ) :
    foldAll m' ts (view s) = ((foldAll m ts s).1, view (foldAll m ts s).2) := by
  cases ts with
  | nil => rfl
  | cons t ts =>
    rw [foldAll_cons, foldAll_cons, fold hcall hpure t s]
    dsimp only
    rw [foldAll hcall hpure ts]

end

end Projects

namespace Mixed

/-- The values that the functions and the evaluator of a host returned, next to its state. -/
abbrev Noted (σ : Type) := σ × List Value

/-- Runs an action of the host and notes what comes of it. -/
def noting (values : α → List Value) (action : Action σ α) : Action (Noted σ) α :=
  fun state =>
    ((action.run state.1).1, (action.run state.1).2,
      state.2 ++ match (action.run state.1).1 with
        | .ok result => values result
        | .error _ => [])

/-- The same handler for a host that notes what it returns. -/
def Handler.noting : Handler σ → Handler (Noted σ)
  | numeric f => numeric fun args => Mixed.noting (fun _ => []) (f args)
  | general f => general fun args => Mixed.noting (fun v => [v]) (f args)
  | evaluator ask => evaluator fun args => Mixed.noting Option.toList (ask args)
  | operator f => operator f
  | library f => library f
  | subscript value => subscript value

namespace Bindings

/-- The same bindings for a host that notes what it returns. -/
def recording (b : Bindings σ) : Bindings (Noted σ) where
  options := b.options
  constants := b.constants
  numericSymbols := b.numericSymbols.map fun (symbol, f) =>
    (symbol, fun args => noting (fun _ => []) (f args))
  symbols := b.symbols.map fun (symbol, f) => (symbol, fun args => noting (fun v => [v]) (f args))
  evaluator := b.evaluator.map fun ask symbol args => noting Option.toList (ask symbol args)

theorem lookup_map {κ γ δ : Type} [BEq κ] (entries : List (κ × γ)) (f : γ → δ) (key : κ) :
    (entries.map fun (key, value) => (key, f value)).lookup key = (entries.lookup key).map f := by
  induction entries with
  | nil => rfl
  | cons entry entries ih =>
    obtain ⟨other, value⟩ := entry
    rw [List.map_cons, List.lookup_cons, List.lookup_cons]
    split
    · rfl
    · exact ih

theorem toList_map_map {γ δ ε : Type} (o : Option γ) (f : γ → δ) (g : δ → ε) :
    (o.map f).toList.map g = (o.map fun x => g (f x)).toList := by
  cases o <;> rfl

theorem handlers_recording (b : Bindings σ) (symbol : Symbol) :
    b.recording.handlers symbol = (b.handlers symbol).map Handler.noting := by
  have hsub : b.recording.subscripted? symbol = b.subscripted? symbol := rfl
  unfold handlers
  rw [hsub]
  cases b.subscripted? symbol with
  | some value => rfl
  | none =>
    have hnumeric := lookup_map b.numericSymbols
      (fun f args => noting (fun _ => []) (f args)) symbol
    have hgeneral := lookup_map b.symbols (fun f args => noting (fun v => [v]) (f args)) symbol
    dsimp only [recording]
    simp only [hnumeric, hgeneral, List.map_append, toList_map_map, Option.map_map,
      Function.comp_def, Handler.noting]

end Bindings

/-! ### Without the notes -/

variable {h : Handler σ}

@[simp] theorem Handler.isEvaluator_noting (h : Handler σ) :
    h.noting.isEvaluator = h.isEvaluator := by
  cases h <;> rfl

@[simp] theorem Handler.isLibrary_noting (h : Handler σ) : h.noting.isLibrary = h.isLibrary := by
  cases h <;> rfl

@[simp] theorem Handler.isNumeric_noting (h : Handler σ) : h.noting.isNumeric = h.isNumeric := by
  cases h <;> rfl

@[simp] theorem Handler.isPure_noting (h : Handler σ) (trusted : Bool) :
    h.noting.isPure trusted = h.isPure trusted := by
  cases h <;> rfl

theorem projects_noting (values : α → List Value) (action : Action σ α) :
    Projects Prod.fst (noting values action) action := fun _ => rfl

theorem projects_liftExcept {view : σ → τ} (result : Except Error α) :
    Projects view (Handler.liftExcept result) (Handler.liftExcept result) := by
  cases result with
  | ok value => exact .pure value
  | error error => exact .throw error

theorem Handler.projects_noting (h : Handler σ) (symbol : Symbol) (words : List Word)
    (values : List Value) :
    Projects Prod.fst (h.noting.call symbol words values) (h.call symbol words values) := by
  cases h with
  | numeric f =>
    rw [noting, call, call]
    split
    · exact (Mixed.projects_noting _ _).bind fun value => .pure _
    · exact .pure none
  | general f => exact (Mixed.projects_noting _ _).bind fun value => .pure _
  | evaluator ask => exact Mixed.projects_noting _ _
  | operator f => exact projects_liftExcept _
  | library f =>
    rw [noting, call, call]
    split
    · exact .pure _
    · exact .throw _
  | subscript value => exact projects_liftExcept _

/-- The host without its notes. -/
def unnoted (m : Formula.Memory (Noted σ)) : Formula.Memory σ := ⟨m.host.1, m.settled⟩

def Memory.unnoted (m : Memory (Noted σ)) : Memory σ := ⟨Mixed.unnoted m.toMemory, m.table⟩

namespace Memory

theorem run_onBase (action : Action (Formula.Memory σ) α) (m : Memory σ) :
    (onBase action).run m =
      ((action.run m.toMemory).1, { m with toMemory := (action.run m.toMemory).2 }) := rfl

theorem onBase_bind (x : Action (Formula.Memory σ) α) (f : α → Action (Formula.Memory σ) β) :
    onBase (x >>= f) = onBase x >>= fun value => onBase (f value) := by
  funext m
  change (onBase (x >>= f)).run m = (onBase x >>= fun value => onBase (f value)).run m
  rcases hrun : x.run m.toMemory with ⟨error | value, base⟩
  · have hbase : (onBase x).run m = (.error error, { m with toMemory := base }) := by
      rw [run_onBase, hrun]
    rw [Action.run_bind_error hbase, run_onBase, Action.run_bind_error hrun]
  · have hbase : (onBase x).run m = (.ok value, { m with toMemory := base }) := by
      rw [run_onBase, hrun]
    rw [Action.run_bind_ok hbase, run_onBase, run_onBase, Action.run_bind_ok hrun]

end Memory

namespace Bindings

/-- What handlers are asked leaves the table alone. -/
theorem answer_eq (b : Bindings σ) (symbol : Symbol) (words : List Word) (values : List Value)
    (declined : Bool) (handlers : List (Handler σ)) :
    b.answer symbol words values declined handlers =
      Memory.onBase (b.firstAnswer symbol words values declined handlers) := by
  induction handlers generalizing declined with
  | nil => rfl
  | cons handler handlers ih =>
    rw [answer, firstAnswer, Memory.onBase_bind]
    refine congrArg _ (funext fun settled => ?_)
    split
    · exact ih declined
    · rw [Memory.onBase_bind]
      refine congrArg _ (funext fun result => ?_)
      cases result with
      | none => exact ih _
      | some value =>
        dsimp only
        split
        · rfl
        · rfl

theorem projects_firstAnswer (b : Bindings σ) (symbol : Symbol) (words : List Word)
    (values : List Value) (declined : Bool) (handlers : List (Handler σ)) :
    Projects unnoted
      (b.recording.firstAnswer symbol words values declined (handlers.map Handler.noting))
      (b.firstAnswer symbol words values declined handlers) := by
  have hsettled : Projects unnoted (Formula.Memory.isSettled symbol : Action _ Bool)
      (Formula.Memory.isSettled symbol : Action (Formula.Memory σ) Bool) := fun _ => rfl
  have hsettle : Projects unnoted (Formula.Memory.settle symbol)
      (Formula.Memory.settle symbol : Action (Formula.Memory σ) Unit) := fun _ => rfl
  have honHost : ∀ h : Handler σ, Projects unnoted
      (Formula.Memory.onHost (h.noting.call symbol words values))
      (Formula.Memory.onHost (h.call symbol words values)) := by
    intro h m
    have hm := h.projects_noting symbol words values m.host
    exact congrArg (fun p => (p.1, { unnoted m with host := p.2 })) hm
  induction handlers generalizing declined with
  | nil => exact .pure none
  | cons h handlers ih =>
    rw [List.map_cons, firstAnswer, firstAnswer, Handler.isEvaluator_noting,
      Handler.isLibrary_noting]
    refine hsettled.bind fun settled => ?_
    split
    · exact ih declined
    · refine (honHost h).bind fun answer => ?_
      cases answer with
      | none => exact ih _
      | some value =>
        change Projects unnoted (if _ then _ else _) (if _ then _ else _)
        by_cases hsettles : declined && b.options.optimize && h.isLibrary
        · have hsettles' : declined && b.recording.options.optimize && h.isLibrary := hsettles
          rw [if_pos hsettles, if_pos hsettles']
          exact hsettle.bind fun _ => .pure _
        · have hsettles' : ¬ (declined && b.recording.options.optimize && h.isLibrary) := hsettles
          rw [if_neg hsettles, if_neg hsettles']
          exact .pure _

/-- The error of a symbol that all its handlers decline. -/
def declined (b : Bindings σ) (symbol : Symbol) (values : List Value) : Error :=
  if (b.handlers symbol).any Handler.isNumeric then .mismatch symbol values else b.missing symbol

theorem run_dispatch (b : Bindings σ) (symbol : Symbol) (words : List Word) (m : Memory σ) :
    (b.dispatch symbol words).run m =
      let values := words.map m.table.unbox
      let p := (b.firstAnswer symbol words values false (b.handlers symbol)).run m.toMemory
      match p.1 with
      | .ok (some value) => (.ok (m.table.box value).1, ⟨p.2, (m.table.box value).2⟩)
      | .ok none => (.error (b.declined symbol values), ⟨p.2, m.table⟩)
      | .error error => (.error error, ⟨p.2, m.table⟩) := by
  have hget : (get : Action (Memory σ) (Memory σ)).run m = (.ok m, m) := rfl
  unfold dispatch
  dsimp only
  rw [Action.run_bind_ok hget, answer_eq]
  generalize hp : (b.firstAnswer symbol words _ false (b.handlers symbol)).run m.toMemory = p
  obtain ⟨error | _ | value, base⟩ := p
  · rw [Action.run_bind_error (by rw [Memory.run_onBase, hp])]
  · rw [Action.run_bind_ok (by rw [Memory.run_onBase, hp])]
    rfl
  · rw [Action.run_bind_ok (by rw [Memory.run_onBase, hp])]
    rfl

theorem declined_recording (b : Bindings σ) (symbol : Symbol) :
    b.recording.declined symbol = b.declined symbol := by
  funext values
  have hnumeric : (b.recording.handlers symbol).any Handler.isNumeric =
      (b.handlers symbol).any Handler.isNumeric := by
    simp only [handlers_recording, List.any_map, Function.comp_def, Handler.isNumeric_noting]
  have hmissing : b.recording.missing symbol = b.missing symbol := by
    simp only [missing, recording, List.map_map, Function.comp_def]
  rw [declined, declined, hnumeric, hmissing]

theorem isPure_recording (b : Bindings σ) : b.recording.isPure = b.isPure := by
  funext symbol
  unfold isPure
  simp only [handlers_recording, List.all_map, Function.comp_def, Handler.isPure_noting,
    List.isEmpty_map]
  rfl

theorem projects_call (b : Bindings σ) (words : Words) (symbol : Symbol) (args : List Word) :
    Projects Memory.unnoted ((b.recording.meaning words).call symbol args)
      ((b.meaning words).call symbol args) := by
  unfold meaning
  dsimp only
  cases words.lookup symbol with
  | some word => exact .pure word
  | none =>
    intro m
    have hanswer := b.projects_firstAnswer symbol args (args.map m.table.unbox) false
      (b.handlers symbol) m.toMemory
    rw [← handlers_recording] at hanswer
    dsimp only
    rw [run_dispatch, run_dispatch, declined_recording]
    dsimp only [Memory.unnoted]
    rw [hanswer]
    dsimp only
    split <;> rfl

theorem boxConstants_recording (b : Bindings σ) (symbols : List Symbol) (m : Memory (Noted σ)) :
    b.boxConstants symbols m.unnoted =
      ((b.recording.boxConstants symbols m).1, (b.recording.boxConstants symbols m).2.unnoted) := by
  have hconstant : b.recording.constant? = b.constant? := rfl
  induction symbols generalizing m with
  | nil => rfl
  | cons symbol symbols ih =>
    rw [boxConstants, boxConstants, hconstant]
    cases b.constant? symbol with
    | none => exact ih m
    | some value =>
      have hbox := ih (Memory.box value m).2
      simp only [Action.bind_apply]
      exact congrArg (fun p => ((symbol, (Memory.box value m).1) :: p.1, p.2)) hbox

end Bindings

namespace Expression

/-- The tree of a formula, with the state once it is made. -/
def folded (b : Bindings σ) (words : Bindings.Words) (tree : Tree Word) (m : Memory σ) :
    Tree Word × Memory σ :=
  if b.options.optimize then tree.fold (b.meaning words) m else (tree, m)

theorem build_eq (b : Bindings σ) (tree : Tree Float) (m : Memory σ) :
    build b tree m =
      let c := b.boxConstants tree.symbols m
      let f := folded b c.1 (tree.map Word.ofNumber) c.2
      (⟨b, c.1, f.1⟩, { f.2 with table := f.2.table.freeze }) := by
  unfold build folded
  rw [Action.bind_apply]
  cases b.options.optimize <;> rfl

theorem folded_recording (b : Bindings σ) (words : Bindings.Words) (tree : Tree Word)
    (m : Memory (Noted σ)) :
    folded b words tree m.unnoted =
      ((folded b.recording words tree m).1, (folded b.recording words tree m).2.unnoted) := by
  have hpure : (b.recording.meaning words).isPure = (b.meaning words).isPure := by
    unfold Bindings.meaning
    rw [Bindings.isPure_recording]
    rfl
  have hoptimize : b.recording.options.optimize = b.options.optimize := rfl
  unfold folded
  rw [hoptimize]
  cases b.options.optimize with
  | true => exact Projects.fold (b.projects_call words) hpure tree m
  | false => rfl

/-- The results of one evaluation after another, before each of which the host takes a step, each
with the number of values in the table when the evaluation ends. -/
def trace (e : Expression σ) :
    List (σ → σ) → Memory σ → List (Except Error Value × Nat) × Memory σ
  | [], memory => ([], memory)
  | step :: steps, memory =>
    let start := { memory with host := step memory.host }
    let size := ((e.tree.evaluate (e.bindings.meaning e.words)).run start).2.table.values.size
    let (result, memory) := e.evaluate.run start
    let (others, memory) := e.trace steps memory
    ((result, size) :: others, memory)

theorem trace_cons (e : Expression σ) (step : σ → σ) (steps : List (σ → σ)) (m : Memory σ) :
    e.trace (step :: steps) m =
      let p := (e.tree.evaluate (e.bindings.meaning e.words)).run { m with host := step m.host }
      let q := e.trace steps { p.2 with table := p.2.table.reset }
      ((p.1.map p.2.table.unbox, p.2.table.values.size) :: q.1, q.2) := rfl

/-- A step of the host leaves the notes as they are. -/
def noted (step : σ → σ) (state : Noted σ) : Noted σ := (step state.1, state.2)

theorem trace_recording (b : Bindings σ) (words : Bindings.Words) (tree : Tree Word)
    (steps : List (σ → σ)) (m : Memory (Noted σ)) :
    (trace ⟨b, words, tree⟩ steps m.unnoted).1 =
      (trace ⟨b.recording, words, tree⟩ (steps.map noted) m).1 := by
  induction steps generalizing m with
  | nil => rfl
  | cons step steps ih =>
    let start : Memory (Noted σ) := { m with host := noted step m.host }
    have hrun : (tree.evaluate (b.meaning words)).run start.unnoted =
        (((tree.evaluate (b.recording.meaning words)).run start).1,
          ((tree.evaluate (b.recording.meaning words)).run start).2.unnoted) :=
      Projects.evaluate (b.projects_call words) tree start
    have hstart : { m.unnoted with host := step m.unnoted.host } = start.unnoted := rfl
    rw [List.map_cons, trace_cons, trace_cons]
    dsimp only
    rw [hstart, hrun]
    exact congrArg (_ :: ·) (ih { ((tree.evaluate (b.recording.meaning words)).run start).2 with
      table := ((tree.evaluate (b.recording.meaning words)).run start).2.table.reset })

end Expression

namespace Bindings

/-- The trace of a formula that is built for a host in the given state. -/
def trace (b : Bindings σ) (tree : Tree Float) (steps : List (σ → σ)) (host : σ) :
    List (Except Error Value × Nat) × Memory σ :=
  let (e, memory) := Expression.build b tree { host }
  e.trace steps memory

/-- What the functions and the evaluator of the host return while a formula is built and
evaluated. -/
def returned (b : Bindings σ) (tree : Tree Float) (steps : List (σ → σ)) (host : σ) : List Value :=
  (b.recording.trace tree (steps.map Expression.noted) (host, [])).2.host.2

theorem trace_recording (b : Bindings σ) (tree : Tree Float) (steps : List (σ → σ)) (host : σ) :
    (b.recording.trace tree (steps.map Expression.noted) (host, [])).1 =
      (b.trace tree steps host).1 := by
  have hconstants := b.boxConstants_recording tree.symbols { host := (host, []) }
  have hfolded := Expression.folded_recording b
    (b.recording.boxConstants tree.symbols { host := (host, []) }).1 (tree.map Word.ofNumber)
    (b.recording.boxConstants tree.symbols { host := (host, []) }).2
  unfold trace
  simp only [Expression.build_eq]
  rw [show ({ host } : Memory σ) = Memory.unnoted { host := (host, []) } from rfl, hconstants]
  dsimp only
  rw [hfolded]
  exact (Expression.trace_recording b _ _ steps _).symm

end Bindings
end Mixed
end Formula
