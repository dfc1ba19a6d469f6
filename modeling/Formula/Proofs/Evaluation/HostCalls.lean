import Formula.Proofs.Evaluation.Agreement
import Formula.Proofs.Evaluation.Visits

/-! The calls of a host during one evaluation. Main statement: they are those of the nodes that the
evaluation comes to, which it does in post-order, whatever values conditions have, once each, and
until the first error. -/
namespace Formula

variable {σ α : Type}

/-! ### A host that lists its calls -/

/-- The same binding for a host that lists its calls. -/
def Binding.logging (symbol : Symbol) : Binding σ → Binding (σ × List HostCall)
  | .constant value => .constant value
  | .array values => .array values
  | .host f => .host fun args => logged (.function symbol (args.map .number)) (f args)
  | .evaluator ask fallback missing =>
    .evaluator (fun args => logged (.evaluator symbol (args.map .number)) (ask args)) fallback
      missing
  | .library f => .library f
  | .unbound error => .unbound error

/-- The memory without the list of calls. -/
def unlogged (m : Memory (σ × List HostCall)) : Memory σ := ⟨m.host.1, m.settled⟩

theorem projects_logged (call : HostCall) (action : Action σ α) :
    Projects unlogged (Memory.onHost (logged call action)) (Memory.onHost action) := fun _ => rfl

theorem lookup_mapWithKey {κ γ δ : Type} [BEq κ] [LawfulBEq κ] (entries : List (κ × γ))
    (f : κ → γ → δ) (key : κ) :
    (entries.map fun (key, value) => (key, f key value)).lookup key =
      (entries.lookup key).map (f key) := by
  induction entries with
  | nil => rfl
  | cons entry entries ih =>
    obtain ⟨other, value⟩ := entry
    rw [List.map_cons, List.lookup_cons, List.lookup_cons]
    cases h : key == other with
    | true =>
      obtain rfl := eq_of_beq h
      rfl
    | false => exact ih

namespace Bindings

variable (b : Bindings σ) (symbol : Symbol) (args : List Float)

theorem missing_logging : b.logging.missing symbol = b.missing symbol := by
  simp only [missing, logging, List.map_map, Function.comp_def]

theorem resolve_logging : b.logging.resolve symbol = (b.resolve symbol).logging symbol := by
  have hdata : b.logging.data? symbol = (b.data? symbol).map (Binding.logging symbol) := by
    cases symbol with
    | var name => cases h : b.constants.lookup name <;> simp [data?, logging, h, Binding.logging]
    | array name => cases h : b.arrays.lookup name <;> simp [data?, logging, h, Binding.logging]
    | _ => rfl
  have hsymbols := lookup_mapWithKey b.symbols (fun symbol f (args : List Float) =>
    logged (.function symbol (args.map .number)) (f args)) symbol
  have hlibrary : Library.lookup? b.logging.options symbol = Library.lookup? b.options symbol := rfl
  have hevaluator : b.logging.evaluator = b.evaluator.map fun ask symbol args =>
    logged (.evaluator symbol (args.map .number)) (ask symbol args) := rfl
  unfold resolve
  rw [hdata, hlibrary, hevaluator, missing_logging]
  dsimp only [logging]
  rw [hsymbols]
  cases b.data? symbol with
  | some data => rfl
  | none =>
    cases b.symbols.lookup symbol with
    | some f => rfl
    | none =>
      cases b.evaluator with
      | some ask => rfl
      | none => cases Library.lookup? b.options symbol <;> rfl

/-- What comes of the answer of an evaluator. If it declines, the library answers. -/
def answered (fallback : Option Library.Function) (missing : Error) (args : List Float) :
    Except Error (Option Float) → Except Error Float
  | .ok (some value) => .ok value
  | .ok none =>
    match fallback with
    | some f => .ok (f args)
    | none => .error missing
  | .error error => .error error

/-- Whether the evaluator leaves a symbol to the library that knows it. -/
def givesOver (fallback : Option Library.Function) : Except Error (Option Float) → Bool
  | .ok none => fallback.isSome
  | _ => false

theorem run_callEvaluator (settles : Bool) (symbol : Symbol)
    (ask : List Float → Action σ (Option Float)) (fallback : Option Library.Function)
    (missing : Error) (args : List Float) (m : Memory σ) :
    (callEvaluator settles symbol ask fallback missing args).run m =
      if fallback.isSome && m.settled.contains symbol then
        (answered fallback missing args (.ok none), m)
      else
        (answered fallback missing args ((ask args).run m.host).1,
          ⟨((ask args).run m.host).2,
            if settles && givesOver fallback ((ask args).run m.host).1 then symbol :: m.settled
            else m.settled⟩) := by
  cases fallback with
  | none =>
    rw [run_callEvaluator_none]
    rcases (ask args).run m.host with ⟨error | _ | value, h⟩ <;> cases settles <;> rfl
  | some f =>
    rw [run_callEvaluator_some]
    cases m.settled.contains symbol with
    | true => rfl
    | false => rcases (ask args).run m.host with ⟨error | _ | value, h⟩ <;> cases settles <;> rfl

/-- Listing calls changes nothing else. -/
theorem projects_call_logging :
    Projects unlogged (b.logging.call symbol args) (b.call symbol args) := by
  unfold call
  rw [resolve_logging]
  cases b.resolve symbol with
  | constant value => exact .pure value
  | array values =>
    dsimp only [Binding.logging, call.liftExcept]
    cases element symbol values args with
    | ok value => exact .pure value
    | error error => exact .throw error
  | host f => exact projects_logged _ _
  | evaluator ask fallback missing =>
    intro m
    dsimp only [Binding.logging]
    rw [run_callEvaluator, run_callEvaluator]
    by_cases hs : (fallback.isSome && m.settled.contains symbol) = true
    · have hs' : (fallback.isSome && (unlogged m).settled.contains symbol) = true := hs
      rw [if_pos hs, if_pos hs']
    · have hs' : ¬ (fallback.isSome && (unlogged m).settled.contains symbol) = true := hs
      rw [if_neg hs, if_neg hs']
      rfl
  | library f => exact .pure _
  | unbound error => exact .throw error

/-- The call of the host that a symbol makes, of a function or of an evaluator that is still
asked. -/
def hostCall? (settled : List Symbol) : Option HostCall :=
  match b.resolve symbol with
  | .host _ => some (.function symbol (args.map .number))
  | .evaluator _ fallback _ =>
    if fallback.isSome && settled.contains symbol then none
    else some (.evaluator symbol (args.map .number))
  | _ => none

/-- A call of a symbol adds to the list what it asks of the host. -/
theorem log_call (m : Memory (σ × List HostCall)) :
    ((b.logging.call symbol args).run m).2.host.2 =
      m.host.2 ++ (b.hostCall? symbol args m.settled).toList := by
  unfold call hostCall?
  rw [resolve_logging]
  cases b.resolve symbol with
  | constant value => exact (List.append_nil _).symm
  | array values =>
    dsimp only [Binding.logging]
    rw [run_liftExcept]
    exact (List.append_nil _).symm
  | host f => rfl
  | evaluator ask fallback missing =>
    dsimp only [Binding.logging]
    rw [run_callEvaluator]
    cases fallback.isSome && m.settled.contains symbol with
    | true => exact (List.append_nil _).symm
    | false => rfl
  | library f => exact (List.append_nil _).symm
  | unbound error => exact (List.append_nil _).symm

theorem isPure_logging : b.logging.isPure = b.isPure := by
  funext symbol
  unfold isPure
  rw [resolve_logging]
  cases b.resolve symbol <;> rfl

/-- A formula is built and evaluated for a host that lists its calls as it is for the host. -/
theorem build_logging (tree : Tree Float) (m : Memory (σ × List HostCall)) :
    Expression.build b tree (unlogged m) =
      (⟨b, (Expression.build b.logging tree m).1.tree⟩,
        unlogged (Expression.build b.logging tree m).2) := by
  have hoptimize : b.logging.options.optimize = b.options.optimize := rfl
  have hpure : b.logging.meaning.isPure = b.meaning.isPure := b.isPure_logging
  have hfold := Projects.fold b.projects_call_logging hpure tree m
  rw [build_eq, build_eq, hoptimize]
  dsimp only
  split
  · rw [hfold]
  · rfl

theorem evaluate_logging (tree : Tree Float) :
    Projects unlogged (Expression.evaluate ⟨b.logging, tree⟩) (Expression.evaluate ⟨b, tree⟩) :=
  Projects.evaluate b.projects_call_logging tree

/-- The call of the host that a visited node makes. -/
def visitCall? (v : Visit (Memory (σ × List HostCall)) Float) : Option HostCall :=
  match v.node with
  | .apply symbol _ => b.hostCall? symbol v.args v.before.settled
  | _ => none

variable {symbol} in
theorem visitCall?_of_apply {v : Visit (Memory (σ × List HostCall)) Float}
    {args : List (Tree Float)} (h : v.node = .apply symbol args) :
    b.visitCall? v = b.hostCall? symbol v.args v.before.settled := by
  rw [visitCall?, h]

theorem log_visit {v : Visit (Memory (σ × List HostCall)) Float}
    {earlier : List (Visit (Memory (σ × List HostCall)) Float)}
    (h : v.Sound b.logging.meaning earlier) :
    v.after.host.2 = v.before.host.2 ++ (b.visitCall? v).toList := by
  cases h with
  | literal => exact (List.append_nil _).symm
  | malformed => exact (List.append_nil _).symm
  | call => exact b.log_call _ _ _

/-- An evaluation makes the calls of the nodes that it comes to. -/
theorem log_evaluate (tree : Tree Float) (m : Memory (σ × List HostCall)) :
    ((tree.evaluate b.logging.meaning).run m).2.host.2 =
      m.host.2 ++ (tree.visits b.logging.meaning m).filterMap b.visitCall? := by
  rw [List.filterMap_eq_flatMap_toList]
  refine (tree.walk_visits b.logging.meaning m).linked.log (fun m => m.host.2) ?_
  exact fun v hv => b.log_visit (Tree.sound_of_visit hv)

theorem evaluate_build (tree : Tree Float) (start : Memory σ) :
    (Expression.build b tree start).1.evaluate =
      (Expression.build b tree start).1.tree.evaluate b.meaning := by
  rw [build_eq]
  rfl

/-- Every evaluation of a built formula comes to the nodes of its tree in post-order, to each once,
and calls the host for those bound to one of its functions or to its evaluator, unless that is
settled for the symbol by then. Arguments were computed before. All nodes are come to if there is a
value; otherwise the last one has failed with the error of the evaluation, and no other has. -/
theorem evaluate_hostCalls (tree : Tree Float) (start m : Memory (σ × List HostCall)) :
    let e := (Expression.build b.logging tree start).1
    let p := e.evaluate.run m
    let vs := e.tree.visits b.logging.meaning m
    (vs.map Visit.place).Nodup ∧
    Walk b.logging.meaning e.tree.postorder m vs p.1 p.2 ∧
    p.2.host.2 = m.host.2 ++ vs.filterMap b.visitCall? ∧
    (Expression.build b tree (unlogged start)).1 = ⟨b, e.tree⟩ ∧
    (Expression.evaluate ⟨b, e.tree⟩).run (unlogged m) = (p.1, unlogged p.2) := by
  intro e p vs
  have hevaluate : e.evaluate = e.tree.evaluate b.logging.meaning := evaluate_build ..
  have hwalk : Walk b.logging.meaning e.tree.postorder m vs p.1 p.2 := by
    unfold p
    rw [hevaluate]
    exact e.tree.walk_visits b.logging.meaning m
  have hlog : p.2.host.2 = m.host.2 ++ vs.filterMap b.visitCall? := by
    unfold p
    rw [hevaluate]
    exact b.log_evaluate e.tree m
  have hplain : (Expression.evaluate ⟨b, e.tree⟩).run (unlogged m) = (p.1, unlogged p.2) := by
    unfold p
    rw [hevaluate]
    exact b.evaluate_logging e.tree m
  exact ⟨e.tree.nodup_visits _ m, hwalk, hlog, congrArg Prod.fst (b.build_logging tree start),
    hplain⟩

end Bindings
end Formula
