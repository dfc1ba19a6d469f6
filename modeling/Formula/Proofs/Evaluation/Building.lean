import Formula.Proofs.Evaluation.Folding
import Formula.Proofs.Evaluation.HostCalls

/-! The calls of a host while a formula is built. Main statement: only trusted functions are called,
for the nodes whose arguments fold to literals; no evaluation repeats a call that gave a value, and
every evaluation that comes to a node whose call failed makes that call again. -/
namespace Formula

variable {σ : Type}

namespace Bindings

variable (b : Bindings σ) {symbol : Symbol}

/-- The symbol of a function of the host, other than a variable. -/
def Callable (symbol : Symbol) : Prop :=
  (∃ f, b.resolve symbol = .host f) ∧ ∀ name, symbol ≠ .var name

theorem isPure_of_host {f : List Float → Action σ Float} (h : b.resolve symbol = .host f) :
    b.isPure symbol = true ↔ b.options.optimize = true ∧ b.options.pureSymbols = true ∧
      ∀ name, symbol ≠ .var name := by
  unfold isPure
  rw [h]
  cases symbol <;> simp

/-- A pure call asks nothing of the host, unless a trusted function of it is called. -/
theorem hostCall?_of_pure (hpure : b.isPure symbol = true) (args : List Float)
    (settled : List Symbol) :
    b.hostCall? symbol args settled = none ∧ ¬ b.Callable symbol ∨
      b.hostCall? symbol args settled = some (.function symbol (args.map .number)) ∧
        b.Callable symbol ∧ b.options.optimize = true ∧ b.options.pureSymbols = true := by
  unfold hostCall?
  cases h : b.resolve symbol with
  | host f =>
    obtain ⟨hoptimize, htrusted, hvar⟩ := (b.isPure_of_host h).1 hpure
    exact .inr ⟨rfl, ⟨⟨f, h⟩, hvar⟩, hoptimize, htrusted⟩
  | evaluator ask fallback missing => simp [isPure, h] at hpure
  | unbound error => simp [isPure, h] at hpure
  | _ => exact .inl ⟨rfl, fun ⟨⟨f, hf⟩, _⟩ => by rw [h] at hf; cases hf⟩

section
variable {b} {tree : Tree Float} {start : Memory (σ × List HostCall)}
  {v : Visit (Memory (σ × List HostCall)) Float}

theorem pure_of_foldVisit (hv : v ∈ tree.foldVisits b.logging.meaning start) :
    ∃ symbol args, v.node = .apply symbol args ∧ b.isPure symbol = true := by
  obtain ⟨symbol, args, hnode, hpure, -⟩ := (tree.folding b.logging.meaning start).run.calls v hv
  exact ⟨symbol, args, hnode, b.isPure_logging ▸ hpure⟩

theorem function_of_foldVisit (hv : v ∈ tree.foldVisits b.logging.meaning start) {call : HostCall}
    (hcall : b.visitCall? v = some call) :
    ∃ symbol args, v.node = .apply symbol args ∧ b.Callable symbol ∧
      call = .function symbol (v.args.map .number) := by
  obtain ⟨symbol, args, hnode, hpure⟩ := pure_of_foldVisit hv
  rw [b.visitCall?_of_apply hnode] at hcall
  rcases b.hostCall?_of_pure hpure v.args v.before.settled with ⟨hnone, -⟩ | ⟨hsome, hcallable, -⟩
  · rw [hnone] at hcall
    cases hcall
  · rw [hsome] at hcall
    exact ⟨symbol, args, hnode, hcallable, (Option.some.inj hcall).symm⟩

/-- If functions of the host are trusted, those of the nodes are called whose arguments fold. -/
theorem called_iff (hoptimize : b.options.optimize = true)
    (htrusted : b.options.pureSymbols = true) {q : Place} {args : List (Tree Float)}
    (hnode : tree.at? q = some (.apply symbol args)) :
    (∃ v ∈ tree.foldVisits b.logging.meaning start, v.place = q ∧ (b.visitCall? v).isSome) ↔
      b.Callable symbol ∧ ∀ i < args.length, ∃ x,
        tree.FoldsTo (tree.foldVisits b.logging.meaning start) (i :: q) x := by
  have hcalled := (tree.folding b.logging.meaning start).called hnode
  constructor
  · rintro ⟨v, hv, hplace, hcall⟩
    obtain ⟨call, hcall⟩ := Option.isSome_iff_exists.1 hcall
    obtain ⟨other, others, hother, hcallable, -⟩ := function_of_foldVisit hv hcall
    have hsame := (hplace ▸ Tree.at?_of_foldVisit hv).symm.trans hnode
    obtain ⟨rfl, rfl⟩ := Tree.apply.inj (hother.symm.trans (Option.some.inj hsame))
    exact ⟨hcallable, (hcalled.1 ⟨v, hv, hplace⟩).2⟩
  · rintro ⟨⟨⟨f, hf⟩, hvar⟩, hargs⟩
    have hpure : b.logging.isPure symbol = true :=
      b.isPure_logging ▸ (b.isPure_of_host hf).2 ⟨hoptimize, htrusted, hvar⟩
    obtain ⟨v, hv, hplace⟩ := hcalled.2 ⟨hpure, hargs⟩
    have hsame := (hplace ▸ Tree.at?_of_foldVisit hv).symm.trans hnode
    refine ⟨v, hv, hplace, ?_⟩
    rw [b.visitCall?_of_apply (Option.some.inj hsame), hostCall?, hf]
    rfl

/-- A call that failed while the formula was built is made again when its node is come to, and no
other call is. -/
theorem call_again (hv : v ∈ tree.foldVisits b.logging.meaning start) {call : HostCall}
    (hcall : b.visitCall? v = some call) {n : Memory (σ × List HostCall)}
    {w : Visit (Memory (σ × List HostCall)) Float}
    (hw : w ∈ (tree.fold b.logging.meaning start).1.visits b.logging.meaning n)
    (hplace : w.place = v.place) :
    (∀ x, v.result = .ok x → b.visitCall? w = none) ∧
      ∀ error, v.result = .error error → b.visitCall? w = some call := by
  have hfolding := tree.folding b.logging.meaning start
  have hat := hplace ▸ Tree.at?_of_visit hw
  obtain ⟨symbol, args, hnode, ⟨⟨f, hf⟩, -⟩, rfl⟩ := function_of_foldVisit hv hcall
  constructor
  · intro x hx
    rw [visitCall?, hfolding.replaced hv hx hat]
  · intro error herror
    have hleft := Option.some.inj (hat.symm.trans (hfolding.kept hv herror hnode))
    rw [b.visitCall?_of_apply hleft, Tree.args_of_literals hw hleft, hostCall?, hf]

end

/-- Building makes the calls that fold the tree. -/
theorem log_build (tree : Tree Float) (start : Memory (σ × List HostCall))
    (hoptimize : b.options.optimize = true) :
    (Expression.build b.logging tree start).2.host.2 =
      start.host.2 ++ (tree.foldVisits b.logging.meaning start).filterMap b.visitCall? := by
  have hlogging : b.logging.options.optimize = true := hoptimize
  have hrun := (tree.folding b.logging.meaning start).run
  rw [build_eq, hlogging, List.filterMap_eq_flatMap_toList]
  refine hrun.linked.log (fun m => m.host.2) fun v hv => ?_
  obtain ⟨symbol, args, hnode, -, hcall⟩ := hrun.calls v hv
  rw [b.visitCall?_of_apply hnode]
  exact (congrArg (fun p => p.2.host.2) hcall).symm.trans (b.log_call symbol v.args v.before)

/-- A host whose functions are not trusted is not called by a formula that is built. -/
theorem log_build_closed (tree : Tree Float) (start : Memory (σ × List HostCall))
    (hclosed : (b.options.optimize && b.options.pureSymbols) = false) :
    (Expression.build b.logging tree start).2.host.2 = start.host.2 := by
  cases hoptimize : b.options.optimize with
  | false =>
    have hlogging : b.logging.options.optimize = false := hoptimize
    rw [build_eq, hlogging]
    rfl
  | true =>
    rw [hoptimize, Bool.true_and] at hclosed
    have hnone : (tree.foldVisits b.logging.meaning start).filterMap b.visitCall? = [] := by
      rw [List.filterMap_eq_nil_iff]
      intro v hv
      obtain ⟨symbol, args, hnode, hpure⟩ := pure_of_foldVisit hv
      rw [b.visitCall?_of_apply hnode]
      rcases b.hostCall?_of_pure hpure v.args v.before.settled with ⟨hnone, -⟩ | ⟨-, -, -, htrusted⟩
      · exact hnone
      · rw [hclosed] at htrusted
        cases htrusted
    rw [b.log_build tree start hoptimize, hnone, List.append_nil]

/-- What building asks of a host whose functions are trusted: the calls of the nodes whose arguments
fold to literals, with these. An evaluation that comes to the node of such a call makes the same
call again if it failed, and none otherwise. -/
structure Built (tree : Tree Float) (start : Memory (σ × List HostCall))
    (vs : List (Visit (Memory (σ × List HostCall)) Float))
    (e : Expression (σ × List HostCall)) (m : Memory (σ × List HostCall)) : Prop where
  folding : Tree.Folding b.logging.meaning tree start vs e.tree m
  log : m.host.2 = start.host.2 ++ vs.filterMap b.visitCall?
  called : ∀ {q symbol args}, tree.at? q = some (.apply symbol args) →
    ((∃ v ∈ vs, v.place = q ∧ (b.visitCall? v).isSome) ↔
      b.Callable symbol ∧ ∀ i < args.length, ∃ x, tree.FoldsTo vs (i :: q) x)
  function : ∀ {v call}, v ∈ vs → b.visitCall? v = some call → ∃ symbol args,
    tree.at? v.place = some (.apply symbol args) ∧
      call = .function symbol (v.args.map .number) ∧ v.args.length = args.length ∧
      ∀ i x, v.args[i]? = some x → tree.FoldsTo vs (i :: v.place) x
  evaluation : ∀ n : Memory (σ × List HostCall),
    let ws := e.tree.visits b.logging.meaning n
    (e.evaluate.run n).2.host.2 = n.host.2 ++ ws.filterMap b.visitCall? ∧
    ∀ {v call w}, v ∈ vs → b.visitCall? v = some call → w ∈ ws → w.place = v.place →
      (∀ x, v.result = .ok x → b.visitCall? w = none) ∧
      ∀ error, v.result = .error error → b.visitCall? w = some call

/-- Nothing of the host is called while a formula is built, unless it is optimized and functions of
the host are trusted. Then functions are called for the nodes, other than variables, whose
arguments fold to literals. -/
theorem build_hostCalls (tree : Tree Float) (start : Memory (σ × List HostCall)) :
    let built := Expression.build b.logging tree start
    Expression.build b tree (unlogged start) = (⟨b, built.1.tree⟩, unlogged built.2) ∧
    ((b.options.optimize && b.options.pureSymbols) = false → built.2.host.2 = start.host.2) ∧
    ((b.options.optimize && b.options.pureSymbols) = true →
      b.Built tree start (tree.foldVisits b.logging.meaning start) built.1 built.2) := by
  refine ⟨b.build_logging tree start, b.log_build_closed tree start, fun hopen => ?_⟩
  obtain ⟨hoptimize, htrusted⟩ := Bool.and_eq_true_iff.1 hopen
  have hbuilt : Expression.build b.logging tree start =
      (⟨b.logging, (tree.fold b.logging.meaning start).1⟩,
        (tree.fold b.logging.meaning start).2) := by
    have hlogging : b.logging.options.optimize = true := hoptimize
    rw [build_eq, hlogging]
    rfl
  have hlog := b.log_build tree start hoptimize
  have hfolding := tree.folding b.logging.meaning start
  rw [hbuilt] at hlog ⊢
  refine ⟨hfolding, hlog, called_iff hoptimize htrusted, ?_, fun n => ⟨b.log_evaluate _ n, ?_⟩⟩
  · intro v call hv hcall
    obtain ⟨symbol, args, hnode, -, rfl⟩ := function_of_foldVisit hv hcall
    obtain ⟨hlength, hargs⟩ := hfolding.args hv hnode
    exact ⟨symbol, args, hnode ▸ Tree.at?_of_foldVisit hv, rfl, hlength, hargs⟩
  · exact fun hv hcall hw hplace => call_again hv hcall hw hplace

/-- A host whose only function is trusted and works once. -/
def once : Bindings Nat where
  options := { pureSymbols := true }
  symbols := [(.function "f" 1, fun args => fun calls =>
    (if calls = 0 then .ok (Library.arg args 0) else .error (.message "busy"), calls + 1))]

/-- Both calls are made when the formula is built, and the one that failed by each evaluation. -/
theorem build_hostCalls_once :
    let tree : Tree Float := .apply (.infixOp "+")
      [.apply (.function "f" 1) [.literal 1], .apply (.function "f" 1) [.literal 2]]
    let built := Expression.build once.logging tree ⟨(0, []), []⟩
    (once.options.optimize && once.options.pureSymbols) = true ∧
    built.2.host.2.length = 2 ∧ (built.1.evaluate.run built.2).2.host.2.length = 3 ∧
    once.Built tree ⟨(0, []), []⟩ (tree.foldVisits once.logging.meaning ⟨(0, []), []⟩)
      built.1 built.2 := by
  intro tree built
  exact ⟨rfl, by decide +kernel, by decide +kernel,
    (build_hostCalls once tree ⟨(0, []), []⟩).2.2 rfl⟩

end Bindings
end Formula
