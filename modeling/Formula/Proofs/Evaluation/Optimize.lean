import Formula.Expression
import Formula.Proofs.Evaluation.Simulation

/-! Optimizing shows in no result. Main statement: as long as what is trusted of a host holds, and
the calls that its evaluator declines leave no trace, a formula that was built with constant folding
gives in every evaluation what it gives without, and makes the same calls to the functions of the
host that are not trusted. -/
namespace Formula

variable {σ α : Type}

namespace Bindings

/-- The same bindings, optimized or not. -/
def optimized (b : Bindings σ) (optimize : Bool) : Bindings σ :=
  { b with options := { b.options with optimize } }

/-- Whether a function of the host for this symbol is treated as pure. -/
def trusts (b : Bindings σ) (symbol : Symbol) : Bool :=
  b.options.pureSymbols && !(symbol matches .var _)

/-- What the bindings say of their host, up to states that it does not tell apart: a trusted
function depends on its arguments only and has no effect, and so does the evaluator decide by the
symbol only whether it declines. -/
structure Trustworthy (b : Bindings σ) (alike : σ → σ → Prop) : Prop where
  equivalence : Equivalence alike
  symbols : ∀ symbol f, (symbol, f) ∈ b.symbols → ∀ args, Uniform alike (f args)
  trusted : ∀ symbol f, (symbol, f) ∈ b.symbols → b.trusts symbol = true →
    ∀ args, Steady alike (f args)
  evaluator : ∀ ask, b.evaluator = some ask → ∀ symbol args, Uniform alike (ask symbol args)
  declines : ∀ ask, b.evaluator = some ask → ∀ symbol args args' h h',
    ((ask symbol args).run h).1 = .ok none → ((ask symbol args').run h').1 = .ok none

/-- A trustworthy host to which a call that its evaluator declines makes no difference where the
library knows the symbol: an optimized formula leaves out such calls after the first. -/
structure Dependable (b : Bindings σ) (alike : σ → σ → Prop) : Prop extends
    b.Trustworthy alike where
  declined : ∀ ask, b.evaluator = some ask →
    ∀ symbol f, Library.lookup? b.options symbol = some f → ∀ args h,
      ((ask symbol args).run h).1 = .ok none → alike h ((ask symbol args).run h).2

/-- The evaluator declines the symbol. -/
def Declines (b : Bindings σ) (symbol : Symbol) : Prop :=
  ∀ ask, b.evaluator = some ask → ∀ args h, ((ask symbol args).run h).1 = .ok none

theorem resolve_optimized (b : Bindings σ) (optimize : Bool) (symbol : Symbol) :
    (b.optimized optimize).resolve symbol = b.resolve symbol := rfl

/-- Where the functions and the evaluator of a binding come from. -/
inductive Origin (b : Bindings σ) (symbol : Symbol) : Binding σ → Prop where
  | constant {value} : Origin b symbol (.constant value)
  | array {values} : Origin b symbol (.array values)
  | host {f} (bound : (symbol, f) ∈ b.symbols) : Origin b symbol (.host f)
  | evaluator {ask missing} (bound : b.evaluator = some ask) :
    Origin b symbol (.evaluator (ask symbol) (Library.lookup? b.options symbol) missing)
  | library {f} : Origin b symbol (.library f)
  | unbound {error} : Origin b symbol (.unbound error)

theorem origin (b : Bindings σ) (symbol : Symbol) : b.Origin symbol (b.resolve symbol) := by
  unfold resolve
  split
  · rename_i data hd
    unfold data? at hd
    split at hd
    · obtain ⟨value, _, rfl⟩ := Option.map_eq_some_iff.1 hd
      exact .constant
    · obtain ⟨values, _, rfl⟩ := Option.map_eq_some_iff.1 hd
      exact .array
    · simp at hd
  · split
    · rename_i f hf
      exact .host (mem_of_lookup hf)
    · dsimp only
      split
      · rename_i ask hask
        exact .evaluator hask
      · split
        · exact .library
        · exact .unbound

/-! ### Calls under both -/

/-- Alike hosts, and an evaluator passed over only where it declines. -/
def Alike (b : Bindings σ) (alike : σ → σ → Prop) (m m' : Memory σ) : Prop :=
  alike m.host m'.host ∧
    (∀ symbol ∈ m.settled, b.Declines symbol) ∧ ∀ symbol ∈ m'.settled, b.Declines symbol

theorem run_onHost (action : Action σ α) (m : Memory σ) :
    (Memory.onHost action).run m =
      ((action.run m.host).1, { m with host := (action.run m.host).2 }) := rfl

/-- What comes of asking the evaluator about a symbol that the library does not know. -/
theorem run_callEvaluator_none (settles : Bool) (symbol : Symbol)
    (ask : List Float → Action σ (Option Float)) (missing : Error) (args : List Float)
    (m : Memory σ) :
    (callEvaluator settles symbol ask none missing args).run m =
      (match ((ask args).run m.host).1 with
        | .ok (some value) => .ok value
        | .ok none => .error missing
        | .error error => .error error,
        { m with host := ((ask args).run m.host).2 }) := by
  unfold callEvaluator
  dsimp only
  rcases hrun : (ask args).run m.host with ⟨error | _ | value, h⟩
  · rw [Action.run_bind_error (by rw [run_onHost, hrun])]
  · rw [Action.run_bind_ok (by rw [run_onHost, hrun])]
    rfl
  · rw [Action.run_bind_ok (by rw [run_onHost, hrun])]
    rfl

theorem run_callEvaluator_some (settles : Bool) (symbol : Symbol)
    (ask : List Float → Action σ (Option Float)) (f : Library.Function) (missing : Error)
    (args : List Float) (m : Memory σ) :
    (callEvaluator settles symbol ask (some f) missing args).run m =
      if m.settled.contains symbol then (.ok (f args), m) else
      match (ask args).run m.host with
      | (.ok (some value), h) => (.ok value, { m with host := h })
      | (.ok none, h) =>
        (.ok (f args), ⟨h, if settles then symbol :: m.settled else m.settled⟩)
      | (.error error, h) => (.error error, { m with host := h }) := by
  have hsettled : (Memory.isSettled symbol : Action (Memory σ) Bool).run m =
      (.ok (m.settled.contains symbol), m) := rfl
  unfold callEvaluator
  dsimp only
  rw [Action.run_bind_ok hsettled]
  cases m.settled.contains symbol with
  | true => rfl
  | false =>
    simp only [Bool.false_eq_true, if_false]
    rcases hrun : (ask args).run m.host with ⟨error | _ | value, h⟩
    · rw [Action.run_bind_error (by rw [run_onHost, hrun])]
    · rw [Action.run_bind_ok (by rw [run_onHost, hrun])]
      cases settles <;> rfl
    · rw [Action.run_bind_ok (by rw [run_onHost, hrun])]
      rfl

section
variable {b : Bindings σ} {alike : σ → σ → Prop} {m m' : Memory σ}

/-- A symbol that the evaluator declines is left to the library, whether it is asked or not. -/
theorem callEvaluator_declined (hb : b.Dependable alike) (settles : Bool) {symbol : Symbol}
    {ask : Evaluator σ Float} (hask : b.evaluator = some ask) {f : Library.Function}
    (hf : Library.lookup? b.options symbol = some f) (missing : Error) (args : List Float)
    (hd : b.Declines symbol) (hs : ∀ symbol ∈ m.settled, b.Declines symbol) :
    ∃ m', (callEvaluator settles symbol (ask symbol) (some f) missing args).run m =
        (.ok (f args), m') ∧
      alike m.host m'.host ∧ ∀ symbol ∈ m'.settled, b.Declines symbol := by
  rw [run_callEvaluator_some]
  split
  · exact ⟨m, rfl, hb.equivalence.refl m.host, hs⟩
  · have hnone := hd ask hask args m.host
    have halike := hb.declined ask hask symbol f hf args m.host hnone
    rcases hrun : (ask symbol args).run m.host with ⟨result, h⟩
    rw [hrun] at hnone halike
    obtain rfl : result = .ok none := hnone
    refine ⟨_, rfl, halike, ?_⟩
    cases settles with
    | false => exact hs
    | true =>
      intro other hother
      rcases List.mem_cons.1 hother with rfl | hother
      · exact hd
      · exact hs other hother

/-- Whichever of the two passes the evaluator over, it answers as it does in the other. -/
theorem callEvaluator_alike (hb : b.Dependable alike) (settles settles' : Bool) {symbol : Symbol}
    {ask : Evaluator σ Float} (hask : b.evaluator = some ask) (missing : Error)
    (args : List Float) (hm : b.Alike alike m m') :
    let fallback := Library.lookup? b.options symbol
    let p := (callEvaluator settles symbol (ask symbol) fallback missing args).run m
    let q := (callEvaluator settles' symbol (ask symbol) fallback missing args).run m'
    b.Alike alike p.2 q.2 ∧ p.1 = q.1 := by
  obtain ⟨hhost, hs, hs'⟩ := hm
  obtain ⟨hresult, hnext⟩ := hb.evaluator ask hask symbol args m.host m'.host hhost
  cases hf : Library.lookup? b.options symbol with
  | none =>
    dsimp only
    rw [run_callEvaluator_none, run_callEvaluator_none, hresult]
    exact ⟨⟨hnext, hs, hs'⟩, rfl⟩
  | some f =>
    by_cases hd : b.Declines symbol
    · obtain ⟨n, hn, hhost₁, hs₁⟩ := callEvaluator_declined hb settles hask hf missing args hd hs
      obtain ⟨n', hn', hhost₂, hs₂⟩ := callEvaluator_declined hb settles' hask hf missing args hd hs'
      have heq := hb.equivalence
      dsimp only
      rw [hn, hn']
      exact ⟨⟨heq.trans (heq.symm hhost₁) (heq.trans hhost hhost₂), hs₁, hs₂⟩, rfl⟩
    · have hnone : ∀ h, ((ask symbol args).run h).1 ≠ .ok none := by
        intro h hnone
        refine hd fun ask' hask' args' h' => ?_
        obtain rfl : ask = ask' := Option.some.inj (hask.symm.trans hask')
        exact hb.declines ask hask symbol args args' h h' hnone
      have hasked : m.settled.contains symbol = false := by
        simpa using fun hmem => hd (hs symbol hmem)
      have hasked' : m'.settled.contains symbol = false := by
        simpa using fun hmem => hd (hs' symbol hmem)
      have hnot := hnone m.host
      dsimp only
      rw [run_callEvaluator_some, run_callEvaluator_some, hasked, hasked',
        if_neg Bool.false_ne_true, if_neg Bool.false_ne_true]
      rcases hrun : (ask symbol args).run m.host with ⟨result, h⟩
      rcases hrun' : (ask symbol args).run m'.host with ⟨result', h'⟩
      rw [hrun, hrun'] at hresult hnext
      rw [hrun] at hnot
      dsimp only at hresult hnext hnot
      subst hresult
      rcases result with error | _ | value
      · exact ⟨⟨hnext, hs, hs'⟩, rfl⟩
      · exact absurd rfl hnot
      · exact ⟨⟨hnext, hs, hs'⟩, rfl⟩

theorem call_alike (hb : b.Dependable alike) (optimize optimize' : Bool) (symbol : Symbol)
    (args : List Float) (hm : b.Alike alike m m') :
    let p := ((b.optimized optimize).call symbol args).run m
    let q := ((b.optimized optimize').call symbol args).run m'
    b.Alike alike p.2 q.2 ∧ p.1 = q.1 := by
  unfold call
  rw [resolve_optimized, resolve_optimized]
  have horigin := b.origin symbol
  cases hres : b.resolve symbol with
  | constant value => exact ⟨hm, rfl⟩
  | array values =>
    dsimp only [call.liftExcept]
    cases element symbol values args <;> exact ⟨hm, rfl⟩
  | host f =>
    rw [hres] at horigin
    obtain ⟨hhost, hs, hs'⟩ := hm
    cases horigin with
    | host bound =>
      obtain ⟨hresult, hnext⟩ := hb.symbols symbol f bound args m.host m'.host hhost
      exact ⟨⟨hnext, hs, hs'⟩, hresult⟩
  | evaluator ask fallback missing =>
    rw [hres] at horigin
    cases horigin with
    | evaluator bound => exact callEvaluator_alike hb _ _ bound missing args hm
  | library f => exact ⟨hm, rfl⟩
  | unbound error => exact ⟨hm, rfl⟩

/-- A pure call has one result and no effect, however often it is made. -/
theorem call_pure (hb : b.Dependable alike) {symbol : Symbol} (args : List Float)
    (hp : (b.optimized true).isPure symbol = true) :
    ∃ result, ∀ optimize m, ∃ h, ((b.optimized optimize).call symbol args).run m =
      (result, { m with host := h }) ∧ alike m.host h := by
  unfold isPure at hp
  unfold call
  simp only [resolve_optimized, Bool.and_eq_true] at hp ⊢
  have hrefl := hb.equivalence.refl
  have horigin := b.origin symbol
  cases hres : b.resolve symbol with
  | constant value => exact ⟨.ok value, fun _ m => ⟨m.host, rfl, hrefl m.host⟩⟩
  | array values =>
    refine ⟨element symbol values args, fun _ m => ⟨m.host, ?_, hrefl m.host⟩⟩
    dsimp only [call.liftExcept]
    cases element symbol values args <;> rfl
  | host f =>
    rw [hres] at horigin hp
    cases horigin with
    | host bound =>
      obtain ⟨result, hrun⟩ := hb.trusted symbol f bound hp.2 args
      refine ⟨result, fun _ m => ?_⟩
      obtain ⟨h, hrun, halike⟩ := hrun m.host
      refine ⟨h, ?_, halike⟩
      dsimp only
      rw [run_onHost, hrun]
  | evaluator ask fallback missing => simp [hres] at hp
  | library f => exact ⟨.ok (f args), fun _ m => ⟨m.host, rfl, hrefl m.host⟩⟩
  | unbound error => simp [hres] at hp

end

/-- Two builds of one formula, as meanings that simulate each other. -/
def simulation {b : Bindings σ} {alike : σ → σ → Prop} (hb : b.Dependable alike)
    (optimize optimize' : Bool) :
    Simulation (b.optimized optimize).meaning (b.optimized optimize').meaning where
  Names _ := True
  Related := b.Alike alike
  Represents _ x y := x = y
  Extends _ _ := True
  Sound _ := True
  refl _ := trivial
  trans _ _ _ _ _ := trivial
  sound_of_extends _ _ := trivial
  represents_of_extends _ h := h
  grows_call _ _ _ := trivial
  call_follows := by
    intro m m' symbol xs ys _ hm hargs _
    obtain rfl : xs = ys := by simpa using hargs
    obtain ⟨hnext, hresult⟩ := call_alike hb optimize optimize' symbol xs hm
    refine ⟨hnext, ?_⟩
    change Matches _ _ (((b.optimized optimize').call symbol xs).run m').1
    rw [← hresult]
    change Matches _ (((b.optimized optimize).call symbol xs).run m).1 _
    cases (((b.optimized optimize).call symbol xs).run m).1 <;> rfl
  pure_call := by
    intro m m' symbol xs ys _ hp hm hargs _
    obtain rfl : xs = ys := by simpa using hargs
    have hp : (b.optimized true).isPure symbol = true := by
      cases optimize with
      | true => exact hp
      | false => exact absurd hp Bool.false_ne_true
    obtain ⟨result, hcall⟩ := call_pure hb xs hp
    obtain ⟨h, hrun, halike⟩ := hcall optimize m
    obtain ⟨hhost, hs, hs'⟩ := hm
    have heq := hb.equivalence
    change b.Alike alike (((b.optimized optimize).call symbol xs).run m).2 m' ∧
      ∀ x, (((b.optimized optimize).call symbol xs).run m).1 = .ok x → _
    rw [hrun]
    refine ⟨⟨heq.trans (heq.symm halike) hhost, hs, hs'⟩, ?_⟩
    rintro x rfl
    refine ⟨x, rfl, fun n n' _ hn => ?_⟩
    obtain ⟨h', hrun', halike'⟩ := hcall optimize' n'
    obtain ⟨hhost', hs', hs''⟩ := hn
    exact ⟨_, hrun', heq.trans hhost' halike', hs', hs''⟩

end Bindings

namespace Expression

/-- The results of one evaluation after another, before each of which the host takes a step. -/
def results (e : Expression σ) :
    List (σ → σ) → Memory σ → List (Except Error Float) × Memory σ
  | [], memory => ([], memory)
  | step :: steps, memory =>
    let (result, memory) := e.evaluate.run { memory with host := step memory.host }
    let (others, memory) := e.results steps memory
    (result :: others, memory)

open Bindings in
theorem results_alike {b : Bindings σ} {alike : σ → σ → Prop} (hb : b.Dependable alike)
    (optimize optimize' : Bool) {tree tree' : Tree Float}
    (h : ∀ m, (simulation hb optimize optimize').Implements m tree tree') {steps : List (σ → σ)}
    (hsteps : ∀ step ∈ steps, ∀ h h', alike h h' → alike (step h) (step h')) {m m' : Memory σ}
    (hm : b.Alike alike m m') :
    let p := results ⟨b.optimized optimize, tree⟩ steps m
    let q := results ⟨b.optimized optimize', tree'⟩ steps m'
    p.1 = q.1 ∧ b.Alike alike p.2 q.2 := by
  induction steps generalizing m m' with
  | nil => exact ⟨rfl, hm⟩
  | cons step steps ih =>
    obtain ⟨hhost, hs, hs'⟩ := hm
    have hstep := hsteps step List.mem_cons_self m.host m'.host hhost
    obtain ⟨hnext, hresult⟩ := (h { m with host := step m.host }).evaluate
      (simulation hb optimize optimize') (t := { m' with host := step m'.host })
      ⟨hstep, hs, hs'⟩ trivial
    obtain ⟨hothers, hend⟩ := ih (fun step hmem => hsteps step (List.mem_cons_of_mem _ hmem)) hnext
    have hvalue := Matches.eq hresult
    exact ⟨congrArg₂ List.cons hvalue hothers, hend⟩

end Expression

namespace Bindings

/-- The results of a formula that is built for a host in the given state, and what is left of the
memory. -/
def run (b : Bindings σ) (tree : Tree Float) (steps : List (σ → σ)) (host : σ) :
    List (Except Error Float) × Memory σ :=
  let (e, memory) := Expression.build b tree ⟨host, []⟩
  e.results steps memory

theorem run_alike {b : Bindings σ} {alike : σ → σ → Prop} (hb : b.Dependable alike)
    (tree : Tree Float) {steps : List (σ → σ)}
    (hsteps : ∀ step ∈ steps, ∀ h h', alike h h' → alike (step h) (step h')) (host : σ) :
    ((b.optimized true).run tree steps host).1 = ((b.optimized false).run tree steps host).1 ∧
      b.Alike alike ((b.optimized true).run tree steps host).2
        ((b.optimized false).run tree steps host).2 := by
  let sim := simulation hb true false
  have hsame : sim.Implements ⟨host, []⟩ tree tree := by
    have h := sim.implements_map (f := id) (g := id) (fun _ _ => rfl) ⟨host, []⟩ tree
      fun _ _ => trivial
    rwa [Tree.map_id] at h
  have hstart : b.Alike alike ⟨host, []⟩ ⟨host, []⟩ :=
    ⟨hb.equivalence.refl host, by simp, by simp⟩
  obtain ⟨hm, hfold⟩ := hsame.fold sim hstart trivial
  exact Expression.results_alike hb true false (fun m => hfold.extend sim trivial) hsteps hm

/-! ### The calls of untrusted functions -/

abbrev Call := Symbol × List Float

/-- Runs an action of the host and leaves the list of calls as it is. -/
def unlisted (action : Action σ α) : Action (σ × List Call) α := fun state =>
  ((action.run state.1).1, (action.run state.1).2, state.2)

/-- Runs an action of the host and adds a call to the list. -/
def listed (call : Call) (action : Action σ α) : Action (σ × List Call) α := fun state =>
  ((action.run state.1).1, (action.run state.1).2, state.2 ++ [call])

/-- The same bindings for a host that lists the calls of its untrusted functions. -/
def listing (b : Bindings σ) : Bindings (σ × List Call) where
  options := b.options
  constants := b.constants
  arrays := b.arrays
  symbols := b.symbols.map fun (symbol, f) =>
    (symbol, fun args =>
      if b.trusts symbol then unlisted (f args) else listed (symbol, args) (f args))
  evaluator := b.evaluator.map fun ask symbol args => unlisted (ask symbol args)

/-- The calls of untrusted functions while a formula is built and evaluated. -/
def calls (b : Bindings σ) (tree : Tree Float) (steps : List (σ → σ)) (host : σ) : List Call :=
  (b.listing.run tree (steps.map fun step state => (step state.1, state.2)) (host, [])).2.host.2

/-- Alike hosts with the same list of calls. -/
def AlikeListing (alike : σ → σ → Prop) (x y : σ × List Call) : Prop := alike x.1 y.1 ∧ x.2 = y.2

theorem Dependable.listing {b : Bindings σ} {alike : σ → σ → Prop} (hb : b.Dependable alike) :
    b.listing.Dependable (AlikeListing alike) where
  equivalence :=
    { refl := fun x => ⟨hb.equivalence.refl x.1, rfl⟩
      symm := fun h => ⟨hb.equivalence.symm h.1, h.2.symm⟩
      trans := fun h h' => ⟨hb.equivalence.trans h.1 h'.1, h.2.trans h'.2⟩ }
  symbols := by
    intro symbol f hf args x y ⟨halike, hlist⟩
    obtain ⟨⟨symbol, g⟩, hg, heq⟩ := List.mem_map.1 hf
    obtain ⟨rfl, rfl⟩ := Prod.mk.inj heq
    obtain ⟨hresult, hnext⟩ := hb.symbols symbol g hg args x.1 y.1 halike
    dsimp only
    split
    · exact ⟨hresult, hnext, hlist⟩
    · exact ⟨hresult, hnext, congrArg (· ++ _) hlist⟩
  trusted := by
    intro symbol f hf htrust args
    obtain ⟨⟨symbol, g⟩, hg, heq⟩ := List.mem_map.1 hf
    obtain ⟨rfl, rfl⟩ := Prod.mk.inj heq
    have htrust : b.trusts symbol = true := htrust
    obtain ⟨result, hrun⟩ := hb.trusted symbol g hg htrust args
    refine ⟨result, fun x => ?_⟩
    obtain ⟨h, hrun, halike⟩ := hrun x.1
    refine ⟨(h, x.2), ?_, halike, rfl⟩
    dsimp only
    rw [if_pos htrust]
    exact congrArg (fun p => (p.1, p.2, x.2)) hrun
  evaluator := by
    intro ask hask symbol args x y ⟨halike, hlist⟩
    obtain ⟨plain, hplain, rfl⟩ := Option.map_eq_some_iff.1 hask
    obtain ⟨hresult, hnext⟩ := hb.evaluator plain hplain symbol args x.1 y.1 halike
    exact ⟨hresult, hnext, hlist⟩
  declines := by
    intro ask hask symbol args args' x y h
    obtain ⟨plain, hplain, rfl⟩ := Option.map_eq_some_iff.1 hask
    exact hb.declines plain hplain symbol args args' x.1 y.1 h
  declined := by
    intro ask hask symbol f hf args x h
    obtain ⟨plain, hplain, rfl⟩ := Option.map_eq_some_iff.1 hask
    exact ⟨hb.declined plain hplain symbol f hf args x.1 h, rfl⟩

/-- Any number of evaluations of an optimized formula give the results of the formula that is not
optimized, one for one, and call the untrusted functions of the host with the same arguments in the
same order. Between evaluations the host may take any steps. -/
theorem run_optimized {b : Bindings σ} {alike : σ → σ → Prop} (hb : b.Dependable alike)
    (tree : Tree Float) {steps : List (σ → σ)}
    (hsteps : ∀ step ∈ steps, ∀ h h', alike h h' → alike (step h) (step h')) (host : σ) :
    ((b.optimized true).run tree steps host).1 = ((b.optimized false).run tree steps host).1 ∧
      (b.optimized true).calls tree steps host = (b.optimized false).calls tree steps host := by
  refine ⟨(run_alike hb tree hsteps host).1, ?_⟩
  have hlisted : ∀ step ∈ steps.map fun step (state : σ × List Call) => (step state.1, state.2),
      ∀ x y, AlikeListing alike x y → AlikeListing alike (step x) (step y) := by
    intro step hmem x y ⟨halike, hlist⟩
    obtain ⟨plain, hplain, rfl⟩ := List.mem_map.1 hmem
    exact ⟨hsteps plain hplain x.1 y.1 halike, hlist⟩
  exact (run_alike hb.listing tree hlisted (host, [])).2.1.2

/-- A host whose variable tells how often it was read, with a trusted function and an evaluator that
always declines. -/
def counting : Bindings Nat where
  options := { pureSymbols := true }
  symbols :=
    [(.var "x", fun _ => fun reads => (.ok (.ofNat reads), reads + 1)),
     (.function "f" 1, fun args => pure (Library.arg args 0))]
  evaluator := some fun _ _ => pure none

theorem counting_dependable : counting.Dependable Eq where
  equivalence := ⟨fun _ => rfl, Eq.symm, Eq.trans⟩
  symbols := by
    rintro symbol f _ args h _ rfl
    exact ⟨rfl, rfl⟩
  trusted := by
    intro symbol f hf htrust args
    simp only [counting, List.mem_cons, Prod.mk.injEq, List.not_mem_nil, or_false] at hf
    rcases hf with ⟨rfl, rfl⟩ | ⟨rfl, rfl⟩
    · exact absurd htrust Bool.false_ne_true
    · exact ⟨_, fun h => ⟨h, rfl, rfl⟩⟩
  evaluator := by
    rintro ask _ symbol args h _ rfl
    exact ⟨rfl, rfl⟩
  declines := by
    intro ask hask symbol args args' h h' _
    obtain rfl := Option.some.inj hask
    rfl
  declined := by
    intro ask hask symbol f _ args h _
    obtain rfl := Option.some.inj hask
    rfl

theorem run_optimized_counting :
    let tree : Tree Float := .apply (.infixOp "+")
      [.apply (.function "f" 1) [.literal 2], .named "x"]
    counting.Dependable Eq ∧ (∀ step ∈ [Nat.succ, id], ∀ h h', h = h' → step h = step h') ∧
      ((counting.optimized true).run tree [Nat.succ, id] 0).1 =
        ((counting.optimized false).run tree [Nat.succ, id] 0).1 ∧
      (counting.optimized true).calls tree [Nat.succ, id] 0 =
        (counting.optimized false).calls tree [Nat.succ, id] 0 := by
  have hsteps : ∀ step ∈ [Nat.succ, id], ∀ h h', h = h' → step h = step h' := by
    rintro step _ h _ rfl
    rfl
  exact ⟨counting_dependable, hsteps, run_optimized counting_dependable _ hsteps 0⟩

/-- A host whose evaluator answers `x` with the number of times it was asked, and declines all
else. -/
def asking : Bindings Nat where
  evaluator := some fun symbol _ => fun asked =>
    (.ok (if symbol = .var "x" then some (.ofNat (asked + 1)) else none), asked + 1)

theorem asking_trustworthy : asking.Trustworthy Eq where
  equivalence := ⟨fun _ => rfl, Eq.symm, Eq.trans⟩
  symbols := fun _ _ hf => absurd hf List.not_mem_nil
  trusted := fun _ _ hf => absurd hf List.not_mem_nil
  evaluator := by
    rintro ask _ symbol args h _ rfl
    exact ⟨rfl, rfl⟩
  declines := by
    intro ask hask symbol args args' h h' hnone
    obtain rfl := Option.some.inj hask
    have hx : symbol ≠ .var "x" := by
      rintro rfl
      cases hnone
    exact congrArg Except.ok (if_neg hx)

/-- A host that counts the calls it declines sees which of them are left out. -/
theorem run_asking :
    let tree : Tree Float := .apply (.infixOp "+")
      [.apply (.function "sqrt" 1) [.literal 4], .named "x"]
    asking.Trustworthy Eq ∧
      ((asking.optimized true).run tree [id, id, id] 0).1.map Except.toOption =
        [some 4, some 6, some 7] ∧
      ((asking.optimized false).run tree [id, id, id] 0).1.map Except.toOption =
        [some 4, some 7, some 10] :=
  ⟨asking_trustworthy, by decide +kernel⟩

end Bindings
end Formula
