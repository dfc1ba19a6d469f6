import Formula.Proofs.Evaluation.Folding
import Formula.Proofs.Evaluation.HostCalls

/-! Symbols that an evaluator is no longer asked about, over any number of evaluations. Main
statement: a call that reaches the evaluator asks it once, unless the formula is optimized and the
evaluator has declined the symbol before where the library answered; then the library answers. -/
namespace Formula

variable {σ τ ν : Type}

open Visit

/-! ### Histories -/

/-- The visits of one evaluation of a tree after another, between which a view of the state stays as
it is. -/
inductive History (m : Meaning σ ν) (t : Tree ν) (view : σ → τ) :
    τ → List (Visit σ ν) → τ → Prop where
  | nil {a} : History m t view a [] a
  | cons (s : σ) {vs a} (rest : History m t view (view ((t.evaluate m).run s).2) vs a) :
    History m t view (view s) (t.visits m s ++ vs) a

namespace History

variable {m : Meaning σ ν} {t : Tree ν} {view : σ → τ} {a a' : τ} {vs : List (Visit σ ν)}

theorem linked (h : History m t view a vs a') : Linked view a vs a' := by
  induction h with
  | nil => rfl
  | cons s rest ih => exact ((t.walk_visits m s).linked.map view).append ih

theorem sound (h : History m t view a vs a') {v : Visit σ ν} (hv : v ∈ vs) :
    ∃ earlier, v.Sound m earlier := by
  induction h with
  | nil => cases hv
  | cons s rest ih =>
    rcases List.mem_append.1 hv with hv | hv
    · exact ⟨_, Tree.sound_of_visit hv⟩
    · exact ih hv

/-- What a list has that visits add to was added by a visit before. -/
theorem mem_before {γ : Type} {view : σ → List γ} {stop : List γ}
    {earlier later : List (Visit σ ν)} {v : Visit σ ν}
    (h : History m t view [] (earlier ++ v :: later) stop) (adds : Visit σ ν → γ → Prop)
    (hadds : ∀ {w others}, w.Sound m others → ∀ x,
      x ∈ view w.after ↔ x ∈ view w.before ∨ adds w x) (x : γ) :
    x ∈ view v.before ↔ ∃ w ∈ earlier, adds w x := by
  have hmem := h.linked.mem_iff adds (fun w hw => ?_) x
  · simpa using hmem
  · obtain ⟨others, hsound⟩ := h.sound (List.mem_append_left _ hw)
    exact hadds hsound

end History

/-! ### Numbers -/

namespace Expression

/-- The visits of one evaluation after another, before each of which the host takes a step. Copies
of a formula share the memory, so any of them may be the one that is evaluated. -/
def history (e : Expression σ) : List (σ → σ) → Memory σ → List (Visit (Memory σ) Float)
  | [], _ => []
  | step :: steps, m =>
    let start : Memory σ := { m with host := step m.host }
    e.tree.visits e.bindings.meaning start ++ e.history steps (e.evaluate.run start).2

theorem history_visits (e : Expression σ) (steps : List (σ → σ)) (m : Memory σ) :
    History e.bindings.meaning e.tree Memory.settled m.settled (e.history steps m)
      (e.results steps m).2.settled := by
  induction steps generalizing m with
  | nil => exact .nil
  | cons step steps ih => exact .cons { m with host := step m.host } (ih _)

end Expression

namespace Bindings

variable {b : Bindings σ} {symbol : Symbol}

/-- A call of a symbol that is bound to the evaluator. -/
structure Reaches (b : Bindings σ) (symbol : Symbol) (ask : List Float → Action σ (Option Float))
    (fallback : Option Library.Function) (missing : Error) (v : Visit (Memory τ) Float) :
    Prop where
  node : ∃ args, v.node = .apply symbol args
  bound : b.resolve symbol = .evaluator ask fallback missing

/-- In an optimized formula, the evaluator was asked about a symbol, it declined, and the library
answered. -/
def Settles (b : Bindings σ) (symbol : Symbol) (v : Visit (Memory (σ × List HostCall)) Float) :
    Prop :=
  b.options.optimize = true ∧ ∃ ask f missing, b.Reaches symbol ask (some f) missing v ∧
    v.after.host.2 = v.before.host.2 ++ [.evaluator symbol (v.args.map .number)] ∧
    ((ask v.args).run v.before.host.1).1 = .ok none ∧ v.result = .ok (f v.args)

theorem settled_call (h : ∀ ask fallback missing, b.resolve symbol ≠ .evaluator ask fallback missing)
    (args : List Float) (m : Memory σ) : ((b.call symbol args).run m).2.settled = m.settled := by
  unfold call
  cases hres : b.resolve symbol with
  | evaluator ask fallback missing => exact absurd hres (h ask fallback missing)
  | array values =>
    dsimp only
    rw [run_liftExcept]
  | _ => rfl

/-- What comes of a call that reaches the evaluator. -/
theorem reaches_cases {ask : List Float → Action σ (Option Float)}
    {fallback : Option Library.Function} {missing : Error}
    {v : Visit (Memory (σ × List HostCall)) Float}
    {earlier : List (Visit (Memory (σ × List HostCall)) Float)}
    (hv : v.Sound b.logging.meaning earlier) (h : b.Reaches symbol ask fallback missing v) :
    (fallback.isSome = true ∧ symbol ∈ v.before.settled ∧ v.after = v.before ∧
      v.result = answered fallback missing v.args (.ok none)) ∨
    ¬ (fallback.isSome = true ∧ symbol ∈ v.before.settled) ∧
      v.after.host.2 = v.before.host.2 ++ [.evaluator symbol (v.args.map .number)] ∧
      v.result = answered fallback missing v.args ((ask v.args).run v.before.host.1).1 ∧
      v.after.settled =
        if b.options.optimize && givesOver fallback ((ask v.args).run v.before.host.1).1 then
          symbol :: v.before.settled
        else v.before.settled := by
  obtain ⟨args, hnode⟩ := h.node
  cases hv with
  | literal => cases hnode
  | malformed => cases hnode
  | @call place other others values m length computed =>
    obtain ⟨rfl, rfl⟩ := Tree.apply.inj hnode
    have hcall : b.logging.meaning.call other values = callEvaluator b.options.optimize other
        (fun args => logged (.evaluator other (args.map .number)) (ask args)) fallback missing
        values := by
      change b.logging.call other values = _
      unfold call
      rw [resolve_logging, h.bound]
      rfl
    dsimp only [ofCall]
    rw [hcall, run_callEvaluator]
    by_cases hsettled : fallback.isSome = true ∧ other ∈ m.settled
    · have hcontains : (fallback.isSome && m.settled.contains other) = true := by simpa using hsettled
      rw [if_pos hcontains]
      exact .inl ⟨hsettled.1, hsettled.2, rfl, rfl⟩
    · have hcontains : ¬ (fallback.isSome && m.settled.contains other) = true := by
        simpa using hsettled
      rw [if_neg hcontains]
      exact .inr ⟨hsettled, rfl, rfl, rfl⟩

theorem settled_call_logging
    (h : ∀ ask fallback missing, b.resolve symbol ≠ .evaluator ask fallback missing)
    (args : List Float) (m : Memory (σ × List HostCall)) :
    ((b.logging.call symbol args).run m).2.settled = m.settled := by
  refine settled_call (fun ask fallback missing hres => ?_) args m
  rw [resolve_logging] at hres
  cases hplain : b.resolve symbol with
  | evaluator ask fallback missing => exact h ask fallback missing hplain
  | _ => rw [hplain] at hres; cases hres

theorem givesOver_iff {fallback : Option Library.Function} (missing : Error) (args : List Float)
    {answer : Except Error (Option Float)} :
    givesOver fallback answer = true ↔ answer = .ok none ∧
      ∃ f, fallback = some f ∧ answered fallback missing args answer = .ok (f args) := by
  rcases answer with error | _ | value
  · simp [givesOver]
  · cases fallback <;> simp [givesOver, answered]
  · simp [givesOver]

theorem settles_iff {ask : List Float → Action σ (Option Float)} {fallback : Option Library.Function}
    {missing : Error} {other : Symbol} {v : Visit (Memory (σ × List HostCall)) Float}
    (h : b.Reaches other ask fallback missing v) :
    b.Settles symbol v ↔ b.options.optimize = true ∧ symbol = other ∧
      v.after.host.2 = v.before.host.2 ++ [.evaluator symbol (v.args.map .number)] ∧
      ((ask v.args).run v.before.host.1).1 = .ok none ∧
      ∃ f, fallback = some f ∧ v.result = .ok (f v.args) := by
  refine and_congr_right fun _ => ⟨?_, ?_⟩
  · rintro ⟨ask', f, missing', h', hlog, hdeclined, hresult⟩
    obtain ⟨args, hnode⟩ := h.node
    obtain ⟨args', hnode'⟩ := h'.node
    obtain ⟨rfl, -⟩ := Tree.apply.inj (hnode.symm.trans hnode')
    obtain ⟨rfl, rfl, -⟩ := Binding.evaluator.inj (h.bound.symm.trans h'.bound)
    exact ⟨rfl, hlog, hdeclined, f, rfl, hresult⟩
  · rintro ⟨rfl, hlog, hdeclined, f, rfl, hresult⟩
    exact ⟨ask, f, missing, h, hlog, hdeclined, hresult⟩

/-- A symbol is settled where the evaluator leaves it to the library, and nowhere else. -/
theorem mem_settled_after {v : Visit (Memory (σ × List HostCall)) Float}
    {earlier : List (Visit (Memory (σ × List HostCall)) Float)}
    (hv : v.Sound b.logging.meaning earlier) (symbol : Symbol) :
    symbol ∈ v.after.settled ↔ symbol ∈ v.before.settled ∨ b.Settles symbol v := by
  by_cases hreach : ∃ other ask fallback missing, b.Reaches other ask fallback missing v
  · obtain ⟨other, ask, fallback, missing, hreach⟩ := hreach
    rcases reaches_cases hv hreach with ⟨-, -, hafter, -⟩ | ⟨-, hlog, hresult, hsettled⟩
    · rw [settles_iff hreach, hafter]
      simp
    · rw [settles_iff hreach, hlog, hresult, hsettled, ← givesOver_iff missing v.args]
      by_cases hsymbol : symbol = other
      · subst hsymbol
        cases b.options.optimize <;>
          cases givesOver fallback ((ask v.args).run v.before.host.1).1 <;> simp
      · split <;> simp [hsymbol]
  · have hsettles : ¬ b.Settles symbol v := fun ⟨_, ask, f, missing, h, _⟩ =>
      hreach ⟨symbol, ask, some f, missing, h⟩
    have hsame : v.after.settled = v.before.settled := by
      cases hv with
      | literal => rfl
      | malformed => rfl
      | @call place other args values s _ _ =>
        refine settled_call_logging (fun ask fallback missing hres => ?_) values s
        exact hreach ⟨other, ask, fallback, missing, ⟨args, rfl⟩, hres⟩
    rw [hsame]
    simp [hsettles]

/-- A call that is made when a formula is built settles nothing. -/
theorem settled_pure_call (hpure : b.isPure symbol = true) (args : List Float) (m : Memory σ) :
    ((b.call symbol args).run m).2.settled = m.settled := by
  refine settled_call (fun ask fallback missing hres => ?_) args m
  simp [isPure, hres] at hpure

theorem settled_build (b : Bindings σ) (tree : Tree Float) (m : Memory σ) :
    (Expression.build b tree m).2.settled = m.settled := by
  rw [build_eq]
  dsimp only
  split
  · have hrun := (tree.folding b.meaning m).run
    refine (hrun.linked.map Memory.settled).eq_of_kept fun v hv => ?_
    obtain ⟨symbol, args, -, hpure, hcall⟩ := hrun.calls v hv
    have hcall : (b.call symbol v.args).run v.before = (v.result, v.after) := hcall
    have hkept := settled_pure_call hpure v.args v.before
    rwa [hcall] at hkept
  · rfl

/-- What an evaluator is asked in a visit that comes after others. -/
structure Lawful (b : Bindings σ) (earlier : List (Visit (Memory (σ × List HostCall)) Float))
    (v : Visit (Memory (σ × List HostCall)) Float) : Prop where
  /-- It is not asked about a symbol that has been left to the library. -/
  silent : ∀ {symbol}, (∃ w ∈ earlier, b.Settles symbol w) →
    ∃ calls, v.after.host.2 = v.before.host.2 ++ calls ∧ ∀ args, .evaluator symbol args ∉ calls
  /-- The library answers a call of such a symbol. -/
  answers : ∀ {symbol ask fallback missing}, b.Reaches symbol ask fallback missing v →
    (∃ w ∈ earlier, b.Settles symbol w) → ∃ f, fallback = some f ∧ v.result = .ok (f v.args)
  /-- A call of any other symbol that it is bound to asks it once. -/
  asks : ∀ {symbol ask fallback missing}, b.Reaches symbol ask fallback missing v →
    (∀ w ∈ earlier, ¬ b.Settles symbol w) →
    v.after.host.2 = v.before.host.2 ++ [.evaluator symbol (v.args.map .number)] ∧
      v.result = answered fallback missing v.args ((ask v.args).run v.before.host.1).1

/-- The evaluator is asked about the symbol of the node or about none. -/
theorem calls_of_visit {v : Visit (Memory (σ × List HostCall)) Float}
    {earlier : List (Visit (Memory (σ × List HostCall)) Float)}
    (hv : v.Sound b.logging.meaning earlier)
    (hquiet : ∀ ask fallback missing, b.Reaches symbol ask fallback missing v →
      v.after.host.2 = v.before.host.2) :
    ∃ calls, v.after.host.2 = v.before.host.2 ++ calls ∧ ∀ args, .evaluator symbol args ∉ calls := by
  refine ⟨_, b.log_visit hv, fun args hmem => ?_⟩
  have hcall := Option.mem_toList.1 hmem
  have hlog := b.log_visit hv
  rw [hcall] at hlog
  unfold visitCall? at hcall
  split at hcall
  · rename_i other others hnode
    unfold hostCall? at hcall
    split at hcall
    · cases hcall
    · rename_i ask fallback missing hbound
      split at hcall
      · cases hcall
      · obtain ⟨rfl, -⟩ := HostCall.evaluator.inj (Option.some.inj hcall)
        rw [hquiet ask fallback missing ⟨⟨others, hnode⟩, hbound⟩] at hlog
        simp at hlog
    · cases hcall
  · cases hcall

theorem history_lawful (b : Bindings σ) (tree : Tree Float) (steps : List (σ → σ)) (host : σ)
    {earlier later : List (Visit (Memory (σ × List HostCall)) Float)}
    {v : Visit (Memory (σ × List HostCall)) Float} :
    let built := Expression.build b.logging tree ⟨(host, []), []⟩
    built.1.history (steps.map alongside) built.2 = earlier ++ v :: later → b.Lawful earlier v := by
  intro built hhistory
  have hbuilt : built.1 = ⟨b.logging, built.1.tree⟩ := by
    unfold built
    rw [build_eq]
  rw [hbuilt] at hhistory
  have hvisits :=
    Expression.history_visits ⟨b.logging, built.1.tree⟩ (steps.map alongside) built.2
  rw [hhistory, show built.2.settled = [] from settled_build b.logging tree _] at hvisits
  have hsettled := hvisits.mem_before (fun w symbol => b.Settles symbol w)
    fun hsound => mem_settled_after hsound
  obtain ⟨others, hsound⟩ := hvisits.sound (List.mem_append_right _ List.mem_cons_self)
  have hpassed : ∀ {symbol ask fallback missing}, b.Reaches symbol ask fallback missing v →
      (∃ w ∈ earlier, b.Settles symbol w) →
      v.after = v.before ∧ ∃ f, fallback = some f ∧ v.result = .ok (f v.args) := by
    intro symbol ask fallback missing hreach hleft
    have hmem := (hsettled symbol).2 hleft
    obtain ⟨w, -, -, ask', f, missing', hreach', -⟩ := hleft
    obtain ⟨-, rfl, -⟩ := Binding.evaluator.inj (hreach.bound.symm.trans hreach'.bound)
    rcases reaches_cases hsound hreach with ⟨-, -, hafter, hresult⟩ | ⟨hnot, -⟩
    · exact ⟨hafter, f, rfl, hresult⟩
    · exact absurd ⟨rfl, hmem⟩ hnot
  constructor
  · intro symbol hleft
    refine calls_of_visit hsound fun ask fallback missing hreach => ?_
    rw [(hpassed hreach hleft).1]
  · exact fun hreach hleft => (hpassed hreach hleft).2
  · intro symbol ask fallback missing hreach hkept
    rcases reaches_cases hsound hreach with ⟨-, hmem, -⟩ | ⟨-, hlog, hresult, -⟩
    · obtain ⟨w, hw, hsettles⟩ := (hsettled symbol).1 hmem
      exact absurd hsettles (hkept w hw)
    · exact ⟨hlog, hresult⟩

end Bindings
end Formula
