import Formula.Proofs.Evaluation.Recording
import Mathlib.Data.List.Infix

/-! What a symbol answers in words and in values. Main statements: the handlers of a symbol match
those of the reference one by one, and if words stand for values, they give the reference's answer,
which holds no NaN or negative zero in a list unless the host returned one. -/
namespace Formula.Mixed.Bindings

variable {σ : Type}

/-- A handler, and the one of the reference in its place. -/
inductive Mirrors (b : Bindings σ) (symbol : Symbol) : Handler σ → Handler σ → Prop
  where
  | numeric {f} (bound : (symbol, f) ∈ b.numericSymbols) :
    Mirrors b symbol (.numeric f) (.numeric f)
  | general {f} (bound : (symbol, f) ∈ b.symbols) : Mirrors b symbol (.general f) (.general f)
  | evaluator {ask} (bound : b.evaluator = some ask) :
    Mirrors b symbol (.evaluator (ask symbol)) (.evaluator (ask symbol))
  | operator {f g} (clean : Value.Library.KeepsClean f)
    (same : ∀ {t : Table} {words : List Word} {values : List Value}, t.WellFormed →
      List.Forall₂ (Word.StandsFor t) words values →
      f symbol words values = g symbol [] values) :
    Mirrors b symbol (.operator f) (.operator g)
  | library {f} : Mirrors b symbol (.library f) (.library f)
  | subscript {name value} (bound : (name, value) ∈ b.constants) :
    Mirrors b symbol (.subscript value) (.subscript value)

theorem forall₂_toList {α β γ : Type} {R : β → γ → Prop} {o : Option α} {f : α → β} {g : α → γ}
    (h : ∀ x, o = some x → R (f x) (g x)) : List.Forall₂ R (o.map f).toList (o.map g).toList := by
  cases o with
  | none => exact .nil
  | some x => exact .cons (h x rfl) .nil

theorem exists_of_forall₂ {α β : Type} {R : α → β → Prop} {xs : List α} {ys : List β}
    (h : List.Forall₂ R xs ys) {y : β} (hy : y ∈ ys) : ∃ x ∈ xs, R x y := by
  induction h with
  | nil => cases hy
  | cons hr _ ih =>
    rcases List.mem_cons.1 hy with rfl | hy
    · exact ⟨_, List.mem_cons_self, hr⟩
    · obtain ⟨x, hx, hr⟩ := ih hy
      exact ⟨x, List.mem_cons_of_mem _ hx, hr⟩

theorem operator_mirrors (b : Bindings σ) (symbol : Symbol) :
    List.Forall₂ (Mirrors b symbol)
      ((Value.Library.lookup? b.options symbol).map Handler.operator).toList
      ((Value.Library.unboxed? b.options symbol).map Handler.operator).toList := by
  rcases Value.Library.lookup?_unboxed b.options symbol with
    ⟨hf, hg⟩ | ⟨f, g, hf, hg, hclean, hsame⟩ <;> rw [hf, hg]
  · exact .nil
  · exact .cons (.operator hclean hsame) .nil

theorem handlers_mirror (b : Bindings σ) (symbol : Symbol) :
    List.Forall₂ (Mirrors b symbol) (b.handlers symbol) (b.unboxedHandlers symbol) := by
  unfold handlers unboxedHandlers
  cases hs : b.subscripted? symbol with
  | some value =>
    unfold subscripted? at hs
    split at hs
    · exact .cons (.subscript (mem_of_lookup hs)) .nil
    · simp at hs
  | none =>
    have happend := @List.rel_append _ _ (Mirrors b symbol)
    refine happend (happend (happend (happend ?_ ?_) ?_) ?_) ?_
    · exact forall₂_toList fun f hf => .numeric (mem_of_lookup hf)
    · exact forall₂_toList fun f hf => .general (mem_of_lookup hf)
    · exact forall₂_toList fun ask hask => .evaluator hask
    · exact operator_mirrors b symbol
    · exact forall₂_toList fun f _ => .library

/-- What the bindings promise of their host, up to states that it does not tell apart: what is
called ahead of evaluation depends on its arguments only and has no effect. -/
structure Dependable (b : Bindings σ) (alike : σ → σ → Prop) : Prop where
  equivalence : Equivalence alike
  numericSymbols : ∀ symbol f, (symbol, f) ∈ b.numericSymbols → ∀ args, Uniform alike (f args)
  symbols : ∀ symbol f, (symbol, f) ∈ b.symbols → ∀ args, Uniform alike (f args)
  evaluator : ∀ ask, b.evaluator = some ask → ∀ symbol args, Uniform alike (ask symbol args)
  foldedNumeric : b.options.optimize = true → ∀ symbol f, (symbol, f) ∈ b.numericSymbols →
    b.isPure symbol = true → ∀ args, Steady alike (f args)
  foldedSymbols : b.options.optimize = true → ∀ symbol f, (symbol, f) ∈ b.symbols →
    b.isPure symbol = true → ∀ args, Steady alike (f args)

namespace Mirrors

variable {b : Bindings σ} {symbol : Symbol} {h h' : Handler σ}

theorem isEvaluator (hm : Mirrors b symbol h h') : h.isEvaluator = h'.isEvaluator := by
  cases hm <;> rfl

theorem isLibrary (hm : Mirrors b symbol h h') : h.isLibrary = h'.isLibrary := by
  cases hm <;> rfl

theorem isNumeric (hm : Mirrors b symbol h h') : h.isNumeric = h'.isNumeric := by
  cases hm <;> rfl

theorem run_liftExcept {τ α : Type} (result : Except Error α) (s : τ) :
    (Handler.liftExcept result : Action τ α).run s = (result, s) := by
  cases result <;> rfl

/-- An element of a clean value is clean. -/
theorem element_clean {symbol : Symbol} {value v : Value} {args : List Value} (hc : value.Clean)
    (h : element symbol value args = .ok v) : v.Clean := by
  unfold element at h
  split at h
  · split at h
    · cases h
    · dsimp only at h
      split at h
      · rename_i found heq
        obtain rfl := Except.ok.inj h
        split at heq
        · exact Value.PlainAll.clean_of_getElem? hc (Option.some.inj heq)
        · obtain ⟨c, _, rfl⟩ := Option.map_eq_some_iff.1 (Option.some.inj heq)
          trivial
        · cases heq
      · cases h
      · cases h
  · cases h

/-- A handler answers words as the reference answers the values that they stand for. The answer is
clean if what is noted of it is. -/
theorem call {alike : σ → σ → Prop} (hb : b.Dependable alike) (hm : Mirrors b symbol h h')
    (hconstants : ∀ entry ∈ b.constants, entry.2.Clean) {t : Table} (ht : t.WellFormed)
    {words : List Word} {values : List Value}
    (hwords : List.Forall₂ (Word.StandsFor t) words values) (hvalues : ∀ v ∈ values, v.Clean)
    {x : Noted σ} {y : σ} (hxy : alike x.1 y) :
    let p := (h.noting.call symbol words values).run x
    let q := (h'.call symbol [] values).run y
    p.1 = q.1 ∧ alike p.2.1 q.2 ∧
      ((∀ w ∈ p.2.2, w.Clean) → ∀ v, p.1 = .ok (some v) → v.Clean) := by
  cases hm with
  | numeric bound =>
    dsimp only
    rw [Handler.noting, Handler.call, Handler.call]
    split
    · rename_i numbers _
      obtain ⟨hresult, hnext⟩ := hb.numericSymbols symbol _ bound numbers x.1 y hxy
      rw [Action.run_map, Action.run_map]
      refine ⟨congrArg (Except.map _) hresult, hnext, fun _ v hv => ?_⟩
      obtain ⟨number, _, hv⟩ := exists_of_map_eq_ok hv
      obtain rfl := Option.some.inj hv
      trivial
    · exact ⟨rfl, hxy, fun _ v hv => by cases hv⟩
  | general bound =>
    dsimp only
    obtain ⟨hresult, hnext⟩ := hb.symbols symbol _ bound values x.1 y hxy
    rw [Handler.noting, Handler.call, Handler.call, Action.run_map, Action.run_map]
    refine ⟨congrArg (Except.map _) hresult, hnext, fun hnotes v hv => ?_⟩
    obtain ⟨value, hvalue, hv⟩ := exists_of_map_eq_ok hv
    obtain rfl := Option.some.inj hv
    refine hnotes value (List.mem_append_right _ ?_)
    have hvalue : ((_ : Action σ Value).run x.1).1 = .ok value := hvalue
    rw [hvalue]
    exact List.mem_singleton_self value
  | evaluator bound =>
    dsimp only
    obtain ⟨hresult, hnext⟩ := hb.evaluator _ bound symbol values x.1 y hxy
    refine ⟨hresult, hnext, fun hnotes v hv => ?_⟩
    refine hnotes v (List.mem_append_right _ ?_)
    have hv : ((_ : Action σ (Option Value)).run x.1).1 = .ok (some v) := hv
    rw [hv]
    exact List.mem_singleton_self v
  | operator clean same =>
    dsimp only
    rw [Handler.noting, Handler.call, Handler.call, run_liftExcept, run_liftExcept, same ht hwords]
    refine ⟨rfl, hxy, fun _ v hv => ?_⟩
    exact clean symbol words values v hvalues ((same ht hwords).trans hv)
  | library =>
    dsimp only
    rw [Handler.noting, Handler.call, Handler.call]
    split
    · refine ⟨rfl, hxy, fun _ v hv => ?_⟩
      obtain rfl := Option.some.inj (Except.ok.inj hv)
      trivial
    · exact ⟨rfl, hxy, fun _ v hv => by cases hv⟩
  | subscript bound =>
    dsimp only
    rw [Handler.noting, Handler.call, Handler.call, run_liftExcept, run_liftExcept]
    refine ⟨rfl, hxy, fun _ v hv => ?_⟩
    obtain ⟨element, helement, hv⟩ := exists_of_map_eq_ok hv
    obtain rfl := Option.some.inj hv
    exact element_clean (hconstants _ bound) helement

end Mirrors

/-! ### The first answer -/

theorem run_firstAnswer_cons (b : Bindings σ) (symbol : Symbol) (words : List Word)
    (values : List Value) (declined : Bool) (h : Handler σ) (hs : List (Handler σ))
    (m : Formula.Memory σ) :
    (b.firstAnswer symbol words values declined (h :: hs)).run m =
      if h.isEvaluator && m.settled.contains symbol then
        (b.firstAnswer symbol words values declined hs).run m
      else
        let p := (h.call symbol words values).run m.host
        match p.1 with
        | .ok (some value) => (.ok (some value),
            ⟨p.2, if declined && b.options.optimize && h.isLibrary then symbol :: m.settled
              else m.settled⟩)
        | .ok none => (b.firstAnswer symbol words values (declined || h.isEvaluator) hs).run
            ⟨p.2, m.settled⟩
        | .error error => (.error error, ⟨p.2, m.settled⟩) := by
  have hsettled : (Formula.Memory.isSettled symbol : Action (Formula.Memory σ) Bool).run m =
      (.ok (m.settled.contains symbol), m) := rfl
  have honHost : (Formula.Memory.onHost (h.call symbol words values)).run m =
      (((h.call symbol words values).run m.host).1,
        ⟨((h.call symbol words values).run m.host).2, m.settled⟩) := rfl
  rw [firstAnswer, Action.run_bind_ok hsettled]
  split
  · rfl
  · generalize (h.call symbol words values).run m.host = p at honHost
    obtain ⟨error | _ | value, s⟩ := p
    · rw [Action.run_bind_error honHost]
    · rw [Action.run_bind_ok honHost]
    · rw [Action.run_bind_ok honHost]
      dsimp only
      split <;> rfl

/-- Words that stand for values have the answer that the values have under the reference. -/
theorem firstAnswer_mirrors {b : Bindings σ} {symbol : Symbol} {alike : σ → σ → Prop}
    (hb : b.Dependable alike) {hs hs' : List (Handler σ)}
    (hmirror : List.Forall₂ (Mirrors b symbol) hs hs')
    (hconstants : ∀ entry ∈ b.constants, entry.2.Clean) {t : Table} (ht : t.WellFormed)
    {words : List Word} {values : List Value}
    (hwords : List.Forall₂ (Word.StandsFor t) words values) (hvalues : ∀ v ∈ values, v.Clean)
    (declined : Bool) {m : Formula.Memory (Noted σ)} {n : Formula.Memory σ}
    (hhost : alike m.host.1 n.host) (hsettled : m.settled = n.settled) :
    let p := (b.recording.firstAnswer symbol words values declined (hs.map Handler.noting)).run m
    let q := (b.firstAnswer symbol [] values declined hs').run n
    p.1 = q.1 ∧ alike p.2.host.1 q.2.host ∧ p.2.settled = q.2.settled ∧
      ((∀ w ∈ p.2.host.2, w.Clean) → ∀ v, p.1 = .ok (some v) → v.Clean) := by
  induction hmirror generalizing declined m n with
  | nil => exact ⟨rfl, hhost, hsettled, fun _ v hv => by cases hv⟩
  | @cons h h' hs hs' hm _ ih =>
    obtain ⟨hresult, hnext, hclean⟩ := hm.call hb hconstants ht hwords hvalues hhost
    have hoptimize : b.recording.options.optimize = b.options.optimize := rfl
    rw [List.map_cons]
    simp only [run_firstAnswer_cons, Handler.isEvaluator_noting, Handler.isLibrary_noting,
      hm.isEvaluator, hm.isLibrary, hsettled, hoptimize]
    split
    · exact ih declined hhost hsettled
    · rw [← hresult]
      generalize (h.noting.call symbol words values).run m.host = p at hresult hnext hclean
      generalize (h'.call symbol [] values).run n.host = q at hresult hnext
      obtain ⟨error | _ | value, x⟩ := p
      · exact ⟨rfl, hnext, rfl, fun _ v hv => by cases hv⟩
      · exact ih _ hnext rfl
      · exact ⟨rfl, hnext, rfl, hclean⟩

/-- Notes are only added. -/
theorem prefix_noting (h : Handler σ) (symbol : Symbol) (words : List Word) (values : List Value)
    (x : Noted σ) : x.2 <+: ((h.noting.call symbol words values).run x).2.2 := by
  cases h with
  | numeric f =>
    rw [Handler.noting, Handler.call]
    split
    · rw [Action.run_map]
      exact List.prefix_append _ _
    · exact List.prefix_rfl
  | general f =>
    rw [Handler.noting, Handler.call, Action.run_map]
    exact List.prefix_append _ _
  | evaluator ask => exact List.prefix_append _ _
  | operator f =>
    rw [Handler.noting, Handler.call, Mirrors.run_liftExcept]
  | library f =>
    rw [Handler.noting, Handler.call]
    split <;> exact List.prefix_rfl
  | subscript value =>
    rw [Handler.noting, Handler.call, Mirrors.run_liftExcept]

theorem prefix_firstAnswer (b : Bindings σ) (symbol : Symbol) (words : List Word)
    (values : List Value) (declined : Bool) (hs : List (Handler σ))
    (m : Formula.Memory (Noted σ)) :
    m.host.2 <+: ((b.recording.firstAnswer symbol words values declined
      (hs.map Handler.noting)).run m).2.host.2 := by
  induction hs generalizing declined m with
  | nil => exact List.prefix_rfl
  | cons h hs ih =>
    have hasked := prefix_noting h symbol words values m.host
    rw [List.map_cons, run_firstAnswer_cons]
    split
    · exact ih declined m
    · dsimp only
      split
      · exact hasked
      · exact hasked.trans (ih _ ⟨((h.noting.call symbol words values).run m.host).2, m.settled⟩)
      · exact hasked

theorem declined_eq (b : Bindings σ) (symbol : Symbol) (values : List Value) :
    (if (b.unboxedHandlers symbol).any Handler.isNumeric then .mismatch symbol values
      else b.missing symbol) = b.declined symbol values := by
  have hany : (b.unboxedHandlers symbol).any Handler.isNumeric =
      (b.handlers symbol).any Handler.isNumeric := by
    have hmirror := b.handlers_mirror symbol
    generalize b.handlers symbol = hs at hmirror
    generalize b.unboxedHandlers symbol = hs' at hmirror
    induction hmirror with
    | nil => rfl
    | cons hm _ ih => rw [List.any_cons, List.any_cons, ih, hm.isNumeric]
  rw [declined, hany]

theorem run_unboxedCall (b : Bindings σ) (symbol : Symbol) (values : List Value)
    (m : Formula.Memory σ) :
    (b.unboxedCall symbol values).run m =
      let p := (b.firstAnswer symbol [] values false (b.unboxedHandlers symbol)).run m
      match p.1 with
      | .ok (some value) => (.ok value, p.2)
      | .ok none => (.error (b.declined symbol values), p.2)
      | .error error => (.error error, p.2) := by
  unfold unboxedCall
  dsimp only
  rcases hrun : (b.firstAnswer symbol [] values false (b.unboxedHandlers symbol)).run m with
    ⟨error | _ | value, n⟩
  · rw [Action.run_bind_error hrun]
  · rw [Action.run_bind_ok hrun, declined_eq]
    rfl
  · rw [Action.run_bind_ok hrun]
    rfl

/-! ### What is called ahead of evaluation -/

/-- Alike hosts, with the same symbols settled. -/
def Beside (alike : σ → σ → Prop) (m n : Formula.Memory σ) : Prop :=
  alike m.host n.host ∧ m.settled = n.settled

theorem beside_equivalence {alike : σ → σ → Prop} (h : Equivalence alike) :
    Equivalence (Beside alike) where
  refl m := ⟨h.refl m.host, rfl⟩
  symm hm := ⟨h.symm hm.1, hm.2.symm⟩
  trans hm hn := ⟨h.trans hm.1 hn.1, hm.2.trans hn.2⟩

section
variable {b : Bindings σ} {symbol : Symbol} {alike : σ → σ → Prop} (hb : b.Dependable alike)
include hb

theorem steady_liftExcept {α : Type} (result : Except Error α) :
    Steady alike (Handler.liftExcept result) :=
  ⟨result, fun h => ⟨h, Mirrors.run_liftExcept result h, hb.equivalence.refl h⟩⟩

theorem Mirrors.steady {h h' : Handler σ} (hm : Mirrors b symbol h h')
    (hoptimize : b.options.optimize = true) (hpure : b.isPure symbol = true) {trusted : Bool}
    (hh : h.isPure trusted = true) (values : List Value) :
    h'.isEvaluator = false ∧ Steady alike (h'.call symbol [] values) := by
  cases hm with
  | numeric bound =>
    refine ⟨rfl, ?_⟩
    rw [Handler.call]
    split
    · refine (hb.foldedNumeric hoptimize symbol _ bound hpure _).bind hb.equivalence fun _ => ?_
      exact .pure hb.equivalence _
    · exact .pure hb.equivalence none
  | general bound =>
    refine ⟨rfl, ?_⟩
    refine (hb.foldedSymbols hoptimize symbol _ bound hpure _).bind hb.equivalence fun _ => ?_
    exact .pure hb.equivalence _
  | evaluator bound => cases hh
  | operator clean same => exact ⟨rfl, steady_liftExcept hb _⟩
  | library =>
    refine ⟨rfl, ?_⟩
    rw [Handler.call]
    split
    · exact .pure hb.equivalence _
    · exact .throw hb.equivalence _
  | subscript bound => exact ⟨rfl, steady_liftExcept hb _⟩

theorem firstAnswer_steady {words : List Word} {values : List Value} {hs : List (Handler σ)}
    (hhs : ∀ h ∈ hs, h.isEvaluator = false ∧ Steady alike (h.call symbol words values)) :
    Steady (Beside alike) (b.firstAnswer symbol words values false hs) := by
  have hequivalence := beside_equivalence hb.equivalence
  induction hs with
  | nil => exact .pure hequivalence none
  | cons h hs ih =>
    obtain ⟨hevaluator, result, hrun⟩ := hhs h List.mem_cons_self
    rcases result with error | _ | value
    · refine ⟨.error error, fun m => ?_⟩
      obtain ⟨s, hs, halike⟩ := hrun m.host
      refine ⟨⟨s, m.settled⟩, ?_, halike, rfl⟩
      rw [run_firstAnswer_cons, hevaluator, hs]
      rfl
    · obtain ⟨final, hfinal⟩ := ih fun h hmem => hhs h (List.mem_cons_of_mem _ hmem)
      refine ⟨final, fun m => ?_⟩
      obtain ⟨s, hs, halike⟩ := hrun m.host
      obtain ⟨n, hn, hbeside⟩ := hfinal ⟨s, m.settled⟩
      have hfirst : Beside alike m ⟨s, m.settled⟩ := ⟨halike, rfl⟩
      refine ⟨n, ?_, hequivalence.trans hfirst hbeside⟩
      rw [run_firstAnswer_cons, hevaluator, hs]
      exact hn
    · refine ⟨.ok (some value), fun m => ?_⟩
      obtain ⟨s, hs, halike⟩ := hrun m.host
      refine ⟨⟨s, m.settled⟩, ?_, halike, rfl⟩
      rw [run_firstAnswer_cons, hevaluator, hs]
      rfl

/-- A pure call has one result under the reference. -/
theorem unboxedCall_steady (hoptimize : b.options.optimize = true)
    (hpure : b.isPure symbol = true) (values : List Value) :
    Steady (Beside alike) (b.unboxedCall symbol values) := by
  have hequivalence := beside_equivalence hb.equivalence
  obtain ⟨trusted, hall⟩ : ∃ trusted, (b.handlers symbol).all (Handler.isPure trusted) = true :=
    ⟨_, (Bool.and_eq_true_iff.1 hpure).2⟩
  have hhandlers : ∀ h' ∈ b.unboxedHandlers symbol,
      h'.isEvaluator = false ∧ Steady alike (h'.call symbol [] values) := by
    intro h' hmem
    obtain ⟨h, hmem, hm⟩ := exists_of_forall₂ (b.handlers_mirror symbol) hmem
    exact hm.steady hb hoptimize hpure (List.all_eq_true.1 hall h hmem) values
  refine (firstAnswer_steady hb hhandlers).bind hequivalence fun answer => ?_
  cases answer with
  | some value => exact .pure hequivalence value
  | none => exact .throw hequivalence _

end

end Formula.Mixed.Bindings
