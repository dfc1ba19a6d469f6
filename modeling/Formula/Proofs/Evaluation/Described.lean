import Formula.Proofs.Evaluation.Arity
import Formula.Proofs.Evaluation.Optimize
import Formula.Proofs.Evaluation.Reduced
import Formula.Proofs.Parser.Printed

/-! Values of descriptions. Main statement: over constants and variables that do not change, the text
of a formula that was built and has a value is a formula of the same value, as long as folding has
left no negative zero as an argument. -/
namespace Formula

open Token

variable {σ ν : Type}

namespace Number

/-- Equal as numbers, or both not a number. -/
def Agrees (x y : Float) : Prop := (x == y) = true ∨ x.isNaN = true ∧ y.isNaN = true

instance (x y : Float) : Decidable (Agrees x y) := inferInstanceAs (Decidable (_ ∨ _ ∧ _))

theorem Agrees.refl (x : Float) : Agrees x x := by
  unfold Agrees
  rw [Float.beq_iff_ne_nan_and_eq, Float.isNaN_eq_decide_eq_nan, decide_eq_true_eq]
  by_cases hx : x = .nan
  · exact .inr ⟨hx, hx⟩
  · exact .inl ⟨hx, hx, .inl rfl⟩

theorem neg_neg (x : Float) : - -x = x := by
  apply eq_of_shape_eq
  rw [shape_neg, shape_neg]
  cases shape x with
  | nan => rfl
  | infinite negative => rw [Shape.neg, Shape.neg, Bool.not_not]
  | finite negative mantissa exponent => rw [Shape.neg, Shape.neg, Bool.not_not]

theorem eq_of_nan {x : Float} (h : shape x = .nan) : x = 0 / 0 := by
  have hquotient : shape (0 / 0) = .nan := by decide +kernel
  exact eq_of_shape_eq (h.trans hquotient.symm)

theorem eq_of_infinite {x : Float} {negative : Bool} (h : shape x = .infinite negative) :
    x = (if negative then -1 else 1) / 0 := by
  have hquotient : shape ((if negative then -1 else 1) / 0) = .infinite negative := by
    cases negative <;> decide +kernel
  exact eq_of_shape_eq (h.trans hquotient.symm)

end Number

namespace Library

/-- Whether the text of an operator can be read where the printer puts it. -/
def Legible : Symbol → Prop
  | .infixOp op => IsOperator op
  | .prefixOp op => IsSymbol op
  | .postfixOp _ => False
  | _ => True

instance : DecidablePred Legible
  | .infixOp op => inferInstanceAs (Decidable (IsOperator op))
  | .prefixOp op => inferInstanceAs (Decidable (IsSymbol op))
  | .postfixOp _ => .isFalse id
  | .var _ | .function .. | .array _ => .isTrue trivial

theorem legible_of_lookup {options : Options} {symbol : Symbol} {f : Function}
    (h : lookup? options symbol = some f) : Legible symbol := by
  have hlegible : ∀ symbol ∈ (arithmetic ++ logic).map Prod.fst, Legible symbol := by decide
  have hmem : (symbol, f) ∈ arithmetic ++ logic := by
    have hentry := mem_of_lookup h
    unfold entries at hentry
    split at hentry
    · exact hentry
    · exact List.mem_append_left _ hentry
  exact hlegible symbol (List.mem_map_of_mem hmem)

end Library

namespace Tree

/-! ### Evaluations that give a value -/

variable {m : Meaning σ ν} {s : σ}

theorem ok_of_evaluateAll {args : List (Tree ν)} {values : List ν} {s' : σ}
    (h : (evaluateAll m args).run s = (.ok values, s')) :
    ∀ arg ∈ args, ∃ s v, ((arg.evaluate m).run s).1 = .ok v := by
  induction args generalizing s s' values with
  | nil => simp
  | cons arg args ih =>
    rw [evaluateAll] at h
    rcases harg : (arg.evaluate m).run s with ⟨error | v, t⟩
    · rw [Action.run_bind_error harg] at h
      cases h
    · rw [Action.run_bind_ok harg] at h
      rcases hargs : (evaluateAll m args).run t with ⟨error | others, t'⟩
      · rw [Action.run_bind_error hargs] at h
        cases h
      · exact List.forall_mem_cons.2 ⟨⟨s, v, congrArg Prod.fst harg⟩, ih hargs⟩

/-- Where a call has a value, so have its arguments. -/
theorem ok_of_evaluate {symbol : Symbol} {args : List (Tree ν)} {v : ν}
    (h : (((apply symbol args).evaluate m).run s).1 = .ok v) :
    (∀ arg ∈ args, ∃ s v, ((arg.evaluate m).run s).1 = .ok v) ∧
      ∃ values s', ((m.call symbol values).run s').1 = .ok v := by
  rw [evaluate] at h
  rcases hargs : (evaluateAll m args).run s with ⟨error | values, s'⟩
  · rw [Action.run_bind_error hargs] at h
    cases h
  · rw [Action.run_bind_ok hargs] at h
    exact ⟨ok_of_evaluateAll hargs, values, s', h⟩

/-- A value that no literal of the tree has. -/
theorem Every.ne_of_places {Q : Symbol → Nat → Prop} {t : Tree ν} (h : t.Every (fun _ => True) Q)
    {x : ν} (hplaces : ∀ place, t.at? place ≠ some (.literal x)) : t.Every (· ≠ x) Q := by
  induction h with
  | literal _ =>
    refine .literal ?_
    rintro rfl
    exact hplaces [] rfl
  | malformed => exact .malformed
  | apply takes _ ih =>
    refine .apply takes fun arg harg => ih arg harg fun place hplace => ?_
    obtain ⟨i, hi⟩ := List.mem_iff_getElem?.1 harg
    exact hplaces _ (at?_apply.2 (.inr ⟨place, i, arg, rfl, hi, hplace⟩))

end Tree

namespace Bindings

open Formula.Tree

/-- What the host binds are numbers and arrays, and variables that always have the same value. -/
structure Fixed (b : Bindings σ) : Prop where
  evaluator : b.evaluator = none
  symbols : ∀ symbol f, (symbol, f) ∈ b.symbols →
    ∃ name value, symbol = .var name ∧ ∀ args h, ((f args).run h).1 = .ok value

namespace Fixed

variable {b : Bindings σ} (hb : b.Fixed)
include hb

/-! ### Operators -/

/-- Operators are left to the library. -/
theorem call_operator {symbol : Symbol} (h : symbol.isOperator = true) (args : List Float) :
    b.call symbol args = match Library.lookup? b.options symbol with
      | some f => pure (f args)
      | none => throw (b.missing symbol) := by
  have hdata : b.data? symbol = none := by
    cases symbol <;> first | rfl | cases h
  have hfree : b.symbols.lookup symbol = none := by
    rw [List.lookup_eq_none_iff]
    intro entry hentry
    obtain ⟨name, value, hname, -⟩ := hb.symbols entry.1 entry.2 hentry
    rw [bne_iff_ne, hname]
    rintro rfl
    cases h
  unfold call resolve
  rw [hdata, hfree, hb.evaluator]
  cases Library.lookup? b.options symbol <;> rfl

theorem legible_of_call {symbol : Symbol} (h : symbol.isOperator = true) {args : List Float}
    {m : Memory σ} {v : Float} (hcall : ((b.call symbol args).run m).1 = .ok v) :
    Library.Legible symbol := by
  rw [hb.call_operator h] at hcall
  cases hf : Library.lookup? b.options symbol with
  | none =>
    rw [hf] at hcall
    cases hcall
  | some f => exact Library.legible_of_lookup hf

theorem run_operator {symbol : Symbol} (h : symbol.isOperator = true) {f : Library.Function}
    (hf : Library.lookup? b.options symbol = some f) {args : List (Tree Float)}
    {values : List Float} {m m' : Memory σ}
    (hargs : (evaluateAll b.meaning args).run m = (.ok values, m')) :
    ((apply symbol args).evaluate b.meaning).run m = (.ok (f values), m') := by
  rw [Tree.evaluate, Action.run_bind_ok hargs]
  change (b.call symbol values).run m' = _
  rw [hb.call_operator h, hf]
  rfl

theorem run_negated (x : Float) (m : Memory σ) :
    ((negated x).evaluate b.meaning).run m = (.ok (-x), m) := by
  have hminus : Library.lookup? b.options (.prefixOp "-") = some (Library.unary fun x => -x) := by
    unfold Library.lookup? Library.entries
    split <;> rfl
  have hargs : (evaluateAll b.meaning [literal x]).run m = (.ok [x], m) := rfl
  have hrun := hb.run_operator rfl hminus hargs
  exact hrun

theorem run_quotient {numerator : Tree Float} {x : Float} {m m' : Memory σ}
    (h : (numerator.evaluate b.meaning).run m = (.ok x, m')) :
    ((quotient numerator).evaluate b.meaning).run m = (.ok (x / 0), m') := by
  have hover : Library.lookup? b.options (.infixOp "/") = some (Library.binary (· / ·)) := by
    unfold Library.lookup? Library.entries
    split <;> rfl
  have hargs : (evaluateAll b.meaning [numerator, literal 0]).run m = (.ok [x, 0], m') := by
    rw [evaluateAll, Action.run_bind_ok h]
    rfl
  have hrun := hb.run_operator rfl hover hargs
  exact hrun

/-- What a literal is written as has its value. -/
theorem run_normal (x : Float) (m : Memory σ) :
    ((literal x).normal.evaluate b.meaning).run m = (.ok x, m) := by
  cases hshape : Number.shape x with
  | nan =>
    rw [normal_nan hshape, normal_quotient, normal_finite Number.shape_zero,
      Number.eq_of_nan hshape]
    exact hb.run_quotient rfl
  | infinite negative =>
    rw [normal_infinite hshape, normal_quotient, Number.eq_of_infinite hshape]
    cases negative with
    | false =>
      rw [if_neg Bool.false_ne_true, normal_finite Number.shape_one]
      exact hb.run_quotient rfl
    | true =>
      rw [if_pos rfl, normal_negative Number.shape_neg_one, Number.neg_neg]
      exact hb.run_quotient (hb.run_negated 1 m)
  | finite negative mantissa exponent =>
    cases negative with
    | false =>
      rw [normal_finite hshape]
      rfl
    | true =>
      rw [normal_negative hshape, hb.run_negated, Number.neg_neg]

/-! ### Trees as they are written -/

theorem ne_evaluator (ask : Evaluator σ Float) : b.evaluator ≠ some ask := by
  rw [hb.evaluator]
  intro h
  cases h

theorem dependable : b.Dependable fun _ _ => True where
  equivalence := ⟨fun _ => trivial, fun _ => trivial, fun _ _ => trivial⟩
  symbols := by
    intro symbol f hf args h h' _
    obtain ⟨name, value, -, hvalue⟩ := hb.symbols symbol f hf
    exact ⟨(hvalue args h).trans (hvalue args h').symm, trivial⟩
  trusted := by
    intro symbol f hf htrusted
    obtain ⟨name, value, rfl, -⟩ := hb.symbols symbol f hf
    simp [trusts] at htrusted
  evaluator := fun ask hask => absurd hask (hb.ne_evaluator ask)
  declines := fun ask hask => absurd hask (hb.ne_evaluator ask)
  declined := fun ask hask => absurd hask (hb.ne_evaluator ask)

/-- No state of the host shows in a value. -/
theorem alike (m m' : Memory σ) : b.Alike (fun _ _ => True) m m' := by
  have hdeclines : ∀ symbol, b.Declines symbol :=
    fun symbol ask hask => absurd hask (hb.ne_evaluator ask)
  exact ⟨trivial, fun symbol _ => hdeclines symbol, fun symbol _ => hdeclines symbol⟩

/-- A formula next to itself, in another state of the host. -/
def simulation : Simulation b.meaning b.meaning :=
  Bindings.simulation hb.dependable b.options.optimize b.options.optimize

theorem evaluate_eq {t other : Tree Float} {m : Memory σ}
    (h : hb.simulation.Implements m t other) (m' n : Memory σ) :
    ((t.evaluate b.meaning).run n).1 = ((other.evaluate b.meaning).run m').1 := by
  have hsame : hb.simulation.Implements n t other := h.extend _ trivial
  obtain ⟨-, hresult⟩ := hsame.evaluate _ (hb.alike n m') trivial
  exact Matches.eq hresult

mutual

theorem implements_normal (m : Memory σ) (t : Tree Float) :
    hb.simulation.Implements m t t.normal := by
  cases t with
  | literal x =>
    exact .literal ⟨x, rfl, fun _ n _ hn => ⟨n, hb.run_normal x n, hn⟩⟩
  | apply symbol args => exact .apply trivial (implementsAll_normal m args)
  | malformed error source => exact .malformed

theorem implementsAll_normal (m : Memory σ) (ts : List (Tree Float)) :
    hb.simulation.ImplementsAll m ts (normalAll ts) := by
  cases ts with
  | nil => exact .nil
  | cons t ts => exact .cons (implements_normal m t) (implementsAll_normal m ts)

end

/-- A tree has the value of what it is written as. -/
theorem evaluate_normal (t : Tree Float) (m m' : Memory σ) :
    ((t.evaluate b.meaning).run m).1 = ((t.normal.evaluate b.meaning).run m').1 :=
  hb.evaluate_eq (hb.implements_normal m t) m' m

/-- A formula that was built has the value of the tree that it was built from. -/
theorem evaluate_build (t : Tree Float) (start m m' : Memory σ) :
    ((Expression.build b t start).1.evaluate.run m).1 = ((t.evaluate b.meaning).run m').1 := by
  have hsame : hb.simulation.Implements start t t := by
    have h := hb.simulation.implements_map (f := id) (g := id) (fun _ _ => rfl) start t
      fun _ _ => trivial
    rwa [Tree.map_id] at h
  rw [build_eq]
  cases b.options.optimize with
  | false => exact hb.evaluate_eq hsame m' m
  | true => exact hb.evaluate_eq (hsame.fold _ (hb.alike start start) trivial).2 m' m

/-! ### Trees with a value -/

/-- A tree that has a value is plain, if it has names that an operator may be written to and no
negative zero. -/
theorem plain {t : Tree Float} (ht : t.Every (· ≠ -0) Symbol.Takes)
    (hwords : ∀ symbol ∈ t.occurrences, symbol.isOperator = false → IsWord symbol.name)
    {m : Memory σ} {v : Float} (h : ((t.evaluate b.meaning).run m).1 = .ok v) : t.Plain := by
  induction ht generalizing m v with
  | literal sign => exact .literal sign
  | malformed => cases h
  | @apply symbol args takes _ ih =>
    obtain ⟨hargs, values, m', hcall⟩ := ok_of_evaluate h
    have hplain : ∀ arg ∈ args, arg.Plain := by
      intro arg harg
      obtain ⟨n, w, hvalue⟩ := hargs arg harg
      refine ih arg harg (fun other hother => hwords other ?_) hvalue
      exact List.mem_cons_of_mem symbol (occurrences_of_mem harg hother)
    have hword := hwords symbol List.mem_cons_self
    cases symbol with
    | var name =>
      obtain rfl := List.length_eq_zero_iff.1 takes
      exact .var (hword rfl)
    | array name =>
      obtain ⟨arg, rfl⟩ := List.length_eq_one_iff.1 takes
      exact .array (hword rfl) (hplain arg List.mem_cons_self)
    | function name arity =>
      obtain rfl : args.length = arity := takes
      exact .function (hword rfl) hplain
    | prefixOp op =>
      obtain ⟨arg, rfl⟩ := List.length_eq_one_iff.1 takes
      exact .prefixOp (hb.legible_of_call rfl hcall) (hplain arg List.mem_cons_self)
    | postfixOp op => exact (hb.legible_of_call rfl hcall).elim
    | infixOp op =>
      obtain takes | ⟨takes, rfl⟩ := takes
      · obtain ⟨left, right, rfl⟩ := List.length_eq_two.1 takes
        exact .infixOp (hb.legible_of_call rfl hcall) (hplain left (by simp))
          (hplain right (by simp))
      · obtain ⟨condition, yes, no, rfl⟩ := List.length_eq_three.1 takes
        exact .conditional (hplain condition (by simp)) (hplain yes (by simp))
          (hplain no (by simp))

end Fixed
end Bindings

namespace Expression

open Bindings

/-- Whenever a formula that was built has a value, its text is a formula that has the same value in
every evaluation. The names that are left may follow an operator, and no argument is a negative zero,
which is written without its sign. -/
theorem evaluate_described {b : Bindings σ} (hb : b.Fixed) (source : String) (start m : Memory σ)
    {v : Float} :
    let e := (build b (Tree.ofSource source) start).1
    (∀ symbol ∈ e.symbols, symbol.isOperator = false → IsWord symbol.name) →
    (∀ place, e.tree.at? place = some (.literal (-0)) → place = []) →
    (e.evaluate.run m).1 = .ok v →
    ∀ start' m', ∃ w, ((build b (Tree.ofSource e.text) start').1.evaluate.run m').1 = .ok w ∧
      Number.Agrees w v := by
  intro e hwords hzero hvalue start' m'
  have htakes : e.tree.Every (fun _ => True) Symbol.Takes :=
    every_build (Tree.every_ofSource source) b start
  have hbindings : e.bindings = b := by
    unfold e
    rw [build_eq]
  unfold evaluate at hvalue
  rw [hbindings] at hvalue
  by_cases hroot : e.tree = .literal (-0)
  · have htext : e.text = (Tree.literal 0).text := by
      rw [text, hroot]
      decide +kernel
    have hnumeral : (Tree.literal 0).Plain := .numeral Number.shape_zero
    have hread : Tree.ofSource e.text = .literal 0 := by
      rw [htext, hnumeral.readable.ofSource_normal, Tree.normal_finite Number.shape_zero]
    rw [hroot] at hvalue
    obtain rfl : -0 = v := Except.ok.inj hvalue
    refine ⟨0, ?_, by decide +kernel⟩
    rw [hread, hb.evaluate_build _ _ _ m']
    rfl
  · have hplaces : ∀ place, e.tree.at? place ≠ some (.literal (-0)) := by
      intro place hplace
      obtain rfl := hzero place hplace
      exact hroot (Option.some.inj hplace)
    have hplain : e.tree.Plain := hb.plain (htakes.ne_of_places hplaces)
      (fun symbol hsymbol => hwords symbol (Tree.mem_symbols.2 hsymbol)) hvalue
    have hread : Tree.ofSource e.text = e.tree.normal := hplain.readable.ofSource_normal
    refine ⟨v, ?_, .refl v⟩
    rw [hread, hb.evaluate_build _ _ _ m', ← hb.evaluate_normal e.tree m m']
    exact hvalue

/-- A host with a variable that is one whenever it is read. -/
def unitary : Bindings Unit where
  symbols := [(.var "x", fun _ => pure 1)]

theorem unitary_fixed : unitary.Fixed where
  evaluator := rfl
  symbols := by
    intro symbol f hf
    obtain ⟨rfl, rfl⟩ := Prod.mk.inj (List.mem_singleton.1 hf)
    exact ⟨"x", 1, rfl, fun _ _ => rfl⟩

/-- Folding leaves a negative number and an infinity, and both are read again. -/
theorem evaluate_described_infinite :
    let e := (build unitary (Tree.ofSource "x * (1 - 3) + 1 / 0") ⟨(), []⟩).1
    unitary.Fixed ∧ e.text = "x * -2 + (1 / 0)" ∧
    (∀ symbol ∈ e.symbols, symbol.isOperator = false → IsWord symbol.name) ∧
    (∀ place, e.tree.at? place = some (.literal (-0)) → place = []) ∧
    (e.evaluate.run ⟨(), []⟩).1 = .ok (1 * (1 - 3) + 1 / 0) ∧
    ∃ w, ((build unitary (Tree.ofSource e.text) ⟨(), []⟩).1.evaluate.run ⟨(), []⟩).1 = .ok w ∧
      Number.Agrees w (1 * (1 - 3) + 1 / 0) := by
  intro e
  have hone : (Tree.literal 1).Plain := .numeral Number.shape_one
  have hthree : Number.shape 3 = .finite false 0x18000000000000 (-51) := by decide +kernel
  let difference : Tree Float := .apply (.infixOp "-") [.literal 1, .literal 3]
  let source : Tree Float := .apply (.infixOp "+")
    [.apply (.infixOp "*") [.named "x", difference], Tree.quotient (.literal 1)]
  have hsource : Tree.ofSource "x * (1 - 3) + 1 / 0" = source := by
    have htext : source.text = "x * (1 - 3) + 1 / 0" := by decide +kernel
    have hdifference : difference.Plain := .infixOp (by decide) hone (.numeral hthree)
    have hproduct : (Tree.apply (.infixOp "*") [.named "x", difference]).Plain :=
      .infixOp (by decide) (.var (by decide)) hdifference
    have hquotient : (Tree.quotient (.literal 1)).Plain :=
      .infixOp (by decide) hone (.numeral Number.shape_zero)
    have hplain : source.Plain := .infixOp (by decide) hproduct hquotient
    rw [← htext, hplain.readable.ofSource_normal]
    unfold source difference
    simp [Tree.normal_named, Tree.normal_quotient, Tree.normal_finite Number.shape_one,
      Tree.normal_finite hthree]
  have htree : e.tree = .apply (.infixOp "+")
      [.apply (.infixOp "*") [.named "x", .literal (1 - 3)], .literal (1 / 0)] := by
    unfold e
    rw [hsource]
    rfl
  have htext : e.text = "x * -2 + (1 / 0)" := by
    rw [text, htree]
    decide +kernel
  have hwords : ∀ symbol ∈ e.symbols, symbol.isOperator = false → IsWord symbol.name := by
    rw [symbols, htree]
    decide
  have hplaces : ∀ place, e.tree.at? place = some (.literal (-0)) → place = [] := by
    intro place hplace
    have hnegative : (-0 : Float) ≠ 1 - 3 := by decide +kernel
    have hinfinite : (-0 : Float) ≠ 1 / 0 := by decide +kernel
    have hnode := Tree.mem_nodesAt.2 ⟨place, (List.append_nil place).symm, hplace⟩
    rw [htree] at hnode
    simp [Tree.nodesAt, Tree.nodesFrom, Tree.named, hnegative, hinfinite] at hnode
  have hvalue : (e.evaluate.run ⟨(), []⟩).1 = .ok (1 * (1 - 3) + 1 / 0) := by
    unfold e
    rw [hsource]
    rfl
  exact ⟨unitary_fixed, htext, hwords, hplaces, hvalue,
    evaluate_described unitary_fixed _ _ _ hwords hplaces hvalue _ _⟩

/-- The sign of a zero that was folded is lost, and with it the sign of what is divided by it. -/
theorem evaluate_described_negative_zero :
    let e := (build unitary (Tree.ofSource "x / -0") ⟨(), []⟩).1
    unitary.Fixed ∧ e.text = "x / 0" ∧
    (∀ symbol ∈ e.symbols, symbol.isOperator = false → IsWord symbol.name) ∧
    (e.evaluate.run ⟨(), []⟩).1 = .ok (1 / -0) ∧
    ((build unitary (Tree.ofSource e.text) ⟨(), []⟩).1.evaluate.run ⟨(), []⟩).1 = .ok (1 / 0) ∧
    ¬ Number.Agrees (1 / 0) (1 / -0) := by
  intro e
  have hx : (Tree.named "x").Plain := .var (by decide)
  have hzero : (Tree.literal 0).Plain := .numeral Number.shape_zero
  let source : Tree Float := .apply (.infixOp "/") [.named "x", .apply (.prefixOp "-") [.literal 0]]
  have hsource : Tree.ofSource "x / -0" = source := by
    have htext : source.text = "x / -0" := by decide +kernel
    have hplain : source.Plain := .infixOp (by decide) hx (.prefixOp (by decide) hzero)
    rw [← htext, hplain.readable.ofSource_normal]
    unfold source
    simp [Tree.normal_named, Tree.normal_finite Number.shape_zero]
  have hdivided : Tree.ofSource "x / 0" = Tree.quotient (.named "x") := by
    have htext : (Tree.quotient (.named "x")).text = "x / 0" := by decide +kernel
    have hplain : (Tree.quotient (.named "x")).Plain := .infixOp (by decide) hx hzero
    rw [← htext, hplain.readable.ofSource_normal, Tree.normal_quotient, Tree.normal_named]
  have htree : e.tree = .apply (.infixOp "/") [.named "x", .literal (-0)] := by
    unfold e
    rw [hsource]
    rfl
  have htext : e.text = "x / 0" := by
    rw [text, htree]
    decide +kernel
  refine ⟨unitary_fixed, htext, ?words, ?value, ?again, by decide +kernel⟩
  case words =>
    rw [symbols, htree]
    decide
  case value =>
    unfold e
    rw [hsource]
    rfl
  case again =>
    rw [htext, hdivided]
    rfl

end Expression
end Formula
