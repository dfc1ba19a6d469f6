import Formula.Proofs.Evaluation.Agreement
import Formula.Proofs.Evaluation.Folding

/-! What folding leaves. Main statement: as long as trusted functions depend on their arguments
only, a formula that was optimized has no pure call of literals that would give a value, so that
folding it again changes nothing; its symbols are those of the tree that is printed, and none of
them is new. -/
namespace Formula

variable {σ ν : Type}

open Visit

/-- What comes of a pure call depends on its arguments only. -/
def Meaning.Repeatable (m : Meaning σ ν) : Prop :=
  ∀ symbol, m.isPure symbol = true → ∀ args s s',
    ((m.call symbol args).run s).1 = ((m.call symbol args).run s').1

namespace Tree

/-- In no state a pure call of literals gives a value. -/
def Reduced (m : Meaning σ ν) (t : Tree ν) : Prop :=
  ∀ q symbol values, t.at? q = some (apply symbol (values.map literal)) →
    m.isPure symbol = true → ∀ s, ∃ error, ((m.call symbol values).run s).1 = .error error

variable {m : Meaning σ ν}

theorem at?_apply {symbol : Symbol} {args : List (Tree ν)} {place : Place} {node : Tree ν} :
    (apply symbol args).at? place = some node ↔
      place = [] ∧ apply symbol args = node ∨
        ∃ inner i arg, place = inner ++ [i] ∧ args[i]? = some arg ∧ arg.at? inner = some node := by
  constructor
  · intro h
    rcases List.eq_nil_or_concat place with rfl | ⟨inner, i, rfl⟩
    · exact .inl ⟨rfl, Option.some.inj h⟩
    · rw [List.concat_eq_append, at?_append] at h
      obtain ⟨arg, harg, hnode⟩ := Option.bind_eq_some_iff.1 h
      exact .inr ⟨inner, i, arg, by simp, harg, hnode⟩
  · rintro (⟨rfl, rfl⟩ | ⟨inner, i, arg, rfl, harg, hnode⟩)
    · rfl
    · rw [at?_append]
      exact (congrArg (Option.bind · _) harg).trans hnode

theorem reduced_literal (value : ν) : (literal value).Reduced m := by
  intro q symbol values h
  cases ((at?_leaf fun _ => rfl).1 h).2

theorem reduced_malformed (error : Error) (source : String) :
    (malformed error source : Tree ν).Reduced m := by
  intro q symbol values h
  cases ((at?_leaf fun _ => rfl).1 h).2

/-- A call is reduced if its arguments are and it would fail itself, or cannot be made. -/
theorem reduced_apply {symbol : Symbol} {args : List (Tree ν)} :
    (apply symbol args).Reduced m ↔ (∀ arg ∈ args, arg.Reduced m) ∧
      ∀ values, args = values.map literal → m.isPure symbol = true →
        ∀ s, ∃ error, ((m.call symbol values).run s).1 = .error error := by
  constructor
  · intro h
    refine ⟨fun arg harg q other values hnode => ?_, fun values hvalues => ?_⟩
    · obtain ⟨i, hi⟩ := List.mem_iff_getElem?.1 harg
      exact h _ other values (at?_apply.2 (.inr ⟨q, i, arg, rfl, hi, hnode⟩))
    · exact h [] symbol values (at?_apply.2 (.inl ⟨rfl, hvalues ▸ rfl⟩))
  · rintro ⟨hargs, hown⟩ q other values hnode
    rcases at?_apply.1 hnode with ⟨-, heq⟩ | ⟨inner, i, arg, -, harg, hnode⟩
    · obtain ⟨rfl, hvalues⟩ := apply.inj heq
      exact hown values hvalues
    · exact hargs arg (List.mem_of_getElem? harg) inner other values hnode

theorem foldCall_reduced (hm : m.Repeatable) (symbol : Symbol) {args : List (Tree ν)}
    (hargs : ∀ arg ∈ args, arg.Reduced m) (s : σ) : (foldCall m symbol args s).1.Reduced m := by
  rcases foldCall_own m [] symbol args args s with ⟨v, x, -, -, hfold⟩ | ⟨hfails, hfold⟩ <;>
    rw [hfold]
  · exact reduced_literal x
  · refine reduced_apply.2 ⟨hargs, fun values hvalues hpure s' => ?_⟩
    have hmade := hfails (ofCall m [] symbol args values s) (mem_ownCall.2 ⟨hpure, hvalues, rfl⟩)
    rw [hm symbol hpure values s' s]
    cases hrun : ((m.call symbol values).run s).1 with
    | error error => exact ⟨error, rfl⟩
    | ok x => exact absurd hrun (hmade x)

mutual

/-- One pass from the leaves up leaves nothing to fold: what is folded below a call has been folded
when the call is looked at. -/
theorem fold_reduced (hm : m.Repeatable) (t : Tree ν) (s : σ) : (t.fold m s).1.Reduced m := by
  cases t with
  | literal value => exact reduced_literal value
  | malformed error source => exact reduced_malformed error source
  | apply symbol args =>
    rw [fold_apply]
    exact foldCall_reduced hm symbol (foldAll_reduced hm args s) _

theorem foldAll_reduced (hm : m.Repeatable) (ts : List (Tree ν)) (s : σ) :
    ∀ t ∈ (foldAll m ts s).1, t.Reduced m := by
  cases ts with
  | nil => exact nofun
  | cons t ts =>
    rw [foldAll_cons]
    exact List.forall_mem_cons.2 ⟨fold_reduced hm t s, foldAll_reduced hm ts _⟩

end

mutual

/-- A reduced tree is left as it is. -/
theorem fold_of_reduced {t : Tree ν} (h : t.Reduced m) (s : σ) : (t.fold m s).1 = t := by
  cases t with
  | literal value => rfl
  | malformed error source => rfl
  | apply symbol args =>
    obtain ⟨hargs, hown⟩ := reduced_apply.1 h
    rw [fold_apply, foldAll_of_reduced hargs s]
    rcases foldCall_own m [] symbol args args (foldAll m args s).2 with
      ⟨v, x, hmade, hresult, -⟩ | ⟨-, hfold⟩
    · obtain ⟨hpure, hvalues, hv⟩ := mem_ownCall.1 (hmade ▸ List.mem_singleton_self v)
      obtain ⟨error, herror⟩ := hown v.args hvalues hpure (foldAll m args s).2
      rw [hv] at hresult
      cases herror.symm.trans hresult
    · exact hfold

theorem foldAll_of_reduced {ts : List (Tree ν)} (h : ∀ t ∈ ts, t.Reduced m) (s : σ) :
    (foldAll m ts s).1 = ts := by
  cases ts with
  | nil => rfl
  | cons t ts =>
    rw [List.forall_mem_cons] at h
    rw [foldAll_cons, fold_of_reduced h.1 s, foldAll_of_reduced h.2]

end

/-! ### Symbols -/

mutual

theorem occurrences_fold (m : Meaning σ ν) (t : Tree ν) (s : σ) :
    (t.fold m s).1.occurrences.Sublist t.occurrences := by
  cases t with
  | literal value => exact .refl _
  | malformed error source => exact .refl _
  | apply symbol args =>
    rw [fold_apply]
    rcases foldCall_own m [] symbol args (foldAll m args s).1 (foldAll m args s).2 with
      ⟨v, x, -, -, hfold⟩ | ⟨-, hfold⟩ <;> rw [hfold]
    · exact List.nil_sublist _
    · exact (occurrencesIn_foldAll m args s).cons_cons symbol

theorem occurrencesIn_foldAll (m : Meaning σ ν) (ts : List (Tree ν)) (s : σ) :
    (occurrencesIn (foldAll m ts s).1).Sublist (occurrencesIn ts) := by
  cases ts with
  | nil => exact .refl _
  | cons t ts =>
    rw [foldAll_cons]
    exact (occurrences_fold m t s).append (occurrencesIn_foldAll m ts _)

end

mutual

/-- What occurs in a tree is what its nodes apply. -/
theorem mem_occurrences {symbol : Symbol} (t : Tree ν) :
    symbol ∈ t.occurrences ↔ ∃ q args, t.at? q = some (apply symbol args) := by
  cases t with
  | literal value => simp [occurrences, at?_leaf (t := literal value) fun _ => rfl]
  | malformed error source =>
    simp [occurrences, at?_leaf (t := malformed error source) fun _ => rfl]
  | apply other args =>
    rw [occurrences, List.mem_cons, mem_occurrencesIn args]
    constructor
    · rintro (rfl | ⟨i, arg, harg, q, others, hnode⟩)
      · exact ⟨[], args, rfl⟩
      · exact ⟨_, others, at?_apply.2 (.inr ⟨q, i, arg, rfl, harg, hnode⟩)⟩
    · rintro ⟨q, others, hnode⟩
      rcases at?_apply.1 hnode with ⟨-, heq⟩ | ⟨inner, i, arg, -, harg, hnode⟩
      · exact .inl (apply.inj heq).1.symm
      · exact .inr ⟨i, arg, harg, inner, others, hnode⟩

theorem mem_occurrencesIn {symbol : Symbol} (args : List (Tree ν)) :
    symbol ∈ occurrencesIn args ↔ ∃ (i : Nat) (arg : Tree ν), args[i]? = some arg ∧
      ∃ q others, arg.at? q = some (apply symbol others) := by
  cases args with
  | nil => simp [occurrencesIn]
  | cons arg args =>
    rw [occurrencesIn, List.mem_append, mem_occurrences arg, mem_occurrencesIn args]
    constructor
    · rintro (h | ⟨i, other, hother, h⟩)
      · exact ⟨0, arg, rfl, h⟩
      · exact ⟨i + 1, other, hother, h⟩
    · rintro ⟨_ | i, other, hother, h⟩
      · obtain rfl := Option.some.inj hother
        exact .inl h
      · exact .inr ⟨i, other, hother, h⟩

end

theorem nodup_eraseDups (symbols : List Symbol) : symbols.eraseDups.Nodup := by
  match symbols with
  | [] => exact List.nodup_nil
  | symbol :: symbols =>
    rw [List.eraseDups_cons, List.nodup_cons]
    exact ⟨by simp, nodup_eraseDups _⟩
termination_by symbols.length
decreasing_by exact Nat.lt_succ_of_le (List.length_filter_le _ _)

end Tree

namespace Bindings

variable {b : Bindings σ}

/-- A trusted function of the host depends on its arguments only. -/
def Reliable (b : Bindings σ) : Prop :=
  ∀ symbol f, (symbol, f) ∈ b.symbols → b.trusts symbol = true →
    ∀ args h h', ((f args).run h).1 = ((f args).run h').1

theorem Reliable.repeatable (hb : b.Reliable) : b.meaning.Repeatable := by
  intro symbol hpure args s s'
  change b.isPure symbol = true at hpure
  change ((b.call symbol args).run s).1 = ((b.call symbol args).run s').1
  have horigin := b.origin symbol
  unfold isPure at hpure
  unfold call
  cases hres : b.resolve symbol with
  | constant value => rfl
  | array values =>
    dsimp only [call.liftExcept]
    cases element symbol values args <;> rfl
  | host f =>
    rw [hres] at horigin hpure
    cases horigin with
    | host bound =>
      exact hb symbol f bound (Bool.and_eq_true_iff.1 hpure).2 args s.host s'.host
  | evaluator ask fallback missing => simp [hres] at hpure
  | library f => rfl
  | unbound error => simp [hres] at hpure

end Bindings

namespace Expression

open Bindings

/-- A formula that was optimized has no pure call of literals left that would give a value, and
folding it again changes nothing; one that was not optimized has the tree that it was built from.
The symbols of a formula, each listed once, are those of the tree that it is printed from, and
symbols of the tree that it was built from. -/
theorem build_reduced (b : Bindings σ) (hb : b.Reliable) (tree : Tree Float) (m : Memory σ) :
    let e := (build b tree m).1
    (b.options.optimize = true →
      (∀ q symbol values, e.tree.at? q = some (.apply symbol (values.map .literal)) →
        b.isPure symbol = true → ∀ n, ∃ error, ((b.call symbol values).run n).1 = .error error) ∧
      ∀ n, (e.tree.fold b.meaning n).1 = e.tree) ∧
    (b.options.optimize = false → e.tree = tree) ∧
    (e.text = e.tree.text ∧ e.symbols.Nodup ∧
      ∀ symbol, symbol ∈ e.symbols ↔ ∃ q args, e.tree.at? q = some (.apply symbol args)) ∧
    e.symbols ⊆ tree.symbols := by
  intro e
  have htree : e.tree = (if b.options.optimize then tree.fold b.meaning m else (tree, m)).1 := by
    unfold e
    rw [build_eq]
  refine ⟨fun hoptimize => ?reduced, fun hoptimize => ?kept, ⟨rfl, ?once, ?exact⟩, ?subset⟩
  case reduced =>
    rw [hoptimize, if_pos rfl] at htree
    have hreduced : e.tree.Reduced b.meaning := htree ▸ Tree.fold_reduced hb.repeatable tree m
    exact ⟨hreduced, Tree.fold_of_reduced hreduced⟩
  case kept => rw [htree, hoptimize, if_neg Bool.false_ne_true]
  case once => exact Tree.nodup_eraseDups _
  case exact => exact fun symbol => Tree.mem_symbols.trans (Tree.mem_occurrences e.tree)
  case subset =>
    intro symbol hsymbol
    rw [symbols, Tree.mem_symbols, htree] at hsymbol
    rw [Tree.mem_symbols]
    split at hsymbol
    · exact (Tree.occurrences_fold b.meaning tree m).subset hsymbol
    · exact hsymbol

/-- A host whose only function is trusted and refuses to halve zero. -/
def halving : Bindings Unit where
  options := { pureSymbols := true }
  symbols := [(.function "half" 1, fun args =>
    if Library.arg args 0 == 0 then throw (.message "nothing to halve")
    else pure (Library.arg args 0 / 2))]

/-- One call has been folded and the other is left, which fails whenever it is made. -/
theorem build_reduced_halving :
    let half (x : Float) : Tree Float := .apply (.function "half" 1) [.literal x]
    let e := (build halving (.apply (.infixOp "+") [half 4, half 0]) ⟨(), []⟩).1
    halving.Reliable ∧ halving.options.optimize = true ∧
    e.tree.at? [0] = some (.literal (4 / 2)) ∧ e.tree.at? [1] = some (half 0) ∧
    (∀ n, ∃ error, ((halving.call (.function "half" 1) [0]).run n).1 = .error error) ∧
    ∀ n, (e.tree.fold halving.meaning n).1 = e.tree := by
  intro half e
  have hreliable : halving.Reliable := by
    intro symbol f hf _ args h h'
    rfl
  have hleft : e.tree.at? [1] = some (half 0) := rfl
  obtain ⟨hfails, hagain⟩ := (build_reduced halving hreliable
    (.apply (.infixOp "+") [half 4, half 0]) ⟨(), []⟩).1 rfl
  exact ⟨hreliable, rfl, rfl, hleft, hfails [1] _ [0] hleft rfl, hagain⟩

end Expression
end Formula
