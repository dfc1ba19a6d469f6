import Formula.Mixed
import Formula.Proofs.Evaluation.Calls
import Formula.Proofs.Parser.WellFormed

/-! Arguments of calls. Main statement: what is read from source text is well formed, so every
symbol is called with as many arguments as it takes, and no function of the library ever asks for
an argument that is missing. -/
namespace Formula

variable {σ ν : Type}

namespace Library

/-- How a symbol of the library is bound, by the number of arguments that it takes. -/
inductive Sized : Symbol → Function → Prop where
  | constant (name : String) (value : Float) : Sized (.var name) fun _ => value
  | prefixOp (name : String) (f : Float → Float) : Sized (.prefixOp name) (unary f)
  | infixOp {name : String} (h : name ≠ "?:") (f : Float → Float → Float) :
    Sized (.infixOp name) (binary f)
  | unary (name : String) (f : Float → Float) : Sized (.function name 1) (unary f)
  | binary (name : String) (f : Float → Float → Float) : Sized (.function name 2) (binary f)
  | choose : Sized (.infixOp "?:") choose

/-- The function is given every argument that it looks at, and no other. -/
inductive Complete : Function → List Float → Prop where
  | constant (value : Float) : Complete (fun _ => value) []
  | unary (f : Float → Float) (x : Float) : Complete (unary f) [x]
  | binary (f : Float → Float → Float) (x y : Float) : Complete (binary f) [x, y]
  | either (left right : Float) : Complete choose [left, right]
  | choose (condition yes no : Float) : Complete choose [condition, yes, no]

theorem sized_truth {name : String} (h : name ≠ "?:") (f : Float → Float → Bool) :
    Sized (.infixOp name) (truth f) := .infixOp h _

theorem sized_arithmetic : ∀ entry ∈ arithmetic, Sized entry.1 entry.2 := by
  simp only [arithmetic, List.forall_mem_cons]
  refine ⟨.constant .., ?operators⟩
  case operators =>
    refine ⟨.infixOp (by decide) _, .infixOp (by decide) _, .infixOp (by decide) _,
      .infixOp (by decide) _, .infixOp (by decide) _, .infixOp (by decide) _,
      .infixOp (by decide) _, .infixOp (by decide) _, .prefixOp .., ?functions⟩
    case functions =>
      and_intros
      all_goals first | exact .unary .. | exact .binary .. | exact nofun

theorem sized_logic : ∀ entry ∈ logic, Sized entry.1 entry.2 := by
  simp only [logic, List.forall_mem_cons]
  refine ⟨.constant .., .constant .., ?_⟩
  refine ⟨sized_truth (by decide) _, sized_truth (by decide) _, sized_truth (by decide) _,
    sized_truth (by decide) _, sized_truth (by decide) _, sized_truth (by decide) _,
    sized_truth (by decide) _, sized_truth (by decide) _, .prefixOp .., .choose, nofun⟩

theorem sized_of_lookup {options : Options} {symbol : Symbol} {f : Function}
    (h : lookup? options symbol = some f) : Sized symbol f := by
  have hmem := mem_of_lookup h
  unfold entries at hmem
  split at hmem
  · exact (List.mem_append.1 hmem).elim (sized_arithmetic _) (sized_logic _)
  · exact sized_arithmetic _ hmem

/-- A symbol of the library with as many arguments as it takes leaves none out. -/
theorem Sized.complete {symbol : Symbol} {f : Function} (h : Sized symbol f) {args : List Float}
    (takes : symbol.Takes args.length) : Complete f args := by
  cases h with
  | constant name value =>
    obtain rfl := List.length_eq_zero_iff.1 takes
    exact .constant value
  | prefixOp name f =>
    obtain ⟨x, rfl⟩ := List.length_eq_one_iff.1 takes
    exact .unary f x
  | unary name f =>
    obtain ⟨x, rfl⟩ := List.length_eq_one_iff.1 takes
    exact .unary f x
  | infixOp hname f =>
    obtain takes | ⟨-, rfl⟩ := takes
    · obtain ⟨x, y, rfl⟩ := List.length_eq_two.1 takes
      exact .binary f x y
    · exact absurd rfl hname
  | binary name f =>
    obtain ⟨x, y, rfl⟩ := List.length_eq_two.1 takes
    exact .binary f x y
  | choose =>
    obtain takes | ⟨takes, -⟩ := takes
    · obtain ⟨left, right, rfl⟩ := List.length_eq_two.1 takes
      exact .either left right
    · obtain ⟨condition, yes, no, rfl⟩ := List.length_eq_three.1 takes
      exact .choose condition yes no

end Library

/-! ### Calls of what is read -/

namespace Meaning

/-- Folding keeps the number of arguments of every symbol. -/
def arity (m : Meaning σ ν) : m.Invariant where
  Fits := Symbol.Takes
  Valid _ := True
  Good _ _ := True
  Extends _ _ := True
  refl _ := trivial
  trans _ _ := trivial
  valid_of_extends _ _ := trivial
  good_of_extends _ _ := trivial
  call _ _ _ := ⟨trivial, fun _ _ => trivial⟩

end Meaning

theorem Tree.WellFormed.every {t : Tree Float} (h : t.WellFormed) :
    t.Every (fun _ => True) Symbol.Takes := by
  induction h with
  | literal => exact .literal trivial
  | apply takes _ _ ih => exact .apply takes ih

theorem Tree.every_ofSource (source : String) :
    (ofSource source).Every (fun _ => True) Symbol.Takes := by
  obtain ⟨error, hmalformed⟩ | hwell := ofSource_wellFormed source
  · rw [hmalformed]
    exact .malformed
  · exact hwell.every

namespace Expression

theorem every_build {tree : Tree Float} (h : tree.Every (fun _ => True) Symbol.Takes)
    (b : Bindings σ) (start : Memory σ) :
    (build b tree start).1.tree.Every (fun _ => True) Symbol.Takes := by
  unfold build
  cases b.options.optimize with
  | false => exact h
  | true => exact (b.meaning.arity.fold trivial h).2

/-- A call that is made for a tree: while the formula is built, in a given state, or by an
evaluation in any other. -/
inductive Makes (b : Bindings σ) (tree : Tree Float) (start : Memory σ) :
    Meaning.Call (Memory σ) Float → Prop where
  | building {c} (optimize : b.options.optimize = true) (h : c ∈ tree.foldCalls b.meaning start) :
    Makes b tree start c
  | evaluating {c} (memory : Memory σ)
    (h : c ∈ (build b tree start).1.tree.calls b.meaning memory) : Makes b tree start c

theorem takes_of_makes {b : Bindings σ} {tree : Tree Float} {start : Memory σ}
    {c : Meaning.Call (Memory σ) Float} (h : Makes b tree start c)
    (htree : tree.Every (fun _ => True) Symbol.Takes) : c.symbol.Takes c.args.length := by
  cases h with
  | building _ h => exact (b.meaning.arity.calls_fold trivial htree c h).1.fits
  | evaluating memory h =>
    exact (b.meaning.arity.calls_evaluate trivial (every_build htree b start) c h).1.fits

end Expression

namespace Mixed.Expression

open Formula.Mixed (Bindings Memory)

/-- A call that is made for a tree: while the formula is built, once its constants are in the
table, or by an evaluation in any state. -/
inductive Makes (b : Bindings σ) (tree : Tree Float) (start : Memory σ) :
    Meaning.Call (Memory σ) Word → Prop where
  | building {c words memory} (constants : b.boxConstants tree.symbols start = (words, memory))
    (optimize : b.options.optimize = true)
    (h : c ∈ (tree.map Word.ofNumber).foldCalls (b.meaning words) memory) : Makes b tree start c
  | evaluating {c e} (built : (build b tree start).1 = e) (memory : Memory σ)
    (h : c ∈ e.tree.calls (b.meaning e.words) memory) : Makes b tree start c

theorem takes_of_makes {b : Bindings σ} {tree : Tree Float} {start : Memory σ}
    {c : Meaning.Call (Memory σ) Word} (h : Makes b tree start c)
    (htree : tree.Every (fun _ => True) Symbol.Takes) : c.symbol.Takes c.args.length := by
  have hwords : (tree.map Word.ofNumber).Every (fun _ => True) Symbol.Takes :=
    htree.map fun _ _ => trivial
  cases h with
  | building _ _ h => exact ((b.meaning _).arity.calls_fold trivial hwords c h).1.fits
  | evaluating built memory h =>
    subst built
    refine ((b.meaning _).arity.calls_evaluate trivial ?_ c h).1.fits
    rw [build_eq]
    unfold folded
    dsimp only
    split
    · exact ((b.meaning _).arity.fold trivial hwords).2
    · exact hwords

end Mixed.Expression

theorem Mixed.eq_map_of_numbers? {values : List Value} {args : List Float}
    (h : numbers? values = some args) : values = args.map .number := by
  induction values generalizing args with
  | nil =>
    obtain rfl := Option.some.inj h
    rfl
  | cons value values ih =>
    unfold numbers? at h ih
    rw [List.mapM_cons] at h
    obtain ⟨x, hx, h⟩ := Option.bind_eq_some_iff.1 h
    obtain ⟨others, hothers, h⟩ := Option.bind_eq_some_iff.1 h
    obtain rfl := Option.some.inj h
    have hvalue : value = .number x := by
      cases value <;> cases hx
      rfl
    rw [hvalue, ih hothers, List.map_cons]

namespace Parser

/-- Whatever has been read before, a tree that is read is well formed; and whatever is bound, each
of its symbols is called with as many arguments as it takes, those of the library with every
argument that they look at. -/
theorem read_wellFormed (source : String) (earlier : List (List String)) (delimiters : List String)
    {tree : Tree Float}
    (h : (((ofSource source).readAll earlier).2.read delimiters).1 = .ok tree) :
    tree.WellFormed ∧
    (∀ {σ : Type} {b : Bindings σ} {start : Memory σ} {c : Meaning.Call (Memory σ) Float},
      Expression.Makes b tree start c →
      c.symbol.Takes c.args.length ∧
      ∀ f, Library.lookup? b.options c.symbol = some f → Library.Complete f c.args) ∧
    (∀ {σ : Type} {b : Mixed.Bindings σ} {start : Mixed.Memory σ}
      {c : Meaning.Call (Mixed.Memory σ) Word},
      Mixed.Expression.Makes b tree start c →
      c.symbol.Takes c.args.length ∧
      ∀ f numbers, Library.lookup? {} c.symbol = some f →
        Mixed.numbers? (c.args.map c.before.table.unbox) = some numbers →
        Library.Complete f numbers) := by
  obtain ⟨hrest, hstore⟩ := readAll_faithful earlier (p := ofSource source) List.suffix_rfl
    (Branches.faithful_empty source.toList)
  have htree : tree.WellFormed := wellFormed_of_read hrest hstore h
  refine ⟨htree, fun hc => ?numeric, fun hc => ?mixed⟩
  case numeric =>
    have htakes := Expression.takes_of_makes hc htree.every
    exact ⟨htakes, fun f hf => (Library.sized_of_lookup hf).complete htakes⟩
  case mixed =>
    have htakes := Mixed.Expression.takes_of_makes hc htree.every
    refine ⟨htakes, fun f numbers hf hnumbers => (Library.sized_of_lookup hf).complete ?_⟩
    have hlength := congrArg List.length (Mixed.eq_map_of_numbers? hnumbers)
    rw [List.length_map, List.length_map] at hlength
    rwa [← hlength]

/-- What is left of a source whose first part has been read. -/
def larger : Tree Float :=
  .apply (.prefixOp ",") [.apply (.function "max" 2) [.named "y", .named "z"]]

def largerBindings : Bindings Unit where
  options := { logic := true }
  constants := [("y", 1), ("z", 2)]

def largerCall : Meaning.Call (Memory Unit) Float :=
  ⟨.function "max" 2, [1, 2], ⟨(), []⟩, .ok (Number.larger 1 2), ⟨(), []⟩⟩

theorem read_wellFormed_comma :
    (((ofSource "g(y),max(y,z)").readAll [[","]]).2.read []).1 = .ok larger ∧
    larger.WellFormed ∧
    Expression.Makes largerBindings larger ⟨(), []⟩ largerCall ∧
    Library.Complete (Library.binary Number.larger) largerCall.args := by
  have hread : (((ofSource "g(y),max(y,z)").readAll [[","]]).2.read []).1 = .ok larger := by cbv
  have hcalls : larger.foldCalls largerBindings.meaning ⟨(), []⟩ =
      [⟨.var "y", [], ⟨(), []⟩, .ok 1, ⟨(), []⟩⟩, ⟨.var "z", [], ⟨(), []⟩, .ok 2, ⟨(), []⟩⟩,
        largerCall] := by rfl
  have hmakes : Expression.Makes largerBindings larger ⟨(), []⟩ largerCall :=
    .building rfl (hcalls ▸ by simp)
  have hwell := read_wellFormed "g(y),max(y,z)" [[","]] [] hread
  exact ⟨hread, hwell.1, hmakes, (hwell.2.1 hmakes).2 _ rfl⟩

end Parser
end Formula
