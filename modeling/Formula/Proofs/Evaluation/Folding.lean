import Formula.Proofs.Evaluation.Visits
import Mathlib.Data.Set.List

/-! The calls that fold a tree. Main statement: they are those of the pure nodes whose arguments all
fold to literals, in post-order and each once; a node whose call fails is left with its folded
arguments, and nothing but a literal is left at the place of any other. -/
namespace Formula

variable {σ ν : Type}

open Visit

namespace Tree

/-- The call of a node whose arguments have been folded. -/
def ownCall (m : Meaning σ ν) (place : Place) (symbol : Symbol) (args folded : List (Tree ν))
    (s : σ) : List (Visit σ ν) :=
  if m.isPure symbol then
    match literals? folded with
    | some values => [ofCall m place symbol args values s]
    | none => []
  else []

mutual

/-- The calls that fold a tree that stands at a place. -/
def foldVisitsAt (m : Meaning σ ν) (place : Place) : Tree ν → σ → List (Visit σ ν)
  | apply symbol args, s =>
    foldVisitsFrom m place 0 args s ++
      ownCall m place symbol args (foldAll m args s).1 (foldAll m args s).2
  | _, _ => []

def foldVisitsFrom (m : Meaning σ ν) (place : Place) (i : Nat) :
    List (Tree ν) → σ → List (Visit σ ν)
  | [], _ => []
  | arg :: args, s =>
    foldVisitsAt m (i :: place) arg s ++ foldVisitsFrom m place (i + 1) args (arg.fold m s).2

end

/-- The calls that fold the tree. -/
def foldVisits (m : Meaning σ ν) (t : Tree ν) (s : σ) : List (Visit σ ν) := t.foldVisitsAt m [] s

/-- The node at a place is a literal, or one of the calls gave it its value. -/
def FoldsTo (t : Tree ν) (vs : List (Visit σ ν)) (q : Place) (x : ν) : Prop :=
  t.at? q = some (literal x) ∨ ∃ v ∈ vs, v.place = q ∧ v.result = .ok x

/-- Calls of pure nodes in their order, one after another. -/
structure FoldRun (m : Meaning σ ν) (nodes : List (Place × Tree ν)) (s : σ)
    (vs : List (Visit σ ν)) (s' : σ) : Prop where
  order : (vs.map site).Sublist nodes
  linked : Linked id s vs s'
  calls : ∀ v ∈ vs, ∃ symbol args, v.node = apply symbol args ∧ m.isPure symbol = true ∧
    (m.call symbol v.args).run v.before = (v.result, v.after)

namespace FoldRun

variable {m : Meaning σ ν} {nodes nodes' : List (Place × Tree ν)} {s s' s'' : σ}
  {vs ws : List (Visit σ ν)}

theorem nil (nodes : List (Place × Tree ν)) (s : σ) : FoldRun m nodes s [] s :=
  ⟨List.nil_sublist nodes, rfl, nofun⟩

theorem append (h : FoldRun m nodes s vs s') (h' : FoldRun m nodes' s' ws s'') :
    FoldRun m (nodes ++ nodes') s (vs ++ ws) s'' where
  order := by
    rw [List.map_append]
    exact h.order.append h'.order
  linked := h.linked.append h'.linked
  calls v hv := (List.mem_append.1 hv).elim (h.calls v) (h'.calls v)

end FoldRun

theorem foldRun_ownCall (m : Meaning σ ν) (place : Place) (symbol : Symbol)
    (args folded : List (Tree ν)) (s : σ) :
    FoldRun m [(place, apply symbol args)] s (ownCall m place symbol args folded s)
      (foldCall m symbol folded s).2 := by
  unfold ownCall foldCall
  cases hpure : m.isPure symbol with
  | false => exact .nil _ s
  | true =>
    cases literals? folded with
    | none => exact .nil _ s
    | some values =>
      refine ⟨List.Sublist.refl _, ⟨rfl, ?_⟩, ?_⟩
      · simp only [if_true, Action.bind_apply]
        cases ((m.call symbol values).run s).1 <;> rfl
      · exact List.forall_mem_singleton.2 ⟨symbol, args, rfl, hpure, rfl⟩

mutual

theorem foldRun_visitsAt (m : Meaning σ ν) (place : Place) (t : Tree ν) (s : σ) :
    FoldRun m (nodesAt place t) s (t.foldVisitsAt m place s) (t.fold m s).2 := by
  cases t with
  | literal value => exact .nil _ s
  | malformed error source => exact .nil _ s
  | apply symbol args =>
    rw [nodesAt, foldVisitsAt, fold_apply]
    exact (foldRun_visitsFrom m place 0 args s).append (foldRun_ownCall m place symbol args _ _)

theorem foldRun_visitsFrom (m : Meaning σ ν) (place : Place) (i : Nat) (args : List (Tree ν))
    (s : σ) :
    FoldRun m (nodesFrom place i args) s (foldVisitsFrom m place i args s)
      (foldAll m args s).2 := by
  cases args with
  | nil => exact .nil _ s
  | cons arg args =>
    rw [nodesFrom, foldVisitsFrom, foldAll_cons]
    exact (foldRun_visitsAt m _ arg s).append (foldRun_visitsFrom m place (i + 1) args _)

end

theorem inner_of_foldVisitsAt {m : Meaning σ ν} {place : Place} {t : Tree ν} {s : σ}
    {v : Visit σ ν} (h : v ∈ t.foldVisitsAt m place s) :
    ∃ inner, v.place = inner ++ place ∧ t.at? inner = some v.node :=
  mem_nodesAt.1 ((foldRun_visitsAt m place t s).order.subset (List.mem_map_of_mem h))

/-! ### The part of a folding below a place -/

theorem getElem?_foldAll (m : Meaning σ ν) (args : List (Tree ν)) (s : σ) (i : Nat) :
    (foldAll m args s).1[i]? =
      args[i]?.map fun arg => (arg.fold m (foldAll m (args.take i) s).2).1 := by
  induction args generalizing s i with
  | nil => rfl
  | cons arg args ih =>
    rw [foldAll_cons]
    cases i with
    | zero => rfl
    | succ i =>
      rw [List.take_succ_cons, foldAll_cons]
      exact ih _ i

theorem mem_foldVisitsFrom {m : Meaning σ ν} {place : Place} {i : Nat} {args : List (Tree ν)}
    {s : σ} {v : Visit σ ν} :
    v ∈ foldVisitsFrom m place i args s ↔
      ∃ j arg, args[j]? = some arg ∧
        v ∈ foldVisitsAt m ((i + j) :: place) arg (foldAll m (args.take j) s).2 := by
  induction args generalizing i s with
  | nil => simp [foldVisitsFrom]
  | cons arg args ih =>
    rw [foldVisitsFrom, List.mem_append, ih]
    constructor
    · rintro (h | ⟨j, other, hother, h⟩)
      · exact ⟨0, arg, rfl, h⟩
      · refine ⟨j + 1, other, hother, ?_⟩
        rwa [List.take_succ_cons, foldAll_cons, Nat.add_right_comm, Nat.add_assoc] at *
    · rintro ⟨_ | j, other, hother, h⟩
      · obtain rfl := Option.some.inj hother
        exact .inl h
      · refine .inr ⟨j, other, hother, ?_⟩
        rw [List.take_succ_cons, foldAll_cons] at h
        rwa [Nat.add_right_comm, Nat.add_assoc]

theorem literals?_eq_some {ts : List (Tree ν)} {values : List ν} :
    literals? ts = some values ↔ ts = values.map literal := by
  induction ts generalizing values with
  | nil => cases values <;> simp [literals?]
  | cons t ts ih =>
    cases t with
    | literal x =>
      cases values with
      | nil => simp [literals?]
      | cons y values => simp [literals?, ih, and_comm]
    | apply symbol args => cases values <;> simp [literals?]
    | malformed error source => cases values <;> simp [literals?]

theorem mem_ownCall {m : Meaning σ ν} {place : Place} {symbol : Symbol} {args folded : List (Tree ν)}
    {s : σ} {v : Visit σ ν} :
    v ∈ ownCall m place symbol args folded s ↔ m.isPure symbol = true ∧
      folded = v.args.map literal ∧ v = ofCall m place symbol args v.args s := by
  unfold ownCall
  cases m.isPure symbol with
  | false => simp
  | true =>
    cases h : literals? folded with
    | none =>
      refine iff_of_false List.not_mem_nil ?_
      rintro ⟨-, hfolded, -⟩
      rw [literals?_eq_some.2 hfolded] at h
      cases h
    | some values =>
      obtain rfl := literals?_eq_some.1 h
      constructor
      · intro hv
        obtain rfl := List.mem_singleton.1 hv
        exact ⟨rfl, rfl, rfl⟩
      · rintro ⟨-, hvalues, hv⟩
        obtain rfl := List.map_injective_iff.2 (fun _ _ => Tree.literal.inj) hvalues
        exact List.mem_singleton.2 hv

/-- A call that gives a value becomes a literal, any other one is left. -/
theorem foldCall_own (m : Meaning σ ν) (place : Place) (symbol : Symbol)
    (args folded : List (Tree ν)) (s : σ) :
    (∃ v x, ownCall m place symbol args folded s = [v] ∧ v.result = .ok x ∧
      (foldCall m symbol folded s).1 = literal x) ∨
    (∀ v ∈ ownCall m place symbol args folded s, ∀ x, v.result ≠ .ok x) ∧
      (foldCall m symbol folded s).1 = apply symbol folded := by
  unfold ownCall foldCall
  cases m.isPure symbol with
  | false => exact .inr ⟨nofun, rfl⟩
  | true =>
    cases literals? folded with
    | none => exact .inr ⟨nofun, rfl⟩
    | some values =>
      simp only [if_true, Action.bind_apply, ofCall]
      rcases (m.call symbol values).run s with ⟨error | x, s'⟩
      · exact .inr ⟨List.forall_mem_singleton.2 nofun, rfl⟩
      · exact .inl ⟨_, x, rfl, rfl, rfl⟩

/-- What the folding of a tree does at a place, where it starts in some state: the calls inside are
those of folding the node there, and what this leaves is left by all of it unless it is in a call
that becomes a literal. -/
structure FoldedAt (m : Meaning σ ν) (tree : Tree ν) (s : σ) (q : Place) (t : Tree ν) (s' : σ) :
    Prop where
  node : tree.at? q = some t
  calls : ∀ {v}, v ∈ t.foldVisitsAt m q s' ↔
    v ∈ tree.foldVisits m s ∧ ∃ inner, v.place = inner ++ q
  left : ∀ {n}, (tree.fold m s).1.at? q = some n → n = (t.fold m s').1
  kept : (∀ x, (t.fold m s').1 ≠ literal x) → (tree.fold m s).1.at? q = some (t.fold m s').1

namespace FoldedAt

variable {m : Meaning σ ν} {tree : Tree ν} {s s' : σ} {q : Place} {t : Tree ν} {symbol : Symbol}
  {args : List (Tree ν)}

theorem root (m : Meaning σ ν) (tree : Tree ν) (s : σ) : FoldedAt m tree s [] tree s where
  node := rfl
  calls := ⟨fun h => ⟨h, _, (List.append_nil _).symm⟩, And.left⟩
  left h := (Option.some.inj h).symm
  kept _ := rfl

theorem argument (h : FoldedAt m tree s q (apply symbol args) s') {i : Nat} {arg : Tree ν}
    (harg : args[i]? = some arg) :
    FoldedAt m tree s (i :: q) arg (foldAll m (args.take i) s').2 where
  node := by
    rw [at?, h.node]
    exact harg
  calls := by
    intro v
    constructor
    · intro hv
      have hall : v ∈ foldVisitsFrom m q 0 args s' :=
        mem_foldVisitsFrom.2 ⟨i, arg, harg, by rwa [Nat.zero_add]⟩
      obtain ⟨inner, hinner, -⟩ := inner_of_foldVisitsAt hv
      exact ⟨(h.calls.1 (List.mem_append_left _ hall)).1, inner, hinner⟩
    · rintro ⟨hv, inner, hinner⟩
      rcases List.mem_append.1 (h.calls.2 ⟨hv, inner ++ [i], by simpa using hinner⟩) with hv | hv
      · obtain ⟨j, other, hother, hv⟩ := mem_foldVisitsFrom.1 hv
        rw [Nat.zero_add] at hv
        obtain ⟨inner', hinner', -⟩ := inner_of_foldVisitsAt hv
        obtain rfl := eq_of_inside hinner hinner'
        obtain rfl := Option.some.inj (harg.symm.trans hother)
        exact hv
      · rw [(mem_ownCall.1 hv).2.2] at hinner
        exact absurd rfl (ne_of_inside hinner)
  left := by
    intro n hn
    obtain ⟨parent, hparent, hn⟩ := Option.bind_eq_some_iff.1 hn
    rw [h.left hparent, fold_apply] at hn
    rcases foldCall_own m q symbol args (foldAll m args s').1 (foldAll m args s').2 with
      ⟨v, x, -, -, hfold⟩ | ⟨-, hfold⟩ <;> rw [hfold] at hn
    · cases hn
    · rw [argument?, getElem?_foldAll, harg] at hn
      exact (Option.some.inj hn).symm
  kept := by
    intro hliteral
    have hfolded : (foldAll m args s').1[i]? =
        some (arg.fold m (foldAll m (args.take i) s').2).1 := by
      rw [getElem?_foldAll, harg]
      rfl
    have hfold : ((apply symbol args).fold m s').1 = apply symbol (foldAll m args s').1 := by
      rw [fold_apply]
      rcases foldCall_own m q symbol args (foldAll m args s').1 (foldAll m args s').2 with
        ⟨v, x, hown, -, -⟩ | ⟨-, hfold⟩
      · have hvalues := (mem_ownCall.1 (hown ▸ List.mem_singleton_self v)).2.1
        rw [hvalues, List.getElem?_map] at hfolded
        obtain ⟨value, -, hvalue⟩ := Option.map_eq_some_iff.1 hfolded
        exact absurd hvalue.symm (hliteral value)
      · exact hfold
    have hkept := h.kept (by simp [hfold])
    rw [at?, hkept, hfold]
    exact hfolded

end FoldedAt

theorem exists_foldedAt (m : Meaning σ ν) (s : σ) {tree t : Tree ν} {q : Place}
    (h : tree.at? q = some t) : ∃ s', FoldedAt m tree s q t s' := by
  induction q generalizing t with
  | nil =>
    obtain rfl := Option.some.inj h
    exact ⟨s, .root m tree s⟩
  | cons i q ih =>
    obtain ⟨parent, hparent, harg⟩ := Option.bind_eq_some_iff.1 h
    obtain ⟨s', hfolded⟩ := ih hparent
    cases parent with
    | literal value => cases harg
    | malformed error source => cases harg
    | apply symbol args => exact ⟨_, hfolded.argument harg⟩

namespace FoldedAt

variable {m : Meaning σ ν} {tree : Tree ν} {s s' : σ} {q : Place} {t : Tree ν} {symbol : Symbol}
  {args : List (Tree ν)}

/-- The call of a node among all calls. -/
theorem own (h : FoldedAt m tree s q (apply symbol args) s') {v : Visit σ ν} :
    v ∈ tree.foldVisits m s ∧ v.place = q ↔
      v ∈ ownCall m q symbol args (foldAll m args s').1 (foldAll m args s').2 := by
  constructor
  · rintro ⟨hv, hplace⟩
    rcases List.mem_append.1 (h.calls.2 ⟨hv, [], hplace⟩) with hv | hv
    · obtain ⟨j, other, hother, hv⟩ := mem_foldVisitsFrom.1 hv
      obtain ⟨inner, hinner, -⟩ := inner_of_foldVisitsAt hv
      exact absurd hplace (ne_of_inside hinner)
    · exact hv
  · intro hv
    have hplace : v.place = q := by
      rw [(mem_ownCall.1 hv).2.2]
      rfl
    exact ⟨(h.calls.1 (List.mem_append_right _ hv)).1, hplace⟩

theorem foldsTo_leaf (h : FoldedAt m tree s q t s') (hleaf : t.foldVisitsAt m q s' = []) {x : ν} :
    tree.FoldsTo (tree.foldVisits m s) q x ↔ t = literal x := by
  unfold FoldsTo
  rw [h.node, Option.some.injEq, or_iff_left]
  rintro ⟨v, hv, hplace, -⟩
  have hmem := h.calls.2 ⟨hv, [], hplace⟩
  rw [hleaf] at hmem
  cases hmem

theorem foldsTo_apply (h : FoldedAt m tree s q (apply symbol args) s') {x : ν} :
    tree.FoldsTo (tree.foldVisits m s) q x ↔
      ∃ v ∈ ownCall m q symbol args (foldAll m args s').1 (foldAll m args s').2,
        v.result = .ok x := by
  unfold FoldsTo
  rw [h.node, Option.some.injEq, or_iff_right nofun]
  constructor
  · rintro ⟨v, hv, hplace, hresult⟩
    exact ⟨v, h.own.1 ⟨hv, hplace⟩, hresult⟩
  · rintro ⟨v, hv, hresult⟩
    exact ⟨v, (h.own.2 hv).1, (h.own.2 hv).2, hresult⟩

/-- A node becomes a literal if it was one or its call gave a value. -/
theorem fold_eq_literal (h : FoldedAt m tree s q t s') {x : ν} :
    (t.fold m s').1 = literal x ↔ tree.FoldsTo (tree.foldVisits m s) q x := by
  cases t with
  | literal value => exact (h.foldsTo_leaf rfl).symm
  | malformed error source => exact (h.foldsTo_leaf rfl).symm
  | apply symbol args =>
    rw [h.foldsTo_apply, fold_apply]
    rcases foldCall_own m q symbol args (foldAll m args s').1 (foldAll m args s').2 with
      ⟨v, y, hown, hresult, hfold⟩ | ⟨hfails, hfold⟩ <;> rw [hfold]
    · simp [hown, hresult]
    · exact iff_of_false nofun fun ⟨v, hv, hresult⟩ => hfails v hv x hresult

/-- The folded arguments of a node. -/
theorem getElem?_folded (h : FoldedAt m tree s q (apply symbol args) s') {i : Nat} {x : ν} :
    (foldAll m args s').1[i]? = some (literal x) ↔
      i < args.length ∧ tree.FoldsTo (tree.foldVisits m s) (i :: q) x := by
  rw [getElem?_foldAll]
  cases harg : args[i]? with
  | none =>
    have hlength := List.getElem?_eq_none_iff.1 harg
    exact iff_of_false nofun fun hboth => absurd hboth.1 (Nat.not_lt.2 hlength)
  | some arg =>
    have hlength := (List.getElem?_eq_some_iff.1 harg).1
    rw [Option.map_some, Option.some.injEq, (h.argument harg).fold_eq_literal, iff_and_self]
    exact fun _ => hlength

end FoldedAt

theorem length_foldAll (m : Meaning σ ν) (args : List (Tree ν)) (s : σ) :
    (foldAll m args s).1.length = args.length := by
  induction args generalizing s with
  | nil => rfl
  | cons arg args ih =>
    rw [foldAll_cons]
    exact congrArg Nat.succ (ih _)

theorem exists_literals (ts : List (Tree ν)) (h : ∀ t ∈ ts, ∃ x, t = literal x) :
    ∃ values : List ν, ts = values.map literal := by
  have hrange : ts ∈ Set.range (List.map literal) := by
    rw [Set.range_list_map]
    exact fun t ht => (h t ht).imp fun _ => Eq.symm
  exact hrange.imp fun _ => Eq.symm

theorem at?_of_foldVisit {m : Meaning σ ν} {tree : Tree ν} {s : σ} {v : Visit σ ν}
    (h : v ∈ tree.foldVisits m s) : tree.at? v.place = some v.node := by
  obtain ⟨inner, hinner, hnode⟩ := inner_of_foldVisitsAt h
  rw [hinner, List.append_nil]
  exact hnode

/-- The calls that a tree is folded by, and what they leave of it. -/
structure Folding (m : Meaning σ ν) (tree : Tree ν) (s : σ) (vs : List (Visit σ ν))
    (folded : Tree ν) (s' : σ) : Prop where
  run : FoldRun m tree.postorder s vs s'
  called : ∀ {q symbol args}, tree.at? q = some (apply symbol args) →
    ((∃ v ∈ vs, v.place = q) ↔
      m.isPure symbol = true ∧ ∀ i < args.length, ∃ x, tree.FoldsTo vs (i :: q) x)
  args : ∀ {v symbol args}, v ∈ vs → v.node = apply symbol args →
    v.args.length = args.length ∧
      ∀ i x, v.args[i]? = some x → tree.FoldsTo vs (i :: v.place) x
  replaced : ∀ {v x n}, v ∈ vs → v.result = .ok x → folded.at? v.place = some n → n = literal x
  kept : ∀ {v error symbol args}, v ∈ vs → v.result = .error error →
    v.node = apply symbol args → folded.at? v.place = some (apply symbol (v.args.map literal))

/-- Folding calls the pure nodes whose arguments all fold to literals. A node whose call fails is
left with these, and nothing but a literal is left at the place of any other. -/
theorem folding (m : Meaning σ ν) (tree : Tree ν) (s : σ) :
    Folding m tree s (tree.foldVisits m s) (tree.fold m s).1 (tree.fold m s).2 where
  run := foldRun_visitsAt m [] tree s
  called := by
    intro q symbol args hnode
    obtain ⟨s', h⟩ := exists_foldedAt m s hnode
    constructor
    · rintro ⟨v, hv, hplace⟩
      obtain ⟨hpure, hfolded, -⟩ := mem_ownCall.1 (h.own.1 ⟨hv, hplace⟩)
      refine ⟨hpure, fun i hi => ?_⟩
      rw [← length_foldAll m args s', hfolded, List.length_map] at hi
      refine ⟨v.args[i], (h.getElem?_folded.1 ?_).2⟩
      rw [hfolded, List.getElem?_map, List.getElem?_eq_getElem hi]
      rfl
    · rintro ⟨hpure, hargs⟩
      obtain ⟨values, hvalues⟩ := exists_literals (foldAll m args s').1 fun t ht => by
        obtain ⟨i, hi⟩ := List.mem_iff_getElem?.1 ht
        have hlength := (List.getElem?_eq_some_iff.1 hi).1
        rw [length_foldAll] at hlength
        obtain ⟨x, hx⟩ := hargs i hlength
        rw [h.getElem?_folded.2 ⟨hlength, hx⟩] at hi
        exact ⟨x, (Option.some.inj hi).symm⟩
      have hown : ofCall m q symbol args values (foldAll m args s').2 ∈
        ownCall m q symbol args _ _ := mem_ownCall.2 ⟨hpure, hvalues, rfl⟩
      exact ⟨_, h.own.2 hown⟩
  args := by
    intro v symbol args hv hnode
    obtain ⟨s', h⟩ := exists_foldedAt m s (hnode ▸ at?_of_foldVisit hv)
    obtain ⟨-, hfolded, -⟩ := mem_ownCall.1 (h.own.1 ⟨hv, rfl⟩)
    constructor
    · rw [← length_foldAll m args s', hfolded, List.length_map]
    · intro i x hx
      refine (h.getElem?_folded.1 ?_).2
      rw [hfolded, List.getElem?_map, hx]
      rfl
  replaced := by
    intro v x n hv hresult hn
    obtain ⟨s', h⟩ := exists_foldedAt m s (at?_of_foldVisit hv)
    exact (h.left hn).trans (h.fold_eq_literal.2 (.inr ⟨v, hv, rfl, hresult⟩))
  kept := by
    intro v error symbol args hv hresult hnode
    obtain ⟨s', h⟩ := exists_foldedAt m s (hnode ▸ at?_of_foldVisit hv)
    have hown := h.own.1 ⟨hv, rfl⟩
    have hfold : ((apply symbol args).fold m s').1 = apply symbol (foldAll m args s').1 := by
      rw [fold_apply]
      rcases foldCall_own m v.place symbol args (foldAll m args s').1 (foldAll m args s').2 with
        ⟨w, x, hw, hok, -⟩ | ⟨-, hfold⟩
      · rw [hw, List.mem_singleton] at hown
        rw [hown, hok] at hresult
        cases hresult
      · exact hfold
    rw [← (mem_ownCall.1 hown).2.1, ← hfold]
    exact h.kept (by rw [hfold]; exact nofun)

end Tree
end Formula
