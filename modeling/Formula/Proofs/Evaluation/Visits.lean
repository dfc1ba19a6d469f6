import Formula.Proofs.Evaluation.Simulation
import Mathlib.Data.List.Nodup

/-! The nodes that an evaluation comes to, one after another. Main statement: they are the nodes of
the tree in post-order, all of them if there is a value and otherwise those up to the one whose
error is the result, and every node is called with the values that its arguments had before. -/
namespace Formula

variable {σ τ ν α β : Type}

/-- Where a node stands in a tree: the numbers of the arguments that lead to it, the last one
first. -/
abbrev Place := List Nat

namespace Tree

def argument? : Tree ν → Nat → Option (Tree ν)
  | apply _ args, i => args[i]?
  | _, _ => none

/-- The node at a place. -/
def at? (t : Tree ν) : Place → Option (Tree ν)
  | [] => some t
  | i :: place => (t.at? place).bind fun node => node.argument? i

mutual

/-- The nodes of a tree that stands at a place, each after its arguments. -/
def nodesAt (place : Place) : Tree ν → List (Place × Tree ν)
  | apply symbol args => nodesFrom place 0 args ++ [(place, apply symbol args)]
  | tree => [(place, tree)]

/-- The nodes of arguments, which are numbered from `i` on. -/
def nodesFrom (place : Place) (i : Nat) : List (Tree ν) → List (Place × Tree ν)
  | [] => []
  | arg :: args => nodesAt (i :: place) arg ++ nodesFrom place (i + 1) args

end

/-- All nodes with their places, each after its arguments and these from left to right. -/
def postorder (t : Tree ν) : List (Place × Tree ν) := nodesAt [] t

theorem at?_append (t : Tree ν) (inner outer : Place) :
    t.at? (inner ++ outer) = (t.at? outer).bind fun node => node.at? inner := by
  induction inner with
  | nil => simp [at?]
  | cons i inner ih =>
    rw [List.cons_append, at?, ih, Option.bind_assoc]
    rfl

theorem at?_leaf {t node : Tree ν} {place : Place} (h : ∀ i, t.argument? i = none) :
    t.at? place = some node ↔ place = [] ∧ t = node := by
  rcases List.eq_nil_or_concat place with rfl | ⟨place, i, rfl⟩
  · simp [at?]
  · have hnone : t.at? (place ++ [i]) = none := by
      rw [at?_append]
      exact congrArg (Option.bind · _) (h i)
    simp [hnone]

mutual

theorem mem_nodesAt {place q : Place} {t node : Tree ν} :
    (q, node) ∈ nodesAt place t ↔ ∃ inner, q = inner ++ place ∧ t.at? inner = some node := by
  cases t with
  | literal value => simp [nodesAt, at?_leaf (t := literal value) fun _ => rfl, eq_comm]
  | malformed error source =>
    simp [nodesAt, at?_leaf (t := malformed error source) fun _ => rfl, eq_comm]
  | apply symbol args =>
    rw [nodesAt, List.mem_append, mem_nodesFrom, List.mem_singleton, Prod.mk.injEq]
    constructor
    · rintro (⟨i, arg, harg, inner, rfl, hnode⟩ | ⟨rfl, rfl⟩)
      · refine ⟨inner ++ [i], by simp, ?_⟩
        rw [at?_append]
        exact (congrArg (Option.bind · _) harg).trans hnode
      · exact ⟨[], rfl, rfl⟩
    · rintro ⟨inner, rfl, hnode⟩
      rcases List.eq_nil_or_concat inner with rfl | ⟨inner, i, rfl⟩
      · exact .inr ⟨rfl, (Option.some.inj hnode).symm⟩
      · rw [List.concat_eq_append, at?_append] at hnode
        obtain ⟨arg, harg, hnode⟩ := Option.bind_eq_some_iff.1 hnode
        exact .inl ⟨i, arg, harg, inner, by simp, hnode⟩

theorem mem_nodesFrom {place q : Place} {i : Nat} {args : List (Tree ν)} {node : Tree ν} :
    (q, node) ∈ nodesFrom place i args ↔
      ∃ j arg, args[j]? = some arg ∧ ∃ inner, q = inner ++ (i + j) :: place ∧
        arg.at? inner = some node := by
  cases args with
  | nil => simp [nodesFrom]
  | cons arg args =>
    rw [nodesFrom, List.mem_append, mem_nodesAt, mem_nodesFrom]
    constructor
    · rintro (⟨inner, rfl, hnode⟩ | ⟨j, other, hother, inner, rfl, hnode⟩)
      · exact ⟨0, arg, rfl, inner, rfl, hnode⟩
      · exact ⟨j + 1, other, hother, inner, by rw [Nat.add_right_comm, Nat.add_assoc], hnode⟩
    · rintro ⟨_ | j, other, hother, inner, rfl, hnode⟩
      · obtain rfl := Option.some.inj hother
        exact .inl ⟨inner, rfl, hnode⟩
      · exact .inr ⟨j, other, hother, inner, by rw [Nat.add_right_comm, Nat.add_assoc], hnode⟩

end

theorem mem_postorder {q : Place} {t node : Tree ν} :
    (q, node) ∈ t.postorder ↔ t.at? q = some node := by
  simp [postorder, mem_nodesAt]

/-- A place is inside one argument only. -/
theorem eq_of_inside {q inner inner' place : Place} {i j : Nat} (h : q = inner ++ i :: place)
    (h' : q = inner' ++ j :: place) : i = j := by
  have hlength : (i :: place).length = (j :: place).length := rfl
  exact (List.cons.inj (List.append_inj_right' (h.symm.trans h') hlength)).1

theorem ne_of_inside {q inner place : Place} {i : Nat} (h : q = inner ++ i :: place) :
    q ≠ place := by
  rintro rfl
  have hlength := congrArg List.length h
  simp only [List.length_append, List.length_cons] at hlength
  omega

mutual

theorem nodup_nodesAt (place : Place) (t : Tree ν) : ((nodesAt place t).map Prod.fst).Nodup := by
  cases t with
  | literal value => exact List.nodup_singleton place
  | malformed error source => exact List.nodup_singleton place
  | apply symbol args =>
    rw [nodesAt, List.map_append, List.nodup_append']
    refine ⟨nodup_nodesFrom place 0 args, List.nodup_singleton place, ?_⟩
    intro q hq hplace
    obtain ⟨⟨q, node⟩, hmem, rfl⟩ := List.mem_map.1 hq
    obtain ⟨j, arg, -, inner, hinner, -⟩ := mem_nodesFrom.1 hmem
    exact ne_of_inside hinner (List.mem_singleton.1 hplace)

theorem nodup_nodesFrom (place : Place) (i : Nat) (args : List (Tree ν)) :
    ((nodesFrom place i args).map Prod.fst).Nodup := by
  cases args with
  | nil => exact List.nodup_nil
  | cons arg args =>
    rw [nodesFrom, List.map_append, List.nodup_append']
    refine ⟨nodup_nodesAt _ arg, nodup_nodesFrom place (i + 1) args, ?_⟩
    intro q hq hq'
    obtain ⟨⟨q, node⟩, hmem, rfl⟩ := List.mem_map.1 hq
    obtain ⟨⟨q', node'⟩, hmem', rfl⟩ := List.mem_map.1 hq'
    obtain ⟨inner, hinner, -⟩ := mem_nodesAt.1 hmem
    obtain ⟨j, other, -, inner', hinner', -⟩ := mem_nodesFrom.1 hmem'
    have := eq_of_inside hinner hinner'
    omega

end

/-- Every place comes once. -/
theorem nodup_postorder (t : Tree ν) : (t.postorder.map Prod.fst).Nodup := nodup_nodesAt [] t

end Tree

/-- A node that was come to: the values that it was called with, the states before and after, and
what came of it. -/
structure Visit (σ ν : Type) where
  place : Place
  node : Tree ν
  args : List ν
  before : σ
  result : Except Error ν
  after : σ

namespace Visit

def site (v : Visit σ ν) : Place × Tree ν := (v.place, v.node)

/-- The call of a node with the values of its arguments. -/
def ofCall (m : Meaning σ ν) (place : Place) (symbol : Symbol) (args : List (Tree ν))
    (values : List ν) (s : σ) : Visit σ ν :=
  ⟨place, .apply symbol args, values, s, ((m.call symbol values).run s).1,
    ((m.call symbol values).run s).2⟩

/-- Every visit starts where the one before it ended, as far as can be seen. -/
def Linked (view : σ → τ) : τ → List (Visit σ ν) → τ → Prop
  | s, [], s' => s = s'
  | s, v :: vs, s' => view v.before = s ∧ Linked view (view v.after) vs s'

namespace Linked

variable {view : σ → τ} {s s' s'' : τ} {vs ws : List (Visit σ ν)}

theorem append (h : Linked view s vs s') (h' : Linked view s' ws s'') :
    Linked view s (vs ++ ws) s'' := by
  induction vs generalizing s with
  | nil =>
    obtain rfl : s = s' := h
    exact h'
  | cons v vs ih => exact ⟨h.1, ih h.2⟩

theorem map {ρ : Type} (f : τ → ρ) (h : Linked view s vs s') :
    Linked (fun s => f (view s)) (f s) vs (f s') := by
  induction vs generalizing s with
  | nil => exact congrArg f h
  | cons v vs ih => exact ⟨congrArg f h.1, ih h.2⟩

/-- A list that every visit adds to. -/
theorem log {γ : Type} {added : Visit σ ν → List γ} (h : Linked view s vs s')
    (entries : τ → List γ)
    (hadded : ∀ v ∈ vs, entries (view v.after) = entries (view v.before) ++ added v) :
    entries s' = entries s ++ vs.flatMap added := by
  induction vs generalizing s with
  | nil =>
    obtain rfl : s = s' := h
    exact (List.append_nil _).symm
  | cons v vs ih =>
    rw [List.forall_mem_cons] at hadded
    rw [ih h.2 hadded.2, hadded.1, h.1, List.append_assoc, List.flatMap_cons]

theorem eq_of_kept (h : Linked view s vs s') (hkept : ∀ v ∈ vs, view v.after = view v.before) :
    s' = s := by
  induction vs generalizing s with
  | nil => exact h.symm
  | cons v vs ih =>
    rw [List.forall_mem_cons] at hkept
    rw [ih h.2 hkept.2, hkept.1, h.1]

/-- What a list has that visits add to was in it before them or was added by one. -/
theorem mem_iff {γ : Type} {view : σ → List γ} {start stop : List γ}
    {earlier later : List (Visit σ ν)} {v : Visit σ ν}
    (h : Linked view start (earlier ++ v :: later) stop) (adds : Visit σ ν → γ → Prop)
    (hadds : ∀ v ∈ earlier, ∀ x, x ∈ view v.after ↔ x ∈ view v.before ∨ adds v x) (x : γ) :
    x ∈ view v.before ↔ x ∈ start ∨ ∃ w ∈ earlier, adds w x := by
  induction earlier generalizing start with
  | nil => simp [h.1]
  | cons w earlier ih =>
    rw [List.forall_mem_cons] at hadds
    rw [ih h.2 hadds.2, hadds.1, h.1, List.exists_mem_cons_iff, or_assoc]

end Linked

/-- What a node does that is come to after other visits. A call is given the values of its
arguments, which were come to before. -/
inductive Sound (m : Meaning σ ν) (earlier : List (Visit σ ν)) : Visit σ ν → Prop where
  | literal {place value s} : Sound m earlier ⟨place, .literal value, [], s, .ok value, s⟩
  | malformed {place error source s} :
    Sound m earlier ⟨place, .malformed error source, [], s, .error error, s⟩
  | call {place symbol args values s} (length : values.length = args.length)
    (computed : ∀ i value, values[i]? = some value →
      ∃ v ∈ earlier, v.place = i :: place ∧ v.result = .ok value) :
    Sound m earlier (ofCall m place symbol args values s)

theorem Sound.mono {m : Meaning σ ν} {earlier others : List (Visit σ ν)} {v : Visit σ ν}
    (h : v.Sound m earlier) (hsub : earlier ⊆ others) : v.Sound m others := by
  cases h with
  | literal => exact .literal
  | malformed => exact .malformed
  | call length computed =>
    refine .call length fun i value hvalue => ?_
    obtain ⟨w, hw, hplace⟩ := computed i value hvalue
    exact ⟨w, hsub hw, hplace⟩

end Visit

open Visit

/-- Visits to nodes in their order, to all of them if the result is a value. The error of the last
one is the result otherwise. -/
structure Walk (m : Meaning σ ν) (nodes : List (Place × Tree ν)) (s : σ) (vs : List (Visit σ ν))
    (result : Except Error α) (s' : σ) : Prop where
  order : vs.map site <+: nodes
  linked : Linked id s vs s'
  sound : ∀ {earlier v later}, vs = earlier ++ v :: later → v.Sound m earlier
  whole : ∀ {x}, result = .ok x → vs.map site = nodes ∧ ∀ v ∈ vs, ∃ value, v.result = .ok value
  stopped : ∀ {error}, result = .error error → ∃ earlier last, vs = earlier ++ [last] ∧
    last.result = .error error ∧ ∀ v ∈ earlier, ∃ value, v.result = .ok value

namespace Walk

variable {m : Meaning σ ν} {nodes nodes' : List (Place × Tree ν)} {s s' s'' : σ}
  {vs ws : List (Visit σ ν)}

theorem nil (x : α) : Walk m [] s [] (.ok x : Except Error α) s where
  order := List.nil_prefix
  linked := rfl
  sound h := by simp at h
  whole _ := ⟨rfl, nofun⟩
  stopped := nofun

/-- The visits go on after others that gave values. -/
theorem append {x : α} {result : Except Error β} (h : Walk m nodes s vs (.ok x) s')
    (h' : Walk m nodes' s' ws result s'') :
    Walk m (nodes ++ nodes') s (vs ++ ws) result s'' where
  order := by
    rw [List.map_append, (h.whole rfl).1]
    exact List.prefix_append_right_inj _ |>.2 h'.order
  linked := h.linked.append h'.linked
  sound := by
    intro earlier v later heq
    rcases List.append_eq_append_iff.1 heq with ⟨inner, rfl, hws⟩ | ⟨inner, rfl, hlater⟩
    · exact (h'.sound hws).mono (List.subset_append_right _ _)
    · rcases inner with _ | ⟨w, inner⟩
      · have hfirst : ws = [] ++ v :: later := hlater.symm
        exact (h'.sound hfirst).mono (List.nil_subset _)
      · obtain ⟨rfl, rfl⟩ := List.cons.inj hlater
        exact h.sound rfl
  whole := by
    intro y hy
    obtain ⟨hall, hok⟩ := h.whole rfl
    obtain ⟨hall', hok'⟩ := h'.whole hy
    refine ⟨by rw [List.map_append, hall, hall'], fun v hv => ?_⟩
    exact (List.mem_append.1 hv).elim (hok v) (hok' v)
  stopped := by
    intro error herror
    obtain ⟨earlier, last, rfl, hlast, hok⟩ := h'.stopped herror
    refine ⟨vs ++ earlier, last, by rw [List.append_assoc], hlast, fun v hv => ?_⟩
    exact (List.mem_append.1 hv).elim ((h.whole rfl).2 v) (hok v)

/-- After an error no node is come to. -/
theorem stop {error : Error} (h : Walk m nodes s vs (.error error : Except Error α) s')
    (nodes' : List (Place × Tree ν)) :
    Walk m (nodes ++ nodes') s vs (.error error : Except Error β) s' where
  order := h.order.trans (List.prefix_append _ _)
  linked := h.linked
  sound := h.sound
  whole := nofun
  stopped herror := h.stopped (congrArg Except.error (Except.error.inj herror))

/-- A node is come to once its arguments have values. -/
theorem visit {x : α} {v : Visit σ ν} (h : Walk m nodes s vs (.ok x) v.before)
    (hv : v.Sound m vs) : Walk m (nodes ++ [v.site]) s (vs ++ [v]) v.result v.after where
  order := by rw [List.map_append, (h.whole rfl).1]; exact List.prefix_rfl
  linked := h.linked.append ⟨rfl, rfl⟩
  sound := by
    intro earlier w later heq
    rcases List.eq_nil_or_concat later with rfl | ⟨later, u, rfl⟩
    · obtain ⟨rfl, hw⟩ := List.append_inj' heq rfl
      obtain rfl := List.singleton_inj.1 hw
      exact hv
    · rw [List.concat_eq_append, ← List.cons_append, ← List.append_assoc] at heq
      exact h.sound (List.append_inj' heq rfl).1
  whole := by
    intro y hy
    obtain ⟨hall, hok⟩ := h.whole rfl
    refine ⟨by rw [List.map_append, hall]; rfl, fun w hw => ?_⟩
    rcases List.mem_append.1 hw with hw | hw
    · exact hok w hw
    · obtain rfl := List.mem_singleton.1 hw
      exact ⟨y, hy⟩
  stopped herror := ⟨vs, v, rfl, herror, (h.whole rfl).2⟩

theorem map {result : Except Error α} (f : α → β) (h : Walk m nodes s vs result s') :
    Walk m nodes s vs (result.map f) s' where
  order := h.order
  linked := h.linked
  sound := h.sound
  whole hy := by
    obtain ⟨x, hx, -⟩ := exists_of_map_eq_ok hy
    exact h.whole hx
  stopped herror := by
    cases result with
    | ok x => cases herror
    | error error => exact h.stopped (congrArg Except.error (Except.error.inj herror))

end Walk

namespace Tree

open Formula.Action

mutual

/-- The nodes that an evaluation comes to in a tree that stands at a place. -/
def visitsAt (m : Meaning σ ν) (place : Place) : Tree ν → σ → List (Visit σ ν)
  | literal value, s => [⟨place, literal value, [], s, .ok value, s⟩]
  | apply symbol args, s =>
    visitsFrom m place 0 args s ++
      match (evaluateAll m args).run s with
      | (.ok values, s') => [ofCall m place symbol args values s']
      | (.error _, _) => []
  | malformed error source, s => [⟨place, malformed error source, [], s, .error error, s⟩]

def visitsFrom (m : Meaning σ ν) (place : Place) (i : Nat) :
    List (Tree ν) → σ → List (Visit σ ν)
  | [], _ => []
  | arg :: args, s =>
    visitsAt m (i :: place) arg s ++
      match (evaluate m arg).run s with
      | (.ok _, s') => visitsFrom m place (i + 1) args s'
      | (.error _, _) => []

end

/-- The nodes that an evaluation of the tree comes to. -/
def visits (m : Meaning σ ν) (t : Tree ν) (s : σ) : List (Visit σ ν) := t.visitsAt m [] s

/-- The visits of an evaluation at a place, with one to the place itself if there is a value. -/
structure Visited (m : Meaning σ ν) (place : Place) (t : Tree ν) (s : σ) : Prop where
  walk : Walk m (t.nodesAt place) s (t.visitsAt m place s)
    ((t.evaluate m).run s).1 ((t.evaluate m).run s).2
  value : ∀ {x}, ((t.evaluate m).run s).1 = .ok x →
    ∃ v ∈ t.visitsAt m place s, v.place = place ∧ v.result = .ok x

structure VisitedAll (m : Meaning σ ν) (place : Place) (i : Nat) (args : List (Tree ν)) (s : σ) :
    Prop where
  walk : Walk m (nodesFrom place i args) s (visitsFrom m place i args s)
    ((evaluateAll m args).run s).1 ((evaluateAll m args).run s).2
  length : ∀ {values}, ((evaluateAll m args).run s).1 = .ok values → values.length = args.length
  values : ∀ {values}, ((evaluateAll m args).run s).1 = .ok values →
    ∀ j x, values[j]? = some x →
      ∃ v ∈ visitsFrom m place i args s, v.place = (i + j) :: place ∧ v.result = .ok x

mutual

theorem visited (m : Meaning σ ν) (place : Place) (t : Tree ν) (s : σ) : t.Visited m place s := by
  cases t with
  | literal value =>
    exact ⟨(Walk.nil ()).visit (v := ⟨place, literal value, [], s, .ok value, s⟩) .literal,
      fun h => ⟨_, List.mem_singleton_self _, rfl, h⟩⟩
  | malformed error source =>
    exact ⟨(Walk.nil ()).visit (v := ⟨place, malformed error source, [], s, .error error, s⟩)
      .malformed, nofun⟩
  | apply symbol args =>
    obtain ⟨walk, length, values⟩ := visitedAll m place 0 args s
    rcases hargs : (evaluateAll m args).run s with ⟨error | xs, s'⟩ <;>
      rw [hargs] at walk length values
    · have hrun : ((apply symbol args).evaluate m).run s = (.error error, s') := by
        rw [evaluate, run_bind_error hargs]
      constructor
      · rw [hrun, visitsAt, hargs, nodesAt]
        simpa using walk.stop [(place, apply symbol args)]
      · rw [hrun]
        exact nofun
    · have hrun : ((apply symbol args).evaluate m).run s = (m.call symbol xs).run s' := by
        rw [evaluate, run_bind_ok hargs]
      let v : Visit σ ν := ofCall m place symbol args xs s'
      have hvisits : (apply symbol args).visitsAt m place s =
          visitsFrom m place 0 args s ++ [v] := by
        rw [visitsAt, hargs]
      have hv : v.Sound m (visitsFrom m place 0 args s) := by
        refine .call (length rfl) fun i value hvalue => ?_
        simpa using values rfl i value hvalue
      constructor
      · rw [hrun, hvisits, nodesAt]
        exact walk.visit hv
      · rw [hrun, hvisits]
        exact fun h => ⟨v, List.mem_append_right _ (List.mem_singleton_self v), rfl, h⟩

theorem visitedAll (m : Meaning σ ν) (place : Place) (i : Nat) (args : List (Tree ν)) (s : σ) :
    VisitedAll m place i args s := by
  cases args with
  | nil =>
    refine ⟨.nil _, fun h => ?_, fun h => ?_⟩
    · rw [← Except.ok.inj h]
      rfl
    · rw [← Except.ok.inj h]
      exact nofun
  | cons arg args =>
    obtain ⟨walk, value⟩ := visited m (i :: place) arg s
    rcases harg : (arg.evaluate m).run s with ⟨error | x, s'⟩ <;> rw [harg] at walk value
    · have hrun : (evaluateAll m (arg :: args)).run s = (.error error, s') := by
        rw [evaluateAll, run_bind_error harg]
      constructor
      · rw [hrun, visitsFrom, harg, nodesFrom]
        simpa using walk.stop _
      all_goals
        rw [hrun]
        exact nofun
    · obtain ⟨walk', length, values⟩ := visitedAll m place (i + 1) args s'
      have hrun : (evaluateAll m (arg :: args)).run s =
          (((evaluateAll m args).run s').1.map (x :: ·), ((evaluateAll m args).run s').2) := by
        rw [evaluateAll, run_bind_ok harg, run_map]
      have hvisits : visitsFrom m place i (arg :: args) s =
          visitsAt m (i :: place) arg s ++ visitsFrom m place (i + 1) args s' := by
        rw [visitsFrom, harg]
      refine ⟨?_, fun {xs} h => ?_, fun {xs} h => ?_⟩
      · rw [hrun, hvisits, nodesFrom]
        exact walk.append (walk'.map _)
      · rw [hrun] at h
        obtain ⟨others, hothers, rfl⟩ := exists_of_map_eq_ok h
        exact congrArg Nat.succ (length hothers)
      · rw [hrun] at h
        obtain ⟨others, hothers, rfl⟩ := exists_of_map_eq_ok h
        rw [hvisits]
        rintro (_ | j) y hy
        · obtain rfl := Option.some.inj hy
          obtain ⟨v, hv, hplace⟩ := value rfl
          exact ⟨v, List.mem_append_left _ hv, hplace⟩
        · obtain ⟨v, hv, hplace, hresult⟩ := values hothers j y hy
          refine ⟨v, List.mem_append_right _ hv, ?_, hresult⟩
          rw [hplace, Nat.add_right_comm, Nat.add_assoc]

end

/-- An evaluation comes to the nodes of the tree in post-order. -/
theorem walk_visits (m : Meaning σ ν) (t : Tree ν) (s : σ) :
    Walk m t.postorder s (t.visits m s) ((t.evaluate m).run s).1 ((t.evaluate m).run s).2 :=
  (visited m [] t s).walk

theorem at?_of_visit {m : Meaning σ ν} {t : Tree ν} {s : σ} {v : Visit σ ν}
    (h : v ∈ t.visits m s) : t.at? v.place = some v.node :=
  mem_postorder.1 ((t.walk_visits m s).order.subset (List.mem_map_of_mem h))

theorem sound_of_visit {m : Meaning σ ν} {t : Tree ν} {s : σ} {v : Visit σ ν}
    (h : v ∈ t.visits m s) : v.Sound m (t.visits m s) := by
  obtain ⟨earlier, later, heq⟩ := List.append_of_mem h
  exact ((t.walk_visits m s).sound heq).mono (heq ▸ List.subset_append_left _ _)

theorem result_of_literal {m : Meaning σ ν} {t : Tree ν} {s : σ} {v : Visit σ ν} {x : ν}
    (h : v ∈ t.visits m s) (hnode : v.node = literal x) : v.result = .ok x := by
  cases sound_of_visit h with
  | literal => exact congrArg Except.ok (Tree.literal.inj hnode)
  | malformed => cases hnode
  | call => cases hnode

theorem args_of_literals {m : Meaning σ ν} {t : Tree ν} {s : σ} {v : Visit σ ν} {symbol : Symbol}
    {values : List ν} (h : v ∈ t.visits m s) (hnode : v.node = apply symbol (values.map literal)) :
    v.args = values := by
  have hat := at?_of_visit h
  rw [hnode] at hat
  cases sound_of_visit h with
  | literal => cases hnode
  | malformed => cases hnode
  | @call place symbol args xs s' length computed =>
    have hself : t.at? place = some (apply _ (values.map literal)) := hat
    obtain ⟨rfl, rfl⟩ := Tree.apply.inj hnode
    rw [List.length_map] at length
    refine List.ext_getElem length fun i hi hi' => ?_
    obtain ⟨u, hu, hplace, hresult⟩ := computed i xs[i] (List.getElem?_eq_getElem hi)
    have harg : (values.map literal)[i]? = some u.node := by
      rw [← at?_of_visit hu, hplace, at?, hself]
      rfl
    rw [List.getElem?_map, List.getElem?_eq_getElem hi'] at harg
    have hliteral := result_of_literal hu (Option.some.inj harg).symm
    exact Except.ok.inj (hresult.symm.trans hliteral)

/-- No node is come to twice. -/
theorem nodup_visits (m : Meaning σ ν) (t : Tree ν) (s : σ) :
    ((t.visits m s).map Visit.place).Nodup := by
  have hsites := (t.walk_visits m s).order.sublist.map Prod.fst
  rw [List.map_map] at hsites
  exact hsites.nodup t.nodup_postorder

end Tree
end Formula
