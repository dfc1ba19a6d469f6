import Formula.Meaning
import Mathlib.Data.List.Forall2

/-! Evaluation under two meanings at once. One may hold its values in another form, in a state that
grows as it goes, and may have made pure calls ahead of evaluation. Main statements: if every call
under one is matched by the call under the other, so is the evaluation of every tree, and folding
keeps a tree that implements another one. -/
namespace Formula

theorem mem_of_lookup {κ α : Type} [BEq κ] [LawfulBEq κ] {entries : List (κ × α)} {key : κ}
    {value : α} (h : entries.lookup key = some value) : (key, value) ∈ entries := by
  obtain ⟨before, after, rfl, _⟩ := List.lookup_eq_some_iff.1 h
  exact List.mem_append_right _ List.mem_cons_self

theorem exists_of_map_eq_ok {α β : Type} {f : α → β} {result : Except Error α} {value : β}
    (h : result.map f = .ok value) : ∃ x, result = .ok x ∧ f x = value := by
  cases result with
  | error error => cases h
  | ok x => exact ⟨x, rfl, Except.ok.inj h⟩

namespace Action

variable {σ α β : Type}

theorem run_pure (value : α) (s : σ) : (pure value : Action σ α).run s = (.ok value, s) := rfl

theorem bind_apply (x : StateM σ α) (f : α → StateM σ β) (s : σ) :
    (x >>= f) s = f (x s).1 (x s).2 := rfl

theorem run_bind_ok {x : Action σ α} {s s' : σ} {value : α} (h : x.run s = (.ok value, s'))
    (f : α → Action σ β) : (x >>= f).run s = (f value).run s' := by
  rw [ExceptT.run_bind, bind_apply, h]

theorem run_bind_error {x : Action σ α} {s s' : σ} {error : Error}
    (h : x.run s = (.error error, s')) (f : α → Action σ β) :
    (x >>= f).run s = (.error error, s') := by
  rw [ExceptT.run_bind, bind_apply, h]
  rfl

theorem run_map (x : Action σ α) (f : α → β) (s : σ) :
    (x >>= fun value => pure (f value)).run s = ((x.run s).1.map f, (x.run s).2) := by
  rcases hrun : x.run s with ⟨error | value, s'⟩
  · rw [run_bind_error hrun]
    rfl
  · rw [run_bind_ok hrun]
    rfl

/-- Every run of the action leads to a state that the relation holds of. -/
def Grows (R : σ → σ → Prop) (action : Action σ α) : Prop := ∀ s, R s (action.run s).2

namespace Grows

variable {R : σ → σ → Prop} (hrefl : ∀ s, R s s) (htrans : ∀ a b c, R a b → R b c → R a c)
include hrefl

theorem pure (value : α) : Grows R (pure value : Action σ α) := hrefl

theorem throw (error : Error) : Grows R (throw error : Action σ α) := hrefl

omit hrefl
include htrans

theorem bind {x : Action σ α} {f : α → Action σ β} (hx : Grows R x) (hf : ∀ v, Grows R (f v)) :
    Grows R (x >>= f) := by
  intro s
  have hs := hx s
  rcases hrun : x.run s with ⟨error | value, s'⟩
  · rw [run_bind_error hrun]
    rwa [hrun] at hs
  · rw [run_bind_ok hrun]
    rw [hrun] at hs
    exact htrans _ _ _ hs (hf value s')

end Grows

end Action

namespace Tree

variable {σ ν : Type} (m : Meaning σ ν) (s : σ)

theorem fold_apply (symbol : Symbol) (args : List (Tree ν)) :
    (apply symbol args).fold m s = foldCall m symbol (foldAll m args s).1 (foldAll m args s).2 := by
  rw [fold, Action.bind_apply]

theorem foldAll_cons (arg : Tree ν) (args : List (Tree ν)) :
    foldAll m (arg :: args) s =
      ((arg.fold m s).1 :: (foldAll m args (arg.fold m s).2).1,
        (foldAll m args (arg.fold m s).2).2) := by
  rw [foldAll, Action.bind_apply, Action.bind_apply]
  rfl

/-- Folding a call leaves it alone, or makes it and may put its value in its place. -/
theorem foldCall_cases (symbol : Symbol) (args : List (Tree ν)) :
    foldCall m symbol args s = (apply symbol args, s) ∨
      ∃ values, m.isPure symbol = true ∧ literals? args = some values ∧
        (foldCall m symbol args s).2 = ((m.call symbol values).run s).2 ∧
        ((foldCall m symbol args s).1 = apply symbol args ∨
          ∃ value, ((m.call symbol values).run s).1 = .ok value ∧
            (foldCall m symbol args s).1 = literal value) := by
  unfold foldCall
  cases hp : m.isPure symbol with
  | false => exact .inl rfl
  | true =>
    cases hl : literals? args with
    | none => exact .inl rfl
    | some values =>
      refine .inr ⟨values, rfl, rfl, ?_⟩
      simp only [if_true, Action.bind_apply]
      cases hc : ((m.call symbol values).run s).1 with
      | error error => exact ⟨rfl, .inl rfl⟩
      | ok value => exact ⟨rfl, .inr ⟨value, rfl, rfl⟩⟩

section Grows

open Formula.Action

variable {m : Meaning σ ν} {R : σ → σ → Prop} (hrefl : ∀ s, R s s)
  (htrans : ∀ a b c, R a b → R b c → R a c)
include hrefl htrans

mutual

/-- Evaluation does to the state no more than calls do. -/
theorem grows_evaluate (hcall : ∀ symbol args, Grows R (m.call symbol args))
    (a : Tree ν) : Grows R (a.evaluate m) := by
  cases a with
  | literal value => exact .pure hrefl value
  | malformed error source => exact .throw hrefl error
  | apply symbol args =>
    rw [evaluate]
    exact (grows_evaluateAll hcall args).bind htrans (hcall symbol)

theorem grows_evaluateAll (hcall : ∀ symbol args, Grows R (m.call symbol args))
    (as : List (Tree ν)) : Grows R (evaluateAll m as) := by
  cases as with
  | nil => exact .pure hrefl []
  | cons a as =>
    rw [evaluateAll]
    refine (grows_evaluate hcall a).bind htrans fun value => ?_
    exact (grows_evaluateAll hcall as).bind htrans fun values => .pure hrefl (value :: values)

end

mutual

/-- So does folding. -/
theorem grows_fold (hcall : ∀ symbol args, Grows R (m.call symbol args))
    (a : Tree ν) (s : σ) : R s (a.fold m s).2 := by
  cases a with
  | literal value => exact hrefl s
  | malformed error source => exact hrefl s
  | apply symbol args =>
    have hargs := grows_foldAll hcall args s
    rw [fold_apply]
    rcases foldCall_cases m (foldAll m args s).2 symbol (foldAll m args s).1 with
      h | ⟨values, _, _, hstate, _⟩
    · rw [h]
      exact hargs
    · rw [hstate]
      exact htrans _ _ _ hargs (hcall symbol values _)

theorem grows_foldAll (hcall : ∀ symbol args, Grows R (m.call symbol args))
    (as : List (Tree ν)) (s : σ) : R s (foldAll m as s).2 := by
  cases as with
  | nil => exact hrefl s
  | cons a as =>
    rw [foldAll_cons]
    exact htrans _ _ _ (grows_fold hcall a s) (grows_foldAll hcall as _)

end

end Grows

mutual

theorem map_id (t : Tree ν) : t.map id = t := by
  cases t with
  | literal => rfl
  | apply symbol args => rw [map, mapAll_id args]
  | malformed => rfl

theorem mapAll_id (ts : List (Tree ν)) : mapAll id ts = ts := by
  cases ts with
  | nil => rfl
  | cons t ts => rw [mapAll, map_id t, mapAll_id ts]

end

end Tree

/-- The same error, or values that the relation holds of. -/
def Matches {α β : Type} (represents : α → β → Prop) : Except Error α → Except Error β → Prop
  | .ok x, .ok y => represents x y
  | .error error, .error other => error = other
  | _, _ => False

theorem Matches.eq {α : Type} {x y : Except Error α} (h : Matches Eq x y) : x = y := by
  cases x <;> cases y <;> simp_all [Matches]

/-- Alike states lead to the same result and to alike states. -/
def Uniform {σ α : Type} (alike : σ → σ → Prop) (action : Action σ α) : Prop :=
  ∀ h h', alike h h' →
    (action.run h).1 = (action.run h').1 ∧ alike (action.run h).2 (action.run h').2

/-- The action has one result, and no effect that shows. -/
def Steady {σ α : Type} (alike : σ → σ → Prop) (action : Action σ α) : Prop :=
  ∃ result, ∀ h, ∃ h', action.run h = (result, h') ∧ alike h h'

namespace Steady

variable {σ α β : Type} {alike : σ → σ → Prop} (hequivalence : Equivalence alike)
include hequivalence

theorem pure (value : α) : Steady alike (pure value) :=
  ⟨.ok value, fun h => ⟨h, rfl, hequivalence.refl h⟩⟩

theorem throw (error : Error) : Steady alike (throw error : Action σ α) :=
  ⟨.error error, fun h => ⟨h, rfl, hequivalence.refl h⟩⟩

theorem bind {x : Action σ α} {f : α → Action σ β} (hx : Steady alike x)
    (hf : ∀ v, Steady alike (f v)) : Steady alike (x >>= f) := by
  obtain ⟨result, hx⟩ := hx
  cases result with
  | error error =>
    refine ⟨.error error, fun h => ?_⟩
    obtain ⟨h', hrun, halike⟩ := hx h
    exact ⟨h', Action.run_bind_error hrun f, halike⟩
  | ok value =>
    obtain ⟨result, hnext⟩ := hf value
    refine ⟨result, fun h => ?_⟩
    obtain ⟨h', hrun, halike⟩ := hx h
    obtain ⟨h'', hrun', halike'⟩ := hnext h'
    exact ⟨h'', (Action.run_bind_ok hrun f).trans hrun', hequivalence.trans halike halike'⟩

end Steady

/-- How the values and states of one meaning stand for those of another, in trees of the names
given. A call may extend the state, which keeps what values stand for; what is asked of a state that
an action ends in holds of every state on the way. -/
structure Simulation {σ ν τ μ : Type} (fast : Meaning σ ν) (slow : Meaning τ μ) where
  Names : Symbol → Prop
  Related : σ → τ → Prop
  Represents : σ → ν → μ → Prop
  Extends : σ → σ → Prop
  Sound : σ → Prop
  refl : ∀ s, Extends s s
  trans : ∀ a b c, Extends a b → Extends b c → Extends a c
  sound_of_extends : ∀ {s s'}, Extends s s' → Sound s' → Sound s
  represents_of_extends : ∀ {s s' x y}, Extends s s' → Represents s x y → Represents s' x y
  grows_call : ∀ symbol args s, Extends s ((fast.call symbol args).run s).2
  /-- A call of values that stand for others comes to a value that stands for theirs, or to the
  same error. -/
  call_follows : ∀ {s t symbol xs ys}, Names symbol → Related s t →
    List.Forall₂ (Represents s) xs ys → Sound ((fast.call symbol xs).run s).2 →
    Related ((fast.call symbol xs).run s).2 ((slow.call symbol ys).run t).2 ∧
      Matches (Represents ((fast.call symbol xs).run s).2)
        ((fast.call symbol xs).run s).1 ((slow.call symbol ys).run t).1
  /-- A pure call may be made when the other is not, and its value does for any later call. -/
  pure_call : ∀ {s t symbol xs ys}, Names symbol → fast.isPure symbol = true → Related s t →
    List.Forall₂ (Represents s) xs ys → Sound ((fast.call symbol xs).run s).2 →
    Related ((fast.call symbol xs).run s).2 t ∧
      ∀ x, ((fast.call symbol xs).run s).1 = .ok x →
        ∃ y, Represents ((fast.call symbol xs).run s).2 x y ∧
          ∀ s' t', Extends ((fast.call symbol xs).run s).2 s' → Related s' t' →
            ∃ t'', (slow.call symbol ys).run t' = (.ok y, t'') ∧ Related s' t''

namespace Simulation

open Formula.Tree

variable {σ ν τ μ : Type} {fast : Meaning σ ν} {slow : Meaning τ μ}
  (sim : Simulation fast slow) {s s' : σ} {t : τ}

/-- From `s` on, what the action yields is what `x` stands for, and nothing else comes of it. -/
def Stands {α β : Type} (represents : σ → α → β → Prop) (s : σ) (x : α) (action : Action τ β) :
    Prop :=
  ∃ y, represents s x y ∧ ∀ s' t, sim.Extends s s' → sim.Related s' t →
    ∃ t', action.run t = (.ok y, t') ∧ sim.Related s' t'

theorem Stands.extend {x : ν} {action : Action τ μ} (h : sim.Stands sim.Represents s x action)
    (he : sim.Extends s s') : sim.Stands sim.Represents s' x action := by
  obtain ⟨y, hy, hrun⟩ := h
  exact ⟨y, sim.represents_of_extends he hy, fun _ _ he' => hrun _ _ (sim.trans _ _ _ he he')⟩

mutual

/-- The tree has the shape of the other, but may have literals for parts whose value they are. -/
inductive Implements (s : σ) : Tree ν → Tree μ → Prop where
  | literal {x tree} (stands : sim.Stands sim.Represents s x (tree.evaluate slow)) :
    Implements s (.literal x) tree
  | apply {symbol args others} (name : sim.Names symbol) (all : ImplementsAll s args others) :
    Implements s (.apply symbol args) (.apply symbol others)
  | malformed {error source} : Implements s (.malformed error source) (.malformed error source)

inductive ImplementsAll (s : σ) : List (Tree ν) → List (Tree μ) → Prop where
  | nil : ImplementsAll s [] []
  | cons {arg other args others} (head : Implements s arg other)
    (tail : ImplementsAll s args others) : ImplementsAll s (arg :: args) (other :: others)

end

mutual

theorem Implements.extend {a : Tree ν} {b : Tree μ} (he : sim.Extends s s') :
    sim.Implements s a b → sim.Implements s' a b
  | .literal stands => .literal (stands.extend sim he)
  | .apply name all => .apply name (ImplementsAll.extend he all)
  | .malformed => .malformed

theorem ImplementsAll.extend {as : List (Tree ν)} {bs : List (Tree μ)} (he : sim.Extends s s') :
    sim.ImplementsAll s as bs → sim.ImplementsAll s' as bs
  | .nil => .nil
  | .cons head tail => .cons (Implements.extend he head) (ImplementsAll.extend he tail)

end

mutual

/-- The same tree with literals that stand for those of the other. -/
theorem implements_map {ρ : Type} {f : ρ → ν} {g : ρ → μ}
    (hfg : ∀ s x, sim.Represents s (f x) (g x)) (s : σ) (a : Tree ρ)
    (hnames : ∀ symbol ∈ a.occurrences, sim.Names symbol) :
    sim.Implements s (a.map f) (a.map g) := by
  cases a with
  | literal value =>
    refine .literal ⟨g value, hfg s value, fun s' t _ hr => ⟨t, ?_, hr⟩⟩
    rw [Tree.map, Tree.evaluate, Action.run_pure]
  | apply symbol args =>
    refine .apply (hnames symbol List.mem_cons_self) (implementsAll_mapAll hfg s args ?_)
    exact fun other hmem => hnames other (List.mem_cons_of_mem _ hmem)
  | malformed error source => exact .malformed

theorem implementsAll_mapAll {ρ : Type} {f : ρ → ν} {g : ρ → μ}
    (hfg : ∀ s x, sim.Represents s (f x) (g x)) (s : σ) (as : List (Tree ρ))
    (hnames : ∀ symbol ∈ occurrencesIn as, sim.Names symbol) :
    sim.ImplementsAll s (mapAll f as) (mapAll g as) := by
  cases as with
  | nil => exact .nil
  | cons a as =>
    refine .cons (implements_map hfg s a ?_) (implementsAll_mapAll hfg s as ?_)
    · exact fun symbol hmem => hnames symbol (List.mem_append_left _ hmem)
    · exact fun symbol hmem => hnames symbol (List.mem_append_right _ hmem)

end

/-! ### Evaluation -/

theorem extends_evaluate (a : Tree ν) : Action.Grows sim.Extends (a.evaluate fast) :=
  grows_evaluate sim.refl sim.trans sim.grows_call a

theorem extends_evaluateAll (as : List (Tree ν)) :
    Action.Grows sim.Extends (evaluateAll fast as) :=
  grows_evaluateAll sim.refl sim.trans sim.grows_call as

/-- Unless it ends in a state that is not sound, the first action ends in a state related to that of
the second, with the same error or with a value that stands for that of the second. -/
def Follows {α β : Type} (represents : σ → α → β → Prop) (s : σ) (t : τ) (x : Action σ α)
    (y : Action τ β) : Prop :=
  sim.Sound (x.run s).2 →
    sim.Related (x.run s).2 (y.run t).2 ∧
      Matches (represents (x.run s).2) (x.run s).1 (y.run t).1

namespace Follows

variable {α β γ δ : Type} {V : σ → α → β → Prop} {W : σ → γ → δ → Prop}

theorem pure {x : α} {y : β} (hr : sim.Related s t) (h : V s x y) :
    sim.Follows V s t (pure x) (pure y) := fun _ => ⟨hr, h⟩

theorem throw (error : Error) (hr : sim.Related s t) :
    sim.Follows V s t (throw error) (throw error) := fun _ => ⟨hr, rfl⟩

theorem bind {x : Action σ α} {y : Action τ β} {f : α → Action σ γ} {g : β → Action τ δ}
    (h : sim.Follows V s t x y) (hx : Action.Grows sim.Extends x)
    (hf : ∀ v, Action.Grows sim.Extends (f v))
    (hnext : ∀ v w s' t', sim.Extends s s' → sim.Related s' t' → V s' v w →
      sim.Follows W s' t' (f v) (g w)) :
    sim.Follows W s t (x >>= f) (y >>= g) := by
  intro hs
  have hext := hx s
  unfold Follows at h
  rcases hrun : x.run s with ⟨error | value, s'⟩ <;>
    rcases hrun' : y.run t with ⟨error' | value', t'⟩ <;> rw [hrun, hrun'] at h
  case error.error =>
    rw [Action.run_bind_error hrun] at hs ⊢
    rw [Action.run_bind_error hrun']
    exact h hs
  case error.ok =>
    rw [Action.run_bind_error hrun] at hs
    exact (h hs).2.elim
  case ok.error =>
    rw [Action.run_bind_ok hrun] at hs
    exact (h (sim.sound_of_extends (hf value s') hs)).2.elim
  case ok.ok =>
    rw [Action.run_bind_ok hrun] at hs ⊢
    rw [Action.run_bind_ok hrun']
    rw [hrun] at hext
    obtain ⟨hr, hvalue⟩ := h (sim.sound_of_extends (hf value s') hs)
    exact hnext value value' s' t' hext hr hvalue hs

end Follows

mutual

/-- A tree that implements another evaluates as it does. -/
theorem Implements.evaluate {s : σ} {t : τ} {a : Tree ν} {b : Tree μ} (h : sim.Implements s a b)
    (hr : sim.Related s t) :
    sim.Follows sim.Represents s t (a.evaluate fast) (b.evaluate slow) := by
  cases h with
  | literal stands =>
    obtain ⟨y, hy, hrun⟩ := stands
    obtain ⟨t', ht', hr'⟩ := hrun s t (sim.refl s) hr
    intro _
    rw [ht', Tree.evaluate]
    exact ⟨hr', hy⟩
  | malformed => exact .throw sim _ hr
  | apply name all =>
    rw [Tree.evaluate, Tree.evaluate]
    refine (ImplementsAll.evaluate all hr).bind sim (sim.extends_evaluateAll _)
      (fun values => sim.grows_call _ values) fun xs ys s' t' _ hr' hvalues => ?_
    exact sim.call_follows name hr' hvalues

theorem ImplementsAll.evaluate {s : σ} {t : τ} {as : List (Tree ν)} {bs : List (Tree μ)}
    (h : sim.ImplementsAll s as bs) (hr : sim.Related s t) :
    sim.Follows (fun s => List.Forall₂ (sim.Represents s)) s t (evaluateAll fast as)
      (evaluateAll slow bs) := by
  cases h with
  | nil => exact .pure sim hr .nil
  | cons head tail =>
    rw [evaluateAll, evaluateAll]
    refine (Implements.evaluate head hr).bind sim (sim.extends_evaluate _)
      (fun value => (sim.extends_evaluateAll _).bind sim.trans fun _ => .pure sim.refl _)
      fun x y s' t' hext hr' hvalue => ?_
    refine (ImplementsAll.evaluate (tail.extend sim hext) hr').bind sim (sim.extends_evaluateAll _)
      (fun _ => .pure sim.refl _) fun xs ys s'' t'' hext' hr'' hvalues => ?_
    exact .pure sim hr'' (.cons (sim.represents_of_extends hext' hvalue) hvalues)

end

/-! ### Folding -/

theorem extends_fold (a : Tree ν) (s : σ) : sim.Extends s (a.fold fast s).2 :=
  grows_fold sim.refl sim.trans sim.grows_call a s

theorem extends_foldAll (as : List (Tree ν)) (s : σ) : sim.Extends s (foldAll fast as s).2 :=
  grows_foldAll sim.refl sim.trans sim.grows_call as s

/-- Arguments that are all literals stand for what the others evaluate to. -/
theorem ImplementsAll.stands {as : List (Tree ν)} {bs : List (Tree μ)} {xs : List ν}
    (h : sim.ImplementsAll s as bs) (hl : literals? as = some xs) :
    sim.Stands (fun s => List.Forall₂ (sim.Represents s)) s xs (evaluateAll slow bs) := by
  induction as generalizing bs xs with
  | nil =>
    cases h
    obtain rfl : [] = xs := by simpa [literals?] using hl
    refine ⟨[], .nil, fun s' t _ hr => ⟨t, ?_, hr⟩⟩
    rw [evaluateAll, Action.run_pure]
  | cons a as ih =>
    cases h with
    | cons head tail =>
      cases head with
      | apply name all => simp [literals?] at hl
      | malformed => simp [literals?] at hl
      | literal stands =>
        obtain ⟨rest, hrest, rfl⟩ := Option.map_eq_some_iff.1 hl
        obtain ⟨y, hy, hrun⟩ := stands
        obtain ⟨ys, hys, hruns⟩ := ih tail hrest
        refine ⟨y :: ys, .cons hy hys, fun s' t hext hr => ?_⟩
        obtain ⟨t', ht', hr'⟩ := hrun s' t hext hr
        obtain ⟨t'', ht'', hr''⟩ := hruns s' t' hext hr'
        refine ⟨t'', ?_, hr''⟩
        rw [evaluateAll, Action.run_bind_ok ht', Action.run_bind_ok ht'', Action.run_pure]

theorem Implements.foldCall {symbol : Symbol} {as : List (Tree ν)} {bs : List (Tree μ)}
    (name : sim.Names symbol) (h : sim.ImplementsAll s as bs) (hr : sim.Related s t)
    (hs : sim.Sound (foldCall fast symbol as s).2) :
    sim.Related (foldCall fast symbol as s).2 t ∧
      sim.Implements (foldCall fast symbol as s).2 (foldCall fast symbol as s).1
        (.apply symbol bs) := by
  rcases foldCall_cases fast s symbol as with hleft | ⟨xs, hpure, hl, hstate, hresult⟩
  · rw [hleft]
    exact ⟨hr, .apply name h⟩
  · obtain ⟨ys, hys, hruns⟩ := h.stands sim hl
    rw [hstate] at hs ⊢
    obtain ⟨hrelated, hvalue⟩ := sim.pure_call name hpure hr hys hs
    refine ⟨hrelated, ?_⟩
    have hext := sim.grows_call symbol xs s
    rcases hresult with hresult | ⟨x, hx, hresult⟩
    · rw [hresult]
      exact .apply name (h.extend sim hext)
    · obtain ⟨y, hy, hrun⟩ := hvalue x hx
      rw [hresult]
      refine .literal ⟨y, hy, fun s' t' hext' hr' => ?_⟩
      obtain ⟨t'', ht'', hr''⟩ := hruns s' t' (sim.trans _ _ _ hext hext') hr'
      obtain ⟨u, hu, hru⟩ := hrun s' t'' hext' hr''
      refine ⟨u, ?_, hru⟩
      rw [Tree.evaluate, Action.run_bind_ok ht'', hu]

mutual

/-- Folding a tree that implements another one leaves one that does. -/
theorem Implements.fold {s : σ} {a : Tree ν} {b : Tree μ} (h : sim.Implements s a b)
    (hr : sim.Related s t) (hs : sim.Sound (a.fold fast s).2) :
    sim.Related (a.fold fast s).2 t ∧
      sim.Implements (a.fold fast s).2 (a.fold fast s).1 b := by
  cases h with
  | literal stands => exact ⟨hr, .literal stands⟩
  | malformed => exact ⟨hr, .malformed⟩
  | apply name all =>
    rename_i symbol args others
    rw [fold_apply] at hs ⊢
    have hargs : sim.Sound (foldAll fast args s).2 := by
      rcases foldCall_cases fast (foldAll fast args s).2 symbol (foldAll fast args s).1 with
        hleft | ⟨values, _, _, hstate, _⟩
      · rwa [hleft] at hs
      · rw [hstate] at hs
        exact sim.sound_of_extends (sim.grows_call symbol values _) hs
    obtain ⟨hr', hall⟩ := ImplementsAll.fold all hr hargs
    exact Implements.foldCall sim name hall hr' hs

theorem ImplementsAll.fold {s : σ} {as : List (Tree ν)} {bs : List (Tree μ)}
    (h : sim.ImplementsAll s as bs) (hr : sim.Related s t)
    (hs : sim.Sound (foldAll fast as s).2) :
    sim.Related (foldAll fast as s).2 t ∧
      sim.ImplementsAll (foldAll fast as s).2 (foldAll fast as s).1 bs := by
  cases h with
  | nil => exact ⟨hr, .nil⟩
  | cons head tail =>
    rename_i a b as bs
    rw [foldAll_cons] at hs ⊢
    have hext := sim.extends_foldAll as (a.fold fast s).2
    obtain ⟨hr', hhead⟩ := Implements.fold head hr (sim.sound_of_extends hext hs)
    have htail := tail.extend sim (sim.extends_fold a s)
    obtain ⟨hr'', hall⟩ := ImplementsAll.fold htail hr' hs
    exact ⟨hr'', .cons (hhead.extend sim hext) hall⟩

end

end Simulation
end Formula
