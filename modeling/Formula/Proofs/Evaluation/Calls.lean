import Formula.Proofs.Evaluation.Recording

/-! The calls of an evaluation. Main statements: a state that lists the calls leads to the same
results, and what is asked of the literals of a tree and kept by every call holds of whatever is
passed to a call and comes of it, and of the literals after folding. -/
namespace Formula

variable {σ ν α β : Type}

namespace Meaning

/-- A call of a symbol: what it was given and in which state, and what came of it. -/
structure Call (σ ν : Type) where
  symbol : Symbol
  args : List ν
  before : σ
  result : Except Error ν
  after : σ

/-- The same meaning, with the list of its calls next to the state. -/
def listing (m : Meaning σ ν) : Meaning (σ × List (Call σ ν)) ν where
  call symbol args := fun state =>
    let (result, after) := (m.call symbol args).run state.1
    (result, after, state.2 ++ [⟨symbol, args, state.1, result, after⟩])
  isPure := m.isPure

theorem projects_listing (m : Meaning σ ν) (symbol : Symbol) (args : List ν) :
    Projects Prod.fst (m.listing.call symbol args) (m.call symbol args) := fun _ => rfl

end Meaning

namespace Tree

/-- The calls of an evaluation that starts in a state, in their order. -/
def calls (m : Meaning σ ν) (t : Tree ν) (s : σ) : List (Meaning.Call σ ν) :=
  ((t.evaluate m.listing).run (s, [])).2.2

/-- The calls that are made to fold the tree. -/
def foldCalls (m : Meaning σ ν) (t : Tree ν) (s : σ) : List (Meaning.Call σ ν) :=
  (t.fold m.listing (s, [])).2.2

theorem evaluate_listing (m : Meaning σ ν) (t : Tree ν) (s : σ) :
    (t.evaluate m).run s =
      (((t.evaluate m.listing).run (s, [])).1, ((t.evaluate m.listing).run (s, [])).2.1) :=
  Projects.evaluate m.projects_listing t (s, [])

theorem fold_listing (m : Meaning σ ν) (t : Tree ν) (s : σ) :
    t.fold m s = ((t.fold m.listing (s, [])).1, (t.fold m.listing (s, [])).2.1) :=
  Projects.fold m.projects_listing rfl t (s, [])

/-- Something of every literal, and of every symbol and the number of its arguments. -/
inductive Every (P : ν → Prop) (Q : Symbol → Nat → Prop) : Tree ν → Prop where
  | literal {value : ν} (h : P value) : Every P Q (literal value)
  | apply {symbol : Symbol} {args : List (Tree ν)} (h : Q symbol args.length)
    (all : ∀ arg ∈ args, Every P Q arg) : Every P Q (apply symbol args)
  | malformed {error : Error} {source : String} : Every P Q (malformed error source)

variable {P P' : ν → Prop} {Q : Symbol → Nat → Prop}

theorem Every.mono {t : Tree ν} (h : t.Every P Q) (hP : ∀ x, P x → P' x) : t.Every P' Q := by
  induction h with
  | literal h => exact .literal (hP _ h)
  | apply h _ ih => exact .apply h ih
  | malformed => exact .malformed

mutual

theorem every_true (t : Tree ν) : t.Every (fun _ => True) fun _ _ => True := by
  cases t with
  | literal value => exact .literal trivial
  | apply symbol args => exact .apply trivial (everyAll_true args)
  | malformed error source => exact .malformed

theorem everyAll_true (ts : List (Tree ν)) :
    ∀ t ∈ ts, t.Every (fun _ => True) fun _ _ => True := by
  cases ts with
  | nil => exact nofun
  | cons t ts => exact List.forall_mem_cons.2 ⟨every_true t, everyAll_true ts⟩

end

theorem occurrences_of_mem {symbol : Symbol} {arg : Tree ν} {args : List (Tree ν)}
    (harg : arg ∈ args) (h : symbol ∈ arg.occurrences) : symbol ∈ occurrencesIn args := by
  induction args with
  | nil => cases harg
  | cons first args ih =>
    rw [occurrencesIn, List.mem_append]
    rcases List.mem_cons.1 harg with rfl | harg
    · exact .inl h
    · exact .inr (ih harg)

theorem Every.of_occurrences {R : Symbol → Prop} {t : Tree ν} (h : t.Every P Q)
    (hR : ∀ symbol ∈ t.occurrences, R symbol) :
    t.Every P fun symbol count => R symbol ∧ Q symbol count := by
  induction h with
  | literal h => exact .literal h
  | apply h _ ih =>
    rw [occurrences, List.forall_mem_cons] at hR
    refine .apply ⟨hR.1, h⟩ fun arg harg => ih arg harg fun symbol hsymbol => ?_
    exact hR.2 symbol (occurrences_of_mem harg hsymbol)
  | malformed => exact .malformed

theorem mapAll_eq_map {μ : Type} (f : ν → μ) (ts : List (Tree ν)) :
    mapAll f ts = ts.map (Tree.map f) := by
  induction ts with
  | nil => rfl
  | cons t ts ih => rw [mapAll, ih, List.map_cons]

theorem Every.map {μ : Type} {P' : μ → Prop} {f : ν → μ} {t : Tree ν} (h : t.Every P Q)
    (hP : ∀ x, P x → P' (f x)) : (t.map f).Every P' Q := by
  induction h with
  | literal h => exact .literal (hP _ h)
  | apply h _ ih =>
    rw [Tree.map, mapAll_eq_map]
    refine .apply (by rwa [List.length_map]) fun arg harg => ?_
    obtain ⟨t, ht, rfl⟩ := List.mem_map.1 harg
    exact ih t ht
  | malformed => exact .malformed

theorem every_literals {args : List (Tree ν)} {values : List ν}
    (h : literals? args = some values) (hargs : ∀ arg ∈ args, arg.Every P Q) :
    values.length = args.length ∧ ∀ x ∈ values, P x := by
  induction args generalizing values with
  | nil =>
    obtain rfl := Option.some.inj h
    exact ⟨rfl, nofun⟩
  | cons arg args ih =>
    rw [List.forall_mem_cons] at hargs
    cases arg with
    | literal x =>
      obtain ⟨others, hothers, rfl⟩ := Option.map_eq_some_iff.1 h
      obtain ⟨hlength, hall⟩ := ih hothers hargs.2
      cases hargs.1 with
      | literal hx => exact ⟨congrArg Nat.succ hlength, List.forall_mem_cons.2 ⟨hx, hall⟩⟩
    | apply symbol args => cases h
    | malformed error source => cases h

end Tree

/-- Good values, which stay good in the states that calls lead to: in a valid state, a symbol that
fits its good arguments comes to a good value. -/
structure Meaning.Invariant (m : Meaning σ ν) where
  Fits : Symbol → Nat → Prop
  Valid : σ → Prop
  Good : σ → ν → Prop
  Extends : σ → σ → Prop
  refl : ∀ s, Extends s s
  trans : ∀ {a b c}, Extends a b → Extends b c → Extends a c
  valid_of_extends : ∀ {s s'}, Extends s s' → Valid s → Valid s'
  good_of_extends : ∀ {s s' x}, Extends s s' → Good s x → Good s' x
  call : ∀ {symbol args s}, Fits symbol args.length → Valid s → (∀ x ∈ args, Good s x) →
    Extends s ((m.call symbol args).run s).2 ∧
      ∀ x, ((m.call symbol args).run s).1 = .ok x → Good ((m.call symbol args).run s).2 x

namespace Meaning.Invariant

open Formula.Tree

variable {m : Meaning σ ν} (inv : m.Invariant) {s : σ}

/-- The action extends the state, and its value is as told of the state that it leads to. -/
def Leads (V : σ → α → Prop) (s : σ) (action : Action σ α) : Prop :=
  inv.Extends s (action.run s).2 ∧ ∀ x, (action.run s).1 = .ok x → V (action.run s).2 x

namespace Leads

variable {V : σ → α → Prop} {W : σ → β → Prop}

theorem pure {x : α} (h : V s x) : inv.Leads V s (pure x) := by
  refine ⟨inv.refl s, fun y hy => ?_⟩
  obtain rfl := Except.ok.inj hy
  exact h

theorem throw (error : Error) : inv.Leads V s (throw error) := ⟨inv.refl s, nofun⟩

theorem bind {x : Action σ α} {f : α → Action σ β} (h : inv.Leads V s x)
    (hf : ∀ v s', inv.Extends s s' → V s' v → inv.Leads W s' (f v)) :
    inv.Leads W s (x >>= f) := by
  obtain ⟨hext, hvalue⟩ := h
  unfold Leads
  rcases hrun : x.run s with ⟨error | v, s'⟩ <;> rw [hrun] at hext hvalue
  · rw [Action.run_bind_error hrun]
    exact ⟨hext, nofun⟩
  · rw [Action.run_bind_ok hrun]
    obtain ⟨hext', hvalue'⟩ := hf v s' hext (hvalue v rfl)
    exact ⟨inv.trans hext hext', hvalue'⟩

end Leads

theorem every_of_extends {s' : σ} {t : Tree ν} (h : inv.Extends s s')
    (ht : t.Every (inv.Good s) inv.Fits) : t.Every (inv.Good s') inv.Fits :=
  ht.mono fun _ => inv.good_of_extends h

mutual

/-- A tree of good literals has a good value. -/
theorem evaluate {s : σ} (hs : inv.Valid s) {t : Tree ν} (ht : t.Every (inv.Good s) inv.Fits) :
    inv.Leads inv.Good s (t.evaluate m) := by
  cases t with
  | literal value =>
    cases ht with
    | literal h => exact .pure inv h
  | malformed error source => exact .throw inv error
  | apply symbol args =>
    cases ht with
    | apply hfits hall =>
      rw [Tree.evaluate]
      refine (evaluateAll hs hall).bind inv fun values s' hext hvalues => ?_
      exact inv.call (hvalues.1 ▸ hfits) (inv.valid_of_extends hext hs) hvalues.2

theorem evaluateAll {s : σ} (hs : inv.Valid s) {ts : List (Tree ν)}
    (hts : ∀ t ∈ ts, t.Every (inv.Good s) inv.Fits) :
    inv.Leads (fun s values => values.length = ts.length ∧ ∀ x ∈ values, inv.Good s x) s
      (evaluateAll m ts) := by
  cases ts with
  | nil => exact .pure inv ⟨rfl, nofun⟩
  | cons t ts =>
    rw [List.forall_mem_cons] at hts
    rw [Tree.evaluateAll]
    refine (evaluate hs hts.1).bind inv fun value s' hext hvalue => ?_
    have hothers : ∀ t ∈ ts, t.Every (inv.Good s') inv.Fits :=
      fun t ht => inv.every_of_extends hext (hts.2 t ht)
    refine (evaluateAll (inv.valid_of_extends hext hs) hothers).bind inv
      fun values s'' hext' hvalues => .pure inv ?_
    exact ⟨congrArg Nat.succ hvalues.1,
      List.forall_mem_cons.2 ⟨inv.good_of_extends hext' hvalue, hvalues.2⟩⟩

end

theorem foldCall (hs : inv.Valid s) {symbol : Symbol} {args : List (Tree ν)}
    (hfits : inv.Fits symbol args.length) (hargs : ∀ arg ∈ args, arg.Every (inv.Good s) inv.Fits) :
    inv.Extends s (Tree.foldCall m symbol args s).2 ∧
      (Tree.foldCall m symbol args s).1.Every (inv.Good (Tree.foldCall m symbol args s).2)
        inv.Fits := by
  rcases foldCall_cases m s symbol args with h | ⟨values, _, hvalues, hstate, hresult⟩
  · rw [h]
    exact ⟨inv.refl s, .apply hfits hargs⟩
  · obtain ⟨hlength, hgood⟩ := every_literals hvalues hargs
    obtain ⟨hext, hvalue⟩ := inv.call (hlength ▸ hfits) hs hgood
    rw [hstate]
    refine ⟨hext, ?_⟩
    rcases hresult with hresult | ⟨value, hok, hresult⟩
    · rw [hresult]
      exact .apply hfits fun arg harg => inv.every_of_extends hext (hargs arg harg)
    · rw [hresult]
      exact .literal (hvalue value hok)

mutual

/-- Folding puts good values in place of calls. -/
theorem fold {s : σ} (hs : inv.Valid s) {t : Tree ν} (ht : t.Every (inv.Good s) inv.Fits) :
    inv.Extends s (t.fold m s).2 ∧ (t.fold m s).1.Every (inv.Good (t.fold m s).2) inv.Fits := by
  cases t with
  | literal value => exact ⟨inv.refl s, ht⟩
  | malformed error source => exact ⟨inv.refl s, ht⟩
  | apply symbol args =>
    cases ht with
    | apply hfits hall =>
      rw [fold_apply]
      obtain ⟨hext, hlength, hargs⟩ := foldAll hs hall
      obtain ⟨hext', htree⟩ := inv.foldCall (inv.valid_of_extends hext hs) (hlength ▸ hfits) hargs
      exact ⟨inv.trans hext hext', htree⟩

theorem foldAll {s : σ} (hs : inv.Valid s) {ts : List (Tree ν)}
    (hts : ∀ t ∈ ts, t.Every (inv.Good s) inv.Fits) :
    inv.Extends s (Tree.foldAll m ts s).2 ∧
      ts.length = (Tree.foldAll m ts s).1.length ∧
      ∀ t ∈ (Tree.foldAll m ts s).1, t.Every (inv.Good (Tree.foldAll m ts s).2) inv.Fits := by
  cases ts with
  | nil => exact ⟨inv.refl s, rfl, nofun⟩
  | cons t ts =>
    rw [List.forall_mem_cons] at hts
    rw [foldAll_cons]
    obtain ⟨hext, htree⟩ := fold hs hts.1
    obtain ⟨hext', hlength, hothers⟩ := foldAll (inv.valid_of_extends hext hs)
      fun t ht => inv.every_of_extends hext (hts.2 t ht)
    exact ⟨inv.trans hext hext', congrArg Nat.succ hlength,
      List.forall_mem_cons.2 ⟨inv.every_of_extends hext' htree, hothers⟩⟩

end

/-! ### Listed calls -/

/-- A call of a symbol that fits, in a valid state, of good values to a good value. -/
structure Sound (c : Call σ ν) : Prop where
  fits : inv.Fits c.symbol c.args.length
  valid : inv.Valid c.before
  args : ∀ x ∈ c.args, inv.Good c.before x
  extends_after : inv.Extends c.before c.after
  result : ∀ x, c.result = .ok x → inv.Good c.after x

/-- What is listed is sound. -/
def listing : m.listing.Invariant where
  Fits := inv.Fits
  Valid state := inv.Valid state.1
  Good state := inv.Good state.1
  Extends s s' := inv.Extends s.1 s'.1 ∧
    ∀ c ∈ s'.2, c ∈ s.2 ∨ inv.Sound c ∧ inv.Extends c.after s'.1
  refl s := ⟨inv.refl s.1, fun _ hc => .inl hc⟩
  trans := by
    intro a b d h h'
    refine ⟨inv.trans h.1 h'.1, fun c hc => ?_⟩
    rcases h'.2 c hc with hc | hc
    · exact (h.2 c hc).imp_right fun hc => ⟨hc.1, inv.trans hc.2 h'.1⟩
    · exact .inr hc
  valid_of_extends h := inv.valid_of_extends h.1
  good_of_extends h := inv.good_of_extends h.1
  call := by
    intro symbol args s hfits hs hargs
    obtain ⟨hext, hvalue⟩ := inv.call hfits hs hargs
    refine ⟨⟨hext, fun c hc => ?_⟩, hvalue⟩
    rcases List.mem_append.1 hc with hc | hc
    · exact .inl hc
    · rw [List.mem_singleton] at hc
      subst hc
      exact .inr ⟨⟨hfits, hs, hargs, hext, hvalue⟩, inv.refl _⟩

/-- Every call of an evaluation is sound. -/
theorem calls_evaluate (hs : inv.Valid s) {t : Tree ν} (ht : t.Every (inv.Good s) inv.Fits) :
    ∀ c ∈ t.calls m s, inv.Sound c ∧ inv.Extends c.after ((t.evaluate m).run s).2 := by
  intro c hc
  have hrun := (inv.listing.evaluate (s := (s, [])) hs ht).1.2 c hc
  rw [evaluate_listing]
  exact hrun.resolve_left nofun

/-- So is every call of a folding. -/
theorem calls_fold (hs : inv.Valid s) {t : Tree ν} (ht : t.Every (inv.Good s) inv.Fits) :
    ∀ c ∈ t.foldCalls m s, inv.Sound c ∧ inv.Extends c.after (t.fold m s).2 := by
  intro c hc
  have hrun := (inv.listing.fold (s := (s, [])) hs ht).1.2 c hc
  rw [fold_listing]
  exact hrun.resolve_left nofun

end Meaning.Invariant
end Formula
