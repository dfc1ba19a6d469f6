import Formula.Proofs.Evaluation.Calls

/-! Two meanings in lock step. Main statement: if every call of one meaning comes to what the call
of the other does, seen through a view of its states and values, then so does every evaluation, and
folding leads to the same tree. -/
namespace Formula

variable {σ τ ν μ α β γ δ : Type}

/-- From a state, the second action does in the view what the first does. -/
def Seen (view : σ → τ) (g : α → β) (s : σ) (x : Action σ α) (y : Action τ β) : Prop :=
  y.run (view s) = ((x.run s).1.map g, view (x.run s).2)

namespace Seen

variable {view : σ → τ} {g : α → β} {g' : γ → δ} {s : σ}

theorem pure (value : α) : Seen view g s (pure value) (pure (g value)) := rfl

theorem throw (error : Error) : Seen view g s (throw error) (throw error) := rfl

theorem bind {x : Action σ α} {y : Action τ β} {f : α → Action σ γ} {f' : β → Action τ δ}
    (h : Seen view g s x y)
    (hf : ∀ v s', x.run s = (.ok v, s') → Seen view g' s' (f v) (f' (g v))) :
    Seen view g' s (x >>= f) (y >>= f') := by
  unfold Seen at h ⊢
  rcases hrun : x.run s with ⟨error | v, s'⟩ <;> rw [hrun] at h
  · rw [Action.run_bind_error hrun, Action.run_bind_error h]
    rfl
  · rw [Action.run_bind_ok hrun, Action.run_bind_ok h]
    exact hf v s' hrun

end Seen

open Formula.Tree

/-- The calls of a meaning that its invariant allows are those of another one in the view. -/
structure Mirror {m : Meaning σ ν} (inv : m.Invariant) (m' : Meaning τ μ) (view : σ → τ)
    (g : ν → μ) : Prop where
  call : ∀ {symbol args s}, inv.Fits symbol args.length → inv.Valid s → (∀ x ∈ args, inv.Good s x) →
    Seen view g s (m.call symbol args) (m'.call symbol (args.map g))
  isPure : ∀ {symbol count}, inv.Fits symbol count → m'.isPure symbol = m.isPure symbol

theorem Tree.literals?_mapAll (g : ν → μ) (args : List (Tree ν)) :
    literals? (mapAll g args) = (literals? args).map (List.map g) := by
  induction args with
  | nil => rfl
  | cons arg args ih =>
    cases arg with
    | literal value =>
      rw [mapAll, Tree.map, literals?, literals?, ih, Option.map_map, Option.map_map]
      rfl
    | apply symbol args => rfl
    | malformed error source => rfl

namespace Mirror

variable {m : Meaning σ ν} {inv : m.Invariant} {m' : Meaning τ μ} {view : σ → τ} {g : ν → μ}

mutual

theorem evaluate (h : Mirror inv m' view g) {s : σ} (hs : inv.Valid s) {t : Tree ν}
    (ht : t.Every (inv.Good s) inv.Fits) :
    Seen view g s (t.evaluate m) ((t.map g).evaluate m') := by
  cases t with
  | literal value => exact .pure value
  | malformed error source => exact .throw error
  | apply symbol args =>
    cases ht with
    | apply hfits hall =>
      rw [Tree.map, Tree.evaluate, Tree.evaluate]
      refine (evaluateAll h hs hall).bind fun values s' hrun => ?_
      have hleads := inv.evaluateAll hs hall
      unfold Meaning.Invariant.Leads at hleads
      rw [hrun] at hleads
      obtain ⟨hlength, hgood⟩ := hleads.2 values rfl
      exact h.call (hlength ▸ hfits) (inv.valid_of_extends hleads.1 hs) hgood

theorem evaluateAll (h : Mirror inv m' view g) {s : σ} (hs : inv.Valid s) {ts : List (Tree ν)}
    (hts : ∀ t ∈ ts, t.Every (inv.Good s) inv.Fits) :
    Seen view (List.map g) s (evaluateAll m ts) (evaluateAll m' (mapAll g ts)) := by
  cases ts with
  | nil => exact .pure []
  | cons t ts =>
    rw [List.forall_mem_cons] at hts
    rw [mapAll, Tree.evaluateAll, Tree.evaluateAll]
    refine (evaluate h hs hts.1).bind fun value s' hrun => ?_
    have hext := (inv.evaluate hs hts.1).1
    rw [hrun] at hext
    have hothers : ∀ t ∈ ts, t.Every (inv.Good s') inv.Fits :=
      fun t ht => inv.every_of_extends hext (hts.2 t ht)
    exact (evaluateAll h (inv.valid_of_extends hext hs) hothers).bind
      fun values s'' _ => .pure (value :: values)

end

theorem foldCall (h : Mirror inv m' view g) {s : σ} (hs : inv.Valid s) {symbol : Symbol}
    {args : List (Tree ν)} (hfits : inv.Fits symbol args.length)
    (hargs : ∀ arg ∈ args, arg.Every (inv.Good s) inv.Fits) :
    foldCall m' symbol (mapAll g args) (view s) =
      ((foldCall m symbol args s).1.map g, view (foldCall m symbol args s).2) := by
  unfold Tree.foldCall
  rw [h.isPure hfits, literals?_mapAll]
  cases m.isPure symbol with
  | false => rfl
  | true =>
    cases hvalues : literals? args with
    | none => rfl
    | some values =>
      obtain ⟨hlength, hgood⟩ := every_literals hvalues hargs
      have hcall : (m'.call symbol (values.map g)).run (view s) =
          (((m.call symbol values).run s).1.map g, view ((m.call symbol values).run s).2) :=
        h.call (hlength ▸ hfits) hs hgood
      simp only [if_true, Option.map_some, Action.bind_apply]
      rw [hcall]
      cases ((m.call symbol values).run s).1 <;> rfl

mutual

theorem fold (h : Mirror inv m' view g) {s : σ} (hs : inv.Valid s) {t : Tree ν}
    (ht : t.Every (inv.Good s) inv.Fits) :
    (t.map g).fold m' (view s) = ((t.fold m s).1.map g, view (t.fold m s).2) := by
  cases t with
  | literal value => rfl
  | malformed error source => rfl
  | apply symbol args =>
    cases ht with
    | apply hfits hall =>
      obtain ⟨hext, hlength, hargs⟩ := inv.foldAll hs hall
      rw [Tree.map, fold_apply, fold_apply, foldAll h hs hall]
      exact h.foldCall (inv.valid_of_extends hext hs) (hlength ▸ hfits) hargs

theorem foldAll (h : Mirror inv m' view g) {s : σ} (hs : inv.Valid s) {ts : List (Tree ν)}
    (hts : ∀ t ∈ ts, t.Every (inv.Good s) inv.Fits) :
    foldAll m' (mapAll g ts) (view s) =
      (mapAll g (foldAll m ts s).1, view (foldAll m ts s).2) := by
  cases ts with
  | nil => rfl
  | cons t ts =>
    rw [List.forall_mem_cons] at hts
    have hext := (inv.fold hs hts.1).1
    have hothers : ∀ arg ∈ ts, arg.Every (inv.Good (t.fold m s).2) inv.Fits :=
      fun arg harg => inv.every_of_extends hext (hts.2 arg harg)
    rw [mapAll, foldAll_cons, foldAll_cons, fold h hs hts.1]
    dsimp only
    rw [foldAll h (inv.valid_of_extends hext hs) hothers]
    rfl

end

end Mirror
end Formula
