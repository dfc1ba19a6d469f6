import Formula.Proofs.Evaluation.Handlers

/-! Words show in no result. Main statement: as long as the table does not overflow and no list
holds a NaN or a negative zero, a formula over words gives in every evaluation what the reference
gives, which knows values only. -/
namespace Formula.Mixed

variable {σ : Type}

namespace Bindings

/-- The word stands for the value in the table, and the value holds no NaN or negative zero in a
list. -/
def Represents (t : Table) (w : Word) (v : Value) : Prop := v.Clean ∧ w.StandsFor t v

theorem Represents.extend {t t' : Table} {w : Word} {v : Value} (h : Represents t w v)
    (he : t.Extends t') : Represents t' w v := ⟨h.1, h.2.extend he⟩

theorem represents_option {t t' : Table} (he : t.Extends t') {word : Option Word}
    {value : Option Value} (h : Option.Rel (Represents t) word value) :
    Option.Rel (Represents t') word value := by
  cases h with
  | none => exact .none
  | some h => exact .some (h.extend he)

theorem unbox_represented {t : Table} {words : List Word} {values : List Value}
    (h : List.Forall₂ (Represents t) words values) : words.map t.unbox = values := by
  induction h with
  | nil => rfl
  | cons hr _ ih => rw [List.map_cons, ih, hr.2.unbox]

theorem clean_of_represented {t : Table} {words : List Word} {values : List Value}
    (h : List.Forall₂ (Represents t) words values) : ∀ v ∈ values, v.Clean := by
  intro v hv
  obtain ⟨w, _, hr⟩ := exists_of_forall₂ h hv
  exact hr.1

/-- The host under words and the host under values; the constants of the given names have words. -/
structure Boxed (b : Bindings σ) (alike : σ → σ → Prop) (words : Words) (names : Symbol → Prop)
    (m : Memory (Noted σ)) (n : Formula.Memory σ) : Prop where
  host : alike m.host.1 n.host
  settled : m.settled = n.settled
  table : m.table.WellFormed
  constants : ∀ symbol, names symbol →
    Option.Rel (Represents m.table) (words.lookup symbol) (b.constant? symbol)

/-- Nothing in the table moves, and notes are only added. -/
def Later (m m' : Memory (Noted σ)) : Prop :=
  m.table.Extends m'.table ∧ m.host.2 <+: m'.host.2

/-- The table has room, and every list that the host returned is clean. -/
def Sound (m : Memory (Noted σ)) : Prop :=
  m.table.values.size < Word.capacity ∧ ∀ v ∈ m.host.2, v.Clean

theorem later_call (b : Bindings σ) (words : Words) (symbol : Symbol) (args : List Word) :
    Action.Grows Later ((b.recording.meaning words).call symbol args) := by
  intro m
  unfold meaning
  dsimp only
  cases words.lookup symbol with
  | some word => exact ⟨.refl m.table, List.prefix_rfl⟩
  | none =>
    have hnotes := b.prefix_firstAnswer symbol args (args.map m.table.unbox) false
      (b.handlers symbol) m.toMemory
    dsimp only
    rw [run_dispatch, handlers_recording]
    dsimp only
    split
    · exact ⟨Table.extends_box m.table _, hnotes⟩
    · exact ⟨.refl m.table, hnotes⟩
    · exact ⟨.refl m.table, hnotes⟩

section
variable {b : Bindings σ} {alike : σ → σ → Prop} {words : Words} {names : Symbol → Prop}
  {m : Memory (Noted σ)} {n : Formula.Memory σ} {symbol : Symbol}

/-- Handlers that are given words and those of the reference lead from one boxed state to another,
and the word of the answer stands for it. -/
theorem dispatch_follows (hb : b.Dependable alike)
    (hconstants : ∀ entry ∈ b.constants, entry.2.Clean)
    (hm : b.Boxed alike words names m n) {args : List Word} {values : List Value}
    (hargs : List.Forall₂ (Represents m.table) args values)
    (hsound : Sound ((b.recording.dispatch symbol args).run m).2) :
    let p := (b.recording.dispatch symbol args).run m
    let q := (b.unboxedCall symbol values).run n
    b.Boxed alike words names p.2 q.2 ∧ Matches (Represents p.2.table) p.1 q.1 := by
  have hanswer := firstAnswer_mirrors hb (b.handlers_mirror symbol) hconstants hm.table
    (hargs.imp fun _ _ h => h.2) (clean_of_represented hargs) false hm.host hm.settled
  dsimp only
  rw [run_dispatch, unbox_represented hargs, handlers_recording, declined_recording] at hsound ⊢
  rw [run_unboxedCall]
  dsimp only at hsound hanswer ⊢
  generalize (b.recording.firstAnswer symbol args values false _).run m.toMemory = p
    at hanswer hsound ⊢
  generalize (b.firstAnswer symbol [] values false _).run n = q at hanswer ⊢
  obtain ⟨hresult, hhost, hsettled, hclean⟩ := hanswer
  rw [← hresult]
  obtain ⟨error | _ | value, base⟩ := p
  · exact ⟨⟨hhost, hsettled, hm.table, hm.constants⟩, rfl⟩
  · exact ⟨⟨hhost, hsettled, hm.table, hm.constants⟩, rfl⟩
  · obtain ⟨hroom, hnotes⟩ := hsound
    have hvalue : value.Clean := hclean hnotes value rfl
    obtain ⟨htable, hstands⟩ := Table.box_standsFor hm.table hvalue hroom
    refine ⟨⟨hhost, hsettled, htable, fun symbol hname => ?_⟩, hvalue, hstands⟩
    exact represents_option (Table.extends_box _ _) (hm.constants symbol hname)

/-- So do all calls, those of constants included. -/
theorem call_follows (hb : b.Dependable alike) (hconstants : ∀ entry ∈ b.constants, entry.2.Clean)
    (hname : names symbol) (hm : b.Boxed alike words names m n) {args : List Word}
    {values : List Value} (hargs : List.Forall₂ (Represents m.table) args values)
    (hsound : Sound (((b.recording.meaning words).call symbol args).run m).2) :
    let p := ((b.recording.meaning words).call symbol args).run m
    let q := (b.reference.call symbol values).run n
    b.Boxed alike words names p.2 q.2 ∧ Matches (Represents p.2.table) p.1 q.1 := by
  have hconstant := hm.constants symbol hname
  unfold meaning at hsound ⊢
  unfold reference
  dsimp only at hsound ⊢
  generalize words.lookup symbol = word at hconstant hsound ⊢
  generalize b.constant? symbol = constant at hconstant ⊢
  cases hconstant with
  | none => exact dispatch_follows hb hconstants hm hargs hsound
  | some h => exact ⟨hm, h⟩

theorem Boxed.freeze (hm : b.Boxed alike words names m n) :
    b.Boxed alike words names { m with table := m.table.freeze } n where
  host := hm.host
  settled := hm.settled
  table := ⟨hm.table.nil_first, hm.table.plain, hm.table.distinct⟩
  constants symbol hname :=
    represents_option (Table.extends_freeze m.table) (hm.constants symbol hname)

theorem Boxed.beside (hm : b.Boxed alike words names m n) (hb : b.Dependable alike)
    {n' : Formula.Memory σ} (h : Beside alike n n') : b.Boxed alike words names m n' :=
  ⟨hb.equivalence.trans hm.host h.1, hm.settled.trans h.2, hm.table, hm.constants⟩

/-- A call that may be folded has one result under the reference. -/
theorem reference_steady (hb : b.Dependable alike) (hname : names symbol)
    (hm : b.Boxed alike words names m n)
    (hpure : (b.recording.meaning words).isPure symbol = true) (values : List Value) :
    Steady (Beside alike) (b.reference.call symbol values) := by
  have hequivalence := beside_equivalence hb.equivalence
  have hconstant := hm.constants symbol hname
  unfold meaning at hpure
  rw [isPure_recording] at hpure
  unfold reference
  dsimp only at hpure ⊢
  obtain ⟨hoptimize, hpure⟩ := Bool.and_eq_true_iff.1 hpure
  generalize words.lookup symbol = word at hconstant hpure
  generalize b.constant? symbol = constant at hconstant ⊢
  cases hconstant with
  | none => exact unboxedCall_steady hb hoptimize hpure values
  | some h => exact .pure hequivalence _

end

/-- A formula over words and the reference, as meanings that simulate each other. -/
def boxing {b : Bindings σ} {alike : σ → σ → Prop} (hb : b.Dependable alike)
    (hconstants : ∀ entry ∈ b.constants, entry.2.Clean) (words : Words) (names : Symbol → Prop) :
    Simulation (b.recording.meaning words) b.reference where
  Names := names
  Related := b.Boxed alike words names
  Represents m := Represents m.table
  Extends := Later
  Sound := Sound
  refl m := ⟨.refl m.table, List.prefix_rfl⟩
  trans _ _ _ h h' := ⟨h.1.trans h'.1, h.2.trans h'.2⟩
  sound_of_extends h hs :=
    ⟨Nat.lt_of_le_of_lt h.1.size_le hs.1, fun v hv => hs.2 v (h.2.subset hv)⟩
  represents_of_extends h hr := hr.extend h.1
  grows_call symbol args := b.later_call words symbol args
  call_follows hname hm hargs hsound := call_follows hb hconstants hname hm hargs hsound
  pure_call := by
    intro m n symbol args values hname hpure hm hargs hsound
    obtain ⟨result, hrun⟩ := reference_steady hb hname hm hpure values
    obtain ⟨hnext, hresult⟩ := call_follows hb hconstants hname hm hargs hsound
    obtain ⟨n', hn, hbeside⟩ := hrun n
    rw [hn] at hnext hresult
    refine ⟨hnext.beside hb ((beside_equivalence hb.equivalence).symm hbeside), fun w hw => ?_⟩
    rw [hw] at hresult
    cases result with
    | error error => exact hresult.elim
    | ok value =>
      refine ⟨value, hresult, fun m' t _ ht => ?_⟩
      obtain ⟨t', ht', hbeside'⟩ := hrun t
      exact ⟨t', ht', ht.beside hb hbeside'⟩

/-! ### Constants -/

theorem later_boxConstants (b : Bindings σ) (symbols : List Symbol) (m : Memory σ) :
    m.table.Extends (b.boxConstants symbols m).2.table := by
  induction symbols generalizing m with
  | nil => exact .refl m.table
  | cons symbol symbols ih =>
    rw [boxConstants]
    cases b.constant? symbol with
    | none => exact ih m
    | some value => exact (Table.extends_box m.table value).trans (ih (Memory.box value m).2)

theorem toMemory_boxConstants (b : Bindings σ) (symbols : List Symbol) (m : Memory σ) :
    (b.boxConstants symbols m).2.toMemory = m.toMemory := by
  induction symbols generalizing m with
  | nil => rfl
  | cons symbol symbols ih =>
    rw [boxConstants]
    cases b.constant? symbol with
    | none => exact ih m
    | some value => exact ih (Memory.box value m).2

theorem clean_constant {b : Bindings σ} (hconstants : ∀ entry ∈ b.constants, entry.2.Clean)
    {symbol : Symbol} {value : Value} (h : b.constant? symbol = some value) : value.Clean := by
  unfold constant? at h
  split at h
  · obtain rfl := Option.some.inj h
    trivial
  · split at h
    · exact hconstants _ (mem_of_lookup h)
    · cases h

theorem boxConstants_cons (b : Bindings σ) (symbol : Symbol) (symbols : List Symbol)
    (m : Memory σ) :
    b.boxConstants (symbol :: symbols) m = match b.constant? symbol with
      | none => b.boxConstants symbols m
      | some value =>
        ((symbol, (Memory.box value m).1) :: (b.boxConstants symbols (Memory.box value m).2).1,
          (b.boxConstants symbols (Memory.box value m).2).2) := by
  rw [boxConstants]
  cases b.constant? symbol <;> rfl

theorem lookup_boxConstants {b : Bindings σ} {symbol : Symbol} (h : b.constant? symbol = none)
    (symbols : List Symbol) (m : Memory σ) :
    (b.boxConstants symbols m).1.lookup symbol = none := by
  induction symbols generalizing m with
  | nil => rfl
  | cons other symbols ih =>
    rw [boxConstants_cons]
    cases hother : b.constant? other with
    | none => exact ih m
    | some value =>
      have hne : (symbol == other) = false := by
        rw [beq_eq_false_iff_ne]
        rintro rfl
        rw [h] at hother
        cases hother
      dsimp only
      rw [List.lookup_cons, hne]
      exact ih _

/-- Each symbol that stands for a value gets a word that does. -/
theorem boxConstants_represents {b : Bindings σ} (hconstants : ∀ entry ∈ b.constants, entry.2.Clean)
    (symbols : List Symbol) {m : Memory σ} (hm : m.table.WellFormed)
    (hroom : (b.boxConstants symbols m).2.table.values.size < Word.capacity) :
    (b.boxConstants symbols m).2.table.WellFormed ∧ ∀ symbol ∈ symbols,
      Option.Rel (Represents (b.boxConstants symbols m).2.table)
        ((b.boxConstants symbols m).1.lookup symbol) (b.constant? symbol) := by
  induction symbols generalizing m with
  | nil => exact ⟨hm, fun symbol hmem => by cases hmem⟩
  | cons symbol symbols ih =>
    rw [boxConstants_cons] at hroom ⊢
    cases hconstant : b.constant? symbol with
    | none =>
      rw [hconstant] at hroom
      obtain ⟨htable, hwords⟩ := ih hm hroom
      refine ⟨htable, fun other hmem => ?_⟩
      rcases List.mem_cons.1 hmem with rfl | hmem
      · rw [lookup_boxConstants hconstant, hconstant]
        exact .none
      · exact hwords other hmem
    | some value =>
      rw [hconstant] at hroom
      dsimp only at hroom ⊢
      have hlater := b.later_boxConstants symbols (Memory.box value m).2
      have hvalue := clean_constant hconstants hconstant
      obtain ⟨htable, hstands⟩ := Table.box_standsFor hm hvalue
        (Nat.lt_of_le_of_lt hlater.size_le hroom)
      obtain ⟨htable, hwords⟩ := ih htable hroom
      refine ⟨htable, fun other hmem => ?_⟩
      rw [List.lookup_cons]
      by_cases hother : other = symbol
      · subst hother
        rw [beq_self_eq_true, hconstant]
        exact .some ⟨hvalue, hstands.extend hlater⟩
      · rw [beq_eq_false_iff_ne.2 hother]
        exact hwords other ((List.mem_cons.1 hmem).resolve_left hother)

/-! ### One evaluation after another -/

theorem later_evaluate (b : Bindings σ) (words : Words) (tree : Tree Word) :
    Action.Grows Later (tree.evaluate (b.recording.meaning words)) :=
  Tree.grows_evaluate (fun m => ⟨.refl m.table, List.prefix_rfl⟩)
    (fun _ _ _ h h' => ⟨h.1.trans h'.1, h.2.trans h'.2⟩) (b.later_call words) tree

theorem later_folded (b : Bindings σ) (words : Words) (tree : Tree Word) (m : Memory (Noted σ)) :
    Later m (Expression.folded b.recording words tree m).2 := by
  unfold Expression.folded
  split
  · exact Tree.grows_fold (fun m => ⟨.refl m.table, List.prefix_rfl⟩)
      (fun _ _ _ h h' => ⟨h.1.trans h'.1, h.2.trans h'.2⟩) (b.later_call words) tree m
  · exact ⟨.refl m.table, List.prefix_rfl⟩

theorem frozen_evaluate (b : Bindings σ) (words : Words) (tree : Tree Word) :
    Action.Grows (fun m m' => m'.table.frozen = m.table.frozen)
      (tree.evaluate (b.meaning words)) := by
  refine Tree.grows_evaluate (R := fun m m' : Memory σ => m'.table.frozen = m.table.frozen)
    (fun _ => rfl) (fun _ _ _ h h' => h'.trans h) (fun symbol args m => ?_) tree
  unfold meaning
  dsimp only
  cases words.lookup symbol with
  | some word => rfl
  | none =>
    dsimp only
    rw [run_dispatch]
    dsimp only
    split
    · exact Table.frozen_box m.table _
    · rfl
    · rfl

theorem prefix_trace (b : Bindings σ) (words : Words) (tree : Tree Word) (steps : List (σ → σ))
    (m : Memory (Noted σ)) :
    m.host.2 <+:
      (Expression.trace ⟨b.recording, words, tree⟩ (steps.map Expression.noted) m).2.host.2 := by
  induction steps generalizing m with
  | nil => exact List.prefix_rfl
  | cons step steps ih =>
    let start : Memory (Noted σ) := { m with host := Expression.noted step m.host }
    let next := ((tree.evaluate (b.recording.meaning words)).run start).2
    exact (b.later_evaluate words tree start).2.trans (ih { next with table := next.table.reset })

section
variable {b : Bindings σ} {alike : σ → σ → Prop} {words : Words} {names : Symbol → Prop}

/-- One evaluation gives what the reference gives, and leaves the table as it was. -/
theorem evaluate_reference (hb : b.Dependable alike)
    (hconstants : ∀ entry ∈ b.constants, entry.2.Clean) {tree : Tree Word} {other : Tree Value}
    {m : Memory (Noted σ)} {n : Formula.Memory σ}
    (h : (boxing hb hconstants words names).Implements m tree other)
    (hm : b.Boxed alike words names m n) (hfrozen : m.table.frozen = m.table.values.size)
    (hsound : Sound ((tree.evaluate (b.recording.meaning words)).run m).2) :
    let p := (tree.evaluate (b.recording.meaning words)).run m
    let q := (other.evaluate b.reference).run n
    p.1.map p.2.table.unbox = q.1 ∧ p.2.table.reset = m.table ∧
      b.Boxed alike words names { p.2 with table := p.2.table.reset } q.2 := by
  obtain ⟨hnext, hresult⟩ := h.evaluate (boxing hb hconstants words names) hm hsound
  have hlater := b.later_evaluate words tree m
  have hreset := Table.reset_of_extends hlater.1 (b.recording.frozen_evaluate words tree m) hfrozen
  dsimp only
  refine ⟨?_, hreset, hnext.host, hnext.settled, ?_, ?_⟩
  · generalize (tree.evaluate (b.recording.meaning words)).run m = p at hresult
    generalize (other.evaluate b.reference).run n = q at hresult
    obtain ⟨error | word, m'⟩ := p <;> obtain ⟨error' | value, n'⟩ := q
    · exact congrArg Except.error hresult
    · exact hresult.elim
    · exact hresult.elim
    · exact congrArg Except.ok hresult.2.unbox
  · rw [hreset]
    exact hm.table
  · rw [hreset]
    exact hm.constants

theorem trace_reference (hb : b.Dependable alike)
    (hconstants : ∀ entry ∈ b.constants, entry.2.Clean) {tree : Tree Word} {source : Tree Float}
    {s m : Memory (Noted σ)} {n : Formula.Memory σ}
    (h : (boxing hb hconstants words names).Implements s tree (source.map Value.number))
    {steps : List (σ → σ)}
    (hsteps : ∀ step ∈ steps, ∀ h h', alike h h' → alike (step h) (step h'))
    (hlater : Later s m) (hfrozen : m.table.frozen = m.table.values.size)
    (hm : b.Boxed alike words names m n)
    (hsizes : ∀ entry ∈ (Expression.trace ⟨b.recording, words, tree⟩
      (steps.map Expression.noted) m).1, entry.2 < Word.capacity)
    (hnotes : ∀ v ∈ (Expression.trace ⟨b.recording, words, tree⟩
      (steps.map Expression.noted) m).2.host.2, v.Clean) :
    (Expression.trace ⟨b.recording, words, tree⟩ (steps.map Expression.noted) m).1.map Prod.fst =
      b.referenceResults source steps n := by
  induction steps generalizing m n with
  | nil => rfl
  | cons step steps ih =>
    rw [List.map_cons, Expression.trace_cons] at hsizes hnotes ⊢
    dsimp only at hsizes hnotes ⊢
    rw [referenceResults]
    let start : Memory (Noted σ) := { m with host := Expression.noted step m.host }
    have hstep := hsteps step List.mem_cons_self m.host.1 n.host hm.host
    let p := (tree.evaluate (b.recording.meaning words)).run start
    let after : Memory (Noted σ) := { p.2 with table := p.2.table.reset }
    have hstart : b.Boxed alike words names start { n with host := step n.host } :=
      ⟨hstep, hm.settled, hm.table, hm.constants⟩
    have hstand := h.extend _ (show Later s start from hlater)
    have hsound : Sound p.2 := by
      refine ⟨hsizes _ List.mem_cons_self, fun v hv => hnotes v ?_⟩
      exact (b.prefix_trace words tree steps after).subset hv
    obtain ⟨hresult, hreset, hnext⟩ := evaluate_reference hb hconstants hstand hstart hfrozen hsound
    have htable : after.table = m.table := hreset
    have hafter : Later s after := by
      refine ⟨?_, hlater.2.trans (b.later_evaluate words tree start).2⟩
      rw [htable]
      exact hlater.1
    rw [List.map_cons, hresult]
    refine congrArg (_ :: ·) (ih (fun step hmem => hsteps step (List.mem_cons_of_mem _ hmem)) hafter
      ?_ hnext (fun entry hmem => hsizes entry (List.mem_cons_of_mem _ hmem)) hnotes)
    rw [htable]
    exact hfrozen

/-- Building a formula leads from the empty table to a tree that implements the source. -/
theorem folded_implements (hb : b.Dependable alike)
    (hconstants : ∀ entry ∈ b.constants, entry.2.Clean) {source : Tree Float}
    (hnames : ∀ symbol ∈ source.occurrences, names symbol) {m : Memory (Noted σ)}
    {n : Formula.Memory σ} (hm : b.Boxed alike words names m n)
    (hsound : Sound (Expression.folded b.recording words (source.map Word.ofNumber) m).2) :
    let f := Expression.folded b.recording words (source.map Word.ofNumber) m
    b.Boxed alike words names f.2 n ∧
      (boxing hb hconstants words names).Implements f.2 f.1 (source.map Value.number) := by
  have hsource := (boxing hb hconstants words names).implements_map
    (f := Word.ofNumber) (g := Value.number) (fun m x => ⟨trivial, .number x⟩) m source hnames
  dsimp only
  unfold Expression.folded at hsound ⊢
  by_cases hoptimize : b.recording.options.optimize = true
  · rw [if_pos hoptimize] at hsound ⊢
    exact hsource.fold (boxing hb hconstants words names) hm hsound
  · rw [if_neg hoptimize]
    exact ⟨hm, hsource⟩

end

/-- Any number of evaluations of a formula over words give what the reference gives, one for one:
the same values, and the same errors. Between evaluations the host may take any steps. -/
theorem trace_referenceResults {b : Bindings σ} {alike : σ → σ → Prop} (hb : b.Dependable alike)
    (hconstants : ∀ entry ∈ b.constants, entry.2.Clean) (tree : Tree Float) {steps : List (σ → σ)}
    (hsteps : ∀ step ∈ steps, ∀ h h', alike h h' → alike (step h) (step h')) (host : σ)
    (hreturned : ∀ v ∈ b.returned tree steps host, v.Clean)
    (hroom : ∀ entry ∈ (b.trace tree steps host).1, entry.2 < Word.capacity) :
    (b.trace tree steps host).1.map Prod.fst = b.referenceResults tree steps ⟨host, []⟩ := by
  cases steps with
  | nil => rfl
  | cons step steps =>
    rw [← trace_recording] at hroom ⊢
    unfold returned at hreturned
    unfold trace at hroom hreturned ⊢
    rw [Expression.build_eq] at hroom hreturned ⊢
    dsimp only at hroom hreturned ⊢
    generalize hc : b.recording.boxConstants tree.symbols { host := (host, []) } = c
      at hroom hreturned ⊢
    let f := Expression.folded b.recording c.1 (tree.map Word.ofNumber) c.2
    let start : Memory (Noted σ) := { f.2 with table := f.2.table.freeze }
    let first : Memory (Noted σ) := { start with host := Expression.noted step start.host }
    have hnotes := b.prefix_trace c.1 f.1 (step :: steps) start
    have hsound : Sound f.2 := by
      refine ⟨?_, fun v hv => hreturned v (hnotes.subset hv)⟩
      rw [List.map_cons, Expression.trace_cons] at hroom
      exact Nat.lt_of_le_of_lt (b.later_evaluate c.1 f.1 first).1.size_le
        (hroom _ List.mem_cons_self)
    have hfolded := b.later_folded c.1 (tree.map Word.ofNumber) c.2
    have hbase : c.2.toMemory = ⟨(host, []), []⟩ := by
      rw [← hc]
      exact b.recording.toMemory_boxConstants tree.symbols { host := (host, []) }
    have hwords := boxConstants_represents (b := b.recording) hconstants tree.symbols
      (m := { host := (host, []) }) Table.wellFormed_empty
    rw [hc] at hwords
    obtain ⟨htable, hwords⟩ := hwords (Nat.lt_of_le_of_lt hfolded.1.size_le hsound.1)
    have hboxed : b.Boxed alike c.1 (· ∈ tree.symbols) c.2 ⟨host, []⟩ := by
      refine ⟨?_, ?_, htable, hwords⟩ <;> rw [hbase]
      exact hb.equivalence.refl host
    obtain ⟨hnext, htree⟩ := folded_implements hb hconstants (fun _ => Tree.mem_symbols.2) hboxed
      hsound
    exact trace_reference hb hconstants htree hsteps
      ⟨Table.extends_freeze f.2.table, List.prefix_rfl⟩ rfl hnext.freeze hroom hreturned

/-- A host with a text, a trusted function, and a variable that tells in a list whether it was read
before. -/
def visiting : Bindings Nat where
  options := { pureSymbols := true }
  constants := [("guest", .string "you")]
  symbols :=
    [(.var "visits", fun _ => fun visits => (.ok (.list [.bool (visits == 0)]), visits + 1)),
     (.function "same" 1, fun args => pure (args.headD .nil))]

theorem visiting_dependable : visiting.Dependable Eq where
  equivalence := ⟨fun _ => rfl, Eq.symm, Eq.trans⟩
  numericSymbols := by
    intro symbol f hf
    cases hf
  symbols := by
    rintro symbol f _ args h _ rfl
    exact ⟨rfl, rfl⟩
  evaluator := by
    intro ask hask
    cases hask
  foldedNumeric := by
    intro _ symbol f hf
    cases hf
  foldedSymbols := by
    intro _ symbol f hf hpure args
    simp only [visiting, List.mem_cons, Prod.mk.injEq, List.not_mem_nil, or_false] at hf
    rcases hf with ⟨rfl, rfl⟩ | ⟨rfl, rfl⟩
    · exact absurd hpure (by decide +kernel)
    · exact ⟨_, fun h => ⟨h, rfl, rfl⟩⟩

theorem trace_referenceResults_visiting :
    let tree : Tree Float := .apply (.infixOp "==")
      [.apply (.function "same" 1) [.named "guest"], .named "visits"]
    visiting.Dependable Eq ∧ (∀ entry ∈ visiting.constants, entry.2.Clean) ∧
      (∀ step ∈ [Nat.succ, id], ∀ h h', h = h' → step h = step h') ∧
      (∀ v ∈ visiting.returned tree [Nat.succ, id] 0, v.Clean) ∧
      (∀ entry ∈ (visiting.trace tree [Nat.succ, id] 0).1, entry.2 < Word.capacity) ∧
      (visiting.trace tree [Nat.succ, id] 0).1.map Prod.fst =
        visiting.referenceResults tree [Nat.succ, id] ⟨0, []⟩ := by
  intro tree
  have hconstants : ∀ entry ∈ visiting.constants, entry.2.Clean := by decide
  have hsteps : ∀ step ∈ [Nat.succ, id], ∀ h h', h = h' → step h = step h' := by
    rintro step _ h _ rfl
    rfl
  have hreturned : ∀ v ∈ visiting.returned tree [Nat.succ, id] 0, v.Clean := by decide +kernel
  have hroom : ∀ entry ∈ (visiting.trace tree [Nat.succ, id] 0).1, entry.2 < Word.capacity := by
    decide +kernel
  exact ⟨visiting_dependable, hconstants, hsteps, hreturned, hroom,
    trace_referenceResults visiting_dependable hconstants tree hsteps 0 hreturned hroom⟩

end Bindings
end Formula.Mixed
