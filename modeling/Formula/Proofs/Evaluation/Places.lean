import Formula.Proofs.Evaluation.Boxing
import Formula.Proofs.Evaluation.Calls

/-! Places of the table while a formula is evaluated. Main statement: every evaluation starts from
the table that was frozen when the formula was built and leaves it as it was, and every word of a
place in the formula, or passed to a call or returned by it, has its value in the table. -/
namespace Formula

namespace Word

/-- A word that was made for the table: of a number, or of a place with a value. -/
inductive Placed (t : Table) : Word → Prop where
  | number (x : Float) : Placed t (.ofNumber x)
  | place {p : Nat} {v : Value} (found : t.values[p]? = some v) : Placed t (.ofPlace p)

/-- A word of a number, or of a place below the bound that has a value. It is unboxed to that value,
as long as no place is so far up that its word would be the bare tag. -/
structure Stored (t : Table) (bound : Nat) (w : Word) : Prop where
  made : (∃ x, w = ofNumber x) ∨ ∃ p v, w = ofPlace p ∧ p < bound ∧ t.values[p]? = some v
  decodes : t.values.size < 2 ^ 50 → w.isPlace = true →
    ∃ p v, w.place? = some p ∧ p < bound ∧ t.values[p]? = some v ∧ t.unbox w = v

theorem toNat_ofPlace_wide {p : Nat} (h : p + 1 < 2 ^ 50) :
    (ofPlace p).bits.toNat = 0x7FF4 * 2 ^ 48 + (p + 1) := by
  have htag : tag.toNat = 0x1FFD <<< 50 := by decide
  have hplace : (UInt64.ofNat (p + 1)).toNat = p + 1 := by
    rw [UInt64.toNat_ofNat', Nat.mod_eq_of_lt (Nat.lt_trans h (by decide))]
  rw [ofPlace, UInt64.toNat_or, htag, hplace, ← Nat.shiftLeft_add_eq_or_of_lt h]
  rfl

/-- A place that is too large for its bits spoils the tag, and its word is not marked as a place. -/
theorem lt_capacity_of_isPlace {p : Nat} (h : p + 1 < 2 ^ 50)
    (hplace : (ofPlace p).isPlace = true) : p + 1 < capacity := by
  rw [isPlace_iff, toNat_ofPlace_wide h] at hplace
  unfold capacity
  omega

/-- The place of the last word before that is the bare tag, which has no place. -/
example : (ofPlace (2 ^ 50 - 1)).isPlace = true ∧ (ofPlace (2 ^ 50 - 1)).place? = none := by
  decide +kernel

namespace Placed

variable {t t' : Table} {w : Word}

theorem extend (h : w.Placed t) (he : t.Extends t') : w.Placed t' := by
  cases h with
  | number x => exact .number x
  | place found => exact .place (he _ _ found)

theorem stored (h : w.Placed t) : w.Stored t t.values.size := by
  cases h with
  | number x =>
    exact ⟨.inl ⟨x, rfl⟩, fun _ hplace => absurd hplace (by rw [isPlace_ofNumber]; decide)⟩
  | place found =>
    rename_i p v
    have hlt := (Array.getElem?_eq_some_iff.1 found).1
    refine ⟨.inr ⟨p, v, rfl, hlt, found⟩, fun hroom hplace => ?_⟩
    have hp := place?_ofPlace (lt_capacity_of_isPlace (by omega) hplace)
    refine ⟨p, v, hp, hlt, found, ?_⟩
    simp only [Table.unbox, hp, Option.bind_some, found]

theorem box (ht : 0 < t.values.size) (v : Value) : (t.box v).1.Placed (t.box v).2 := by
  have hbox := t.boxing_box v
  generalize t.box v = boxed at hbox ⊢
  cases hbox with
  | number x => exact .number x
  | nil => exact .place (Array.getElem?_eq_getElem ht)
  | shared _ found _ => exact .place found
  | added => exact .place Array.getElem?_push_size

end Placed
end Word

namespace Mixed.Bindings

variable {σ : Type}

/-- A call answers with a word of the formula, or boxes what the host or the library answers, or
fails and leaves the table alone. -/
theorem run_call_cases (b : Bindings σ) (words : Words) (symbol : Symbol) (args : List Word)
    (m : Memory σ) :
    (∃ word, (symbol, word) ∈ words ∧
      ((b.meaning words).call symbol args).run m = (.ok word, m)) ∨
    (∃ value base, ((b.meaning words).call symbol args).run m =
      (.ok (m.table.box value).1, ⟨base, (m.table.box value).2⟩)) ∨
    ∃ error base, ((b.meaning words).call symbol args).run m = (.error error, ⟨base, m.table⟩) := by
  unfold meaning
  dsimp only
  cases hword : words.lookup symbol with
  | some word => exact .inl ⟨word, mem_of_lookup hword, rfl⟩
  | none =>
    dsimp only
    rw [run_dispatch]
    dsimp only
    split
    · exact .inr (.inl ⟨_, _, rfl⟩)
    · exact .inr (.inr ⟨_, _, rfl⟩)
    · exact .inr (.inr ⟨_, _, rfl⟩)

theorem extends_call (b : Bindings σ) (words : Words) (symbol : Symbol) (args : List Word) :
    Action.Grows (fun m m' : Memory σ => m.table.Extends m'.table)
      ((b.meaning words).call symbol args) := by
  intro m
  rcases b.run_call_cases words symbol args m with
    ⟨word, -, hrun⟩ | ⟨value, base, hrun⟩ | ⟨error, base, hrun⟩ <;> rw [hrun]
  · exact .refl m.table
  · exact Table.extends_box m.table value
  · exact .refl m.table

theorem extends_evaluate (b : Bindings σ) (words : Words) (tree : Tree Word) :
    Action.Grows (fun m m' : Memory σ => m.table.Extends m'.table)
      (tree.evaluate (b.meaning words)) :=
  Tree.grows_evaluate (fun m => .refl m.table) (fun _ _ _ => .trans) (b.extends_call words) tree

/-- Words that were made for the table lead to others that were. -/
def places (b : Bindings σ) (words : Words) : (b.meaning words).Invariant where
  Fits _ _ := True
  Valid m := 0 < m.table.values.size ∧ ∀ entry ∈ words, entry.2.Placed m.table
  Good m w := w.Placed m.table
  Extends m m' := m.table.Extends m'.table
  refl m := .refl m.table
  trans := .trans
  valid_of_extends h hs :=
    ⟨Nat.lt_of_lt_of_le hs.1 h.size_le, fun entry hentry => (hs.2 entry hentry).extend h⟩
  good_of_extends h hw := hw.extend h
  call := by
    intro symbol args m _ hm _
    refine ⟨b.extends_call words symbol args m, fun w hw => ?_⟩
    rcases b.run_call_cases words symbol args m with
      ⟨word, hword, hrun⟩ | ⟨value, base, hrun⟩ | ⟨error, base, hrun⟩ <;> rw [hrun] at hw ⊢
    · obtain rfl := Except.ok.inj hw
      exact hm.2 _ hword
    · obtain rfl := Except.ok.inj hw
      exact .box hm.1 value
    · cases hw

theorem placed_boxConstants (b : Bindings σ) (symbols : List Symbol) {m : Memory σ}
    (hm : 0 < m.table.values.size) :
    ∀ entry ∈ (b.boxConstants symbols m).1, entry.2.Placed (b.boxConstants symbols m).2.table := by
  induction symbols generalizing m with
  | nil => exact nofun
  | cons symbol symbols ih =>
    rw [boxConstants_cons]
    cases b.constant? symbol with
    | none => exact ih hm
    | some value =>
      have hbox := Table.extends_box m.table value
      have hlater := b.later_boxConstants symbols (Memory.box value m).2
      refine List.forall_mem_cons.2 ⟨(Word.Placed.box hm value).extend hlater, ?_⟩
      exact ih (m := (Memory.box value m).2) (Nat.lt_of_lt_of_le hm hbox.size_le)

end Mixed.Bindings

namespace Mixed.Expression

variable {σ : Type}

/-- What is said of a built formula: its words were made for the table, all of which is frozen. -/
structure Grounded (e : Expression σ) (t : Table) : Prop where
  nonempty : 0 < t.values.size
  frozen : t.frozen = t.values.size
  words : ∀ entry ∈ e.words, entry.2.Placed t
  literals : e.tree.Every (Word.Placed t) fun _ _ => True

theorem Grounded.valid {e : Expression σ} {m : Memory σ} (h : e.Grounded m.table) :
    (e.bindings.places e.words).Valid m := ⟨h.nonempty, h.words⟩

theorem grounded_build (b : Bindings σ) (tree : Tree Float) (host : σ) :
    (build b tree { host }).1.Grounded (build b tree { host }).2.table := by
  let c := b.boxConstants tree.symbols { host }
  let f := folded b c.1 (tree.map Word.ofNumber) c.2
  have hempty : 0 < Table.empty.values.size := Nat.zero_lt_one
  have hconstants : (b.places c.1).Valid c.2 :=
    ⟨Nat.lt_of_lt_of_le hempty (b.later_boxConstants tree.symbols { host }).size_le,
      b.placed_boxConstants tree.symbols hempty⟩
  have hnumbers : (tree.map Word.ofNumber).Every (Word.Placed c.2.table) fun _ _ => True :=
    (Tree.every_true tree).map fun x _ => .number x
  have hfolded : c.2.table.Extends f.2.table ∧
      f.1.Every (Word.Placed f.2.table) fun _ _ => True := by
    change c.2.table.Extends (folded b c.1 (tree.map Word.ofNumber) c.2).2.table ∧ _
    unfold f folded
    split
    · exact (b.places c.1).fold hconstants hnumbers
    · exact ⟨.refl _, hnumbers⟩
  obtain ⟨hnonempty, hwords⟩ := (b.places c.1).valid_of_extends hfolded.1 hconstants
  have hfreeze := Table.extends_freeze f.2.table
  rw [build_eq]
  exact ⟨hnonempty, rfl, fun entry hentry => (hwords entry hentry).extend hfreeze,
    hfolded.2.mono fun _ hw => hw.extend hfreeze⟩

/-- An evaluation leaves the table as it was, however it ends. -/
theorem table_evaluate {e : Expression σ} {m : Memory σ}
    (hm : m.table.frozen = m.table.values.size) : (e.evaluate.run m).2.table = m.table :=
  Table.reset_of_extends (e.bindings.extends_evaluate e.words e.tree m)
    (e.bindings.frozen_evaluate e.words e.tree m) hm

theorem table_trace {e : Expression σ} (steps : List (σ → σ)) {m : Memory σ}
    (hm : m.table.frozen = m.table.values.size) : (e.trace steps m).2.table = m.table := by
  induction steps generalizing m with
  | nil => rfl
  | cons step steps ih =>
    have hfirst := table_evaluate (e := e) (m := { m with host := step m.host }) hm
    rw [← hfirst] at hm
    exact (ih hm).trans hfirst

/-- After any number of evaluations, and after one more, the table is the one that was frozen when
the formula was built; the words of the formula are stored below what is frozen; and in that
evaluation, every word is stored that is passed to a call, returned by it, or the result. -/
theorem build_stored (b : Bindings σ) (tree : Tree Float) (host : σ) (earlier : List (σ → σ))
    (step : σ → σ) :
    let e := (build b tree { host }).1
    let built := (build b tree { host }).2
    let before := (e.trace earlier built).2
    let start := { before with host := step before.host }
    let ended := (e.tree.evaluate (e.bindings.meaning e.words)).run start
    (built.table.frozen = built.table.values.size ∧ before.table = built.table ∧
      (e.evaluate.run start).2.table = built.table) ∧
    ((∀ entry ∈ e.words, entry.2.Stored built.table built.table.frozen) ∧
      e.tree.Every (Word.Stored built.table built.table.frozen) fun _ _ => True) ∧
    (∀ c ∈ e.tree.calls (e.bindings.meaning e.words) start,
      (∀ w ∈ c.args, w.Stored c.before.table c.before.table.values.size) ∧
      ∀ w, c.result = .ok w → w.Stored c.after.table c.after.table.values.size) ∧
    ∀ w, ended.1 = .ok w → w.Stored ended.2.table ended.2.table.values.size := by
  intro e built before start ended
  have hbuilt : e.Grounded built.table := grounded_build b tree host
  have hbefore : before.table = built.table := table_trace earlier hbuilt.frozen
  have hstart : e.Grounded start.table := hbefore ▸ hbuilt
  refine ⟨⟨hbuilt.frozen, hbefore, ?after⟩, ⟨?words, ?literals⟩, ?calls, ?result⟩
  case after => exact (table_evaluate hstart.frozen).trans hbefore
  case words =>
    rw [hbuilt.frozen]
    exact fun entry hentry => (hbuilt.words entry hentry).stored
  case literals =>
    rw [hbuilt.frozen]
    exact hbuilt.literals.mono fun _ hw => hw.stored
  case calls =>
    intro c hc
    have hsound := ((e.bindings.places e.words).calls_evaluate hstart.valid hstart.literals c hc).1
    exact ⟨fun w hw => (hsound.args w hw).stored, fun w hw => (hsound.result w hw).stored⟩
  case result =>
    intro w hw
    exact (((e.bindings.places e.words).evaluate hstart.valid hstart.literals).2 w hw).stored

theorem build_stored_visiting :
    let tree : Tree Float := .apply (.infixOp "==")
      [.apply (.function "same" 1) [.named "guest"], .named "visits"]
    let e := (build Bindings.visiting tree { host := 0 }).1
    let before := (e.trace [Nat.succ] (build Bindings.visiting tree { host := 0 }).2).2
    let start := { before with host := before.host + 1 }
    before.table.values.size = 2 ∧
    ∃ c ∈ e.tree.calls (e.bindings.meaning e.words) start,
      c.symbol = .infixOp "==" ∧ c.args = [.ofPlace 1, .ofPlace 2] ∧
      ∀ w ∈ c.args, w.Stored c.before.table 3 := by
  intro tree e before start
  have hlisted : (Symbol.infixOp "==", [Word.ofPlace 1, Word.ofPlace 2], 3) ∈
      (e.tree.calls (e.bindings.meaning e.words) start).map fun c =>
        (c.symbol, c.args, c.before.table.values.size) := by decide +kernel
  obtain ⟨c, hc, heq⟩ := List.mem_map.1 hlisted
  simp only [Prod.mk.injEq] at heq
  obtain ⟨hsymbol, hargs, hsize⟩ := heq
  have hstored := (build_stored Bindings.visiting tree 0 [Nat.succ] Nat.succ).2.2.1 c hc
  exact ⟨by decide +kernel, c, hc, hsymbol, hargs, hsize ▸ hstored.1⟩

end Mixed.Expression
end Formula
