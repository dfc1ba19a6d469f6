import Formula.Proofs.Number.Sign
import Formula.Proofs.Parser.Readings
import Formula.Proofs.Parser.Yield
import Formula.Proofs.Token.Quoting
import Formula.Proofs.Tree.WellFormed

/-! What reading makes of a text. Main statement: whatever was read before from the same source, and
whether it failed, a reading that succeeds comes to a well-formed tree. -/
namespace Formula.Parser

open Item Formula.Tree Token

variable {s : State} {cs rest : List Char} {token : Token} {followed : Bool} {item : Item}

theorem wellFormed_named {name : String}
    (h : Token.isName name = true ∨ Quoted.isQuoted name = true) : (named name).WellFormed :=
  .apply rfl h (by simp)

/-- What a token puts on the stack is well formed. -/
theorem item_wellFormed (hn : nextToken cs = .ok (token, followed, rest))
    (ha : action s followed token = .push item ∨ action s followed token = .ternary item) :
    item.WellFormed := by
  obtain ⟨after, hscan, -⟩ := nextToken_scan hn
  cases scanned hscan with
  | number found finite =>
    obtain rfl := Action.push.inj (ha.resolve_right fun h => by cases h)
    exact .literal ⟨finite, isNegative_numeral? found⟩
  | name found =>
    obtain rfl := Action.push.inj (ha.resolve_right fun h => by cases h)
    split
    · trivial
    · exact wellFormed_named (.inl (isName_of_name? found))
  | quoted _ quote _ =>
    obtain rfl := Action.push.inj (ha.resolve_right fun h => by cases h)
    exact wellFormed_named (.inr (Quoted.isQuoted_quoted quote _))
  | operator _ _ =>
    simp only [action] at ha
    split at ha
    · obtain rfl := Action.ternary.inj (ha.resolve_left fun h => by cases h)
      trivial
    · obtain rfl := Action.push.inj (ha.resolve_right fun h => by cases h)
      trivial
  | punctuation _ _ =>
    simp only [action, parenthesis, bracket] at ha
    split at ha
    · split at ha
      · rcases ha with ha | ha <;> cases ha
      · split at ha <;> rcases ha with ha | ha <;> cases ha
    · split at ha
      · split at ha <;> rcases ha with ha | ha <;> cases ha
      · split at ha <;> rcases ha with ha | ha <;> cases ha

/-- On a stack of well-formed items, the variable that a bracket makes a call or a subscript has a
name. -/
theorem callee_isNamed {name : String} {below : List Item}
    (hs : s.items = operand (named name) :: below) (h : ∀ item ∈ s.items, item.WellFormed) :
    Token.isName name = true ∨ Quoted.isQuoted name = true := by
  have hname : (named name).WellFormed := h (operand (named name)) (by rw [hs]; simp)
  exact hname.named

theorem comma_wellFormed (h : ∀ item ∈ s.items, item.WellFormed) :
    ∀ item ∈ s.comma.items, item.WellFormed := by
  unfold State.comma
  dsimp only
  split
  · rename_i op below heq
    rw [heq, List.forall_mem_cons] at h
    simp only [List.forall_mem_cons]
    exact ⟨trivial, trivial, h.2⟩
  · rw [List.forall_mem_cons]
    exact ⟨trivial, h⟩

theorem push_wellFormed (hs : ∀ item ∈ s.items, item.WellFormed) {top : Item}
    (htop : top.WellFormed) (spaced : Bool) :
    ∀ item ∈ (s.push top spaced).items, item.WellFormed :=
  List.forall_mem_cons.2 ⟨htop, hs⟩

theorem replace_wellFormed {tree : Tree Float} (hs : ∀ item ∈ s.items, item.WellFormed)
    (ht : tree.WellFormed) (spaced : Bool) :
    ∀ item ∈ (s.replace tree spaced).items, item.WellFormed :=
  List.forall_mem_cons.2 ⟨ht, fun item hitem => hs item (List.mem_of_mem_drop hitem)⟩

/-- A stack of well-formed items is read on to a well-formed tree. -/
def Forms (_ : List String) (s : State) (_ : List Char) (tree : Tree Float) (_ : List Char) :
    Prop :=
  (∀ item ∈ s.items, item.WellFormed) → tree.WellFormed

def FormsAll (_ : List Char) (args : List (Tree Float)) (_ : List Char) : Prop :=
  ∀ arg ∈ args, arg.WellFormed

theorem start_wellFormed : ∀ item ∈ State.start.items, item.WellFormed := nofun

theorem kept_forms : Kept Forms FormsAll where
  stop _ hf hs := by
    refine Stack.finish_wellFormed hf fun item hitem => hs item ?_
    exact List.mem_reverse.1 hitem
  push _ hn ha ht hs := ht (push_wellFormed hs (item_wellFormed hn (.inl ha)) _)
  comma _ _ _ ht hs := ht (comma_wellFormed hs)
  group := by
    intro delimiters s cs token followed rest inner after tree k _ _ _ hi ht hs
    have hinner : (operand inner).WellFormed := hi start_wellFormed
    exact ht (push_wellFormed hs hinner _)
  call := by
    intro delimiters s cs token followed rest name args after tree k _ hn ha hargs ht hs
    obtain ⟨_, -, -, -, below, hitems⟩ := fits_of_nextToken hn ha
    have hcall : (apply (.function name args.length) args).WellFormed :=
      .apply rfl (callee_isNamed hitems hs) hargs
    exact ht (replace_wellFormed hs hcall _)
  subscript := by
    intro delimiters s cs token followed rest name inner after tree k _ hn ha hi ht hs
    obtain ⟨_, -, -, -, below, hitems⟩ := fits_of_nextToken hn ha
    have hsubscript : (apply (.array name) [inner]).WellFormed :=
      .unary rfl (callee_isNamed hitems hs) (hi start_wellFormed)
    exact ht (replace_wellFormed hs hsubscript _)
  withBranch := by
    intro delimiters s cs token followed rest item yes middle tree k _ _ _ hi _ ht hs
    have hyes : (Item.branch yes).WellFormed := hi start_wellFormed
    exact ht (push_wellFormed hs hyes _)
  withoutBranch _ hn ha ht hs := ht (push_wellFormed hs (item_wellFormed hn (.inr ha)) _)
  noArguments := nofun
  lastArgument ht arg harg := by
    rw [List.mem_singleton.1 harg]
    exact ht start_wellFormed
  moreArguments ht _ hargs := by
    rw [FormsAll, List.forall_mem_cons]
    exact ⟨ht start_wellFormed, hargs⟩

/-! ### One reading after another -/

/-- What a parser still has to read is a part of its source, and its store is faithful. -/
theorem readAll_faithful {source : List Char} (calls : List (List String)) {p : Parser}
    (hrest : p.rest <:+ source) (hstore : p.branches.Faithful source) :
    (p.readAll calls).2.rest <:+ source ∧ (p.readAll calls).2.branches.Faithful source := by
  induction calls generalizing p with
  | nil => exact ⟨hrest, hstore⟩
  | cons delimiters later ih =>
    have hagrees := subexpression_agrees delimiters hrest hstore
    exact ih ((subexpression delimiters p.rest p.branches).suffix.trans hrest) hagrees.faithful

theorem wellFormed_of_read {source : List Char} {p : Parser} (hrest : p.rest <:+ source)
    (hstore : p.branches.Faithful source) {delimiters : List String} {tree : Tree Float}
    (h : (p.read delimiters).1 = .ok tree) : tree.WellFormed := by
  have hresult := (subexpression_agrees delimiters hrest hstore).result
  exact kept_forms.of_subexpression (hresult.symm.trans h) start_wellFormed

end Formula.Parser

namespace Formula.Tree

open Formula.Parser

/-- The tree of a whole source is well formed, unless the source is no formula. -/
theorem ofSource_wellFormed (source : String) :
    (∃ error, ofSource source = malformed error source) ∨ (ofSource source).WellFormed := by
  unfold ofSource
  split
  · rename_i tree htree
    exact .inr (wellFormed_of_read (p := Parser.ofSource source) List.suffix_rfl
      (Branches.faithful_empty source.toList) htree)
  · rename_i error _
    exact .inl ⟨error, rfl⟩

end Formula.Tree
