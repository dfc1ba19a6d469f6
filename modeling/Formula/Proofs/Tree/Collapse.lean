import Formula.Proofs.Tree.Stacked
import Formula.Proofs.Tree.Yield

/-! Collapsing the stack that the text of a tree leaves. Main statement: it collapses to the tree,
with any stack below that waits for a right operand and anything above that does not come first. -/
namespace Formula

namespace Stack

open Item Formula.Tree

variable {before after after' : List Item} {op own : String} {q : Option String}

theorem collapseFrom_advance {count : Nat} (h : move after = .advance count after') :
    collapseFrom before after =
      collapseFrom ((after'.take count).reverse ++ before) (after'.drop count) := by
  rw [collapseFrom]
  split <;> simp_all [List.reverseAux_eq]

theorem collapseFrom_restart (h : move after = .restart after') :
    collapseFrom before after = collapseFrom [] (before.reverse ++ after') := by
  rw [collapseFrom]
  split <;> simp_all [List.reverseAux_eq]

/-! ### Stacks that wait -/

/-- What keeps an operator waiting for its right operand to be complete. -/
def Holds (op : String) : List Item → Prop
  | operand _ :: rest => isHeldBack op rest = true
  | operator .prefixOp _ :: _ => True
  | _ => False

/-- Collapsing goes past the items `before`, the last operator of which is `q`, as long as what
follows keeps it waiting. -/
def Waits (before : List Item) (q : Option String) : Prop :=
  ∀ items, (∀ op ∈ q, Holds op items) →
    collapseFrom [] (before ++ items) = collapseFrom before.reverse items

/-- Nothing before binds first. -/
def Yields (q : Option String) (op : String) : Prop :=
  ∀ before ∈ q, Precedence.bindsFirst before op = false

theorem waits_nil : Waits [] none := fun _ _ => rfl

theorem infixNode_eq (h : op ≠ ":") (left right : Tree Float) :
    infixNode op left right = apply (.infixOp op) [left, right] := by
  unfold infixNode
  split
  · rw [if_neg fun heq => h heq.1]
  · rfl

/-- An item that joins the operands on both sides, and how tightly. An operator that was taken for
a prefix one joins as well. -/
inductive Joins : String → Item → (Tree Float → Tree Float → Tree Float) → Prop where
  | operator {op : String} {role : Role} {node : Tree Float → Tree Float → Tree Float}
    (hrole : role ≠ .postfixOp) (h : ∀ left right, infixNode op left right = node left right) :
    Joins op (operator role op) node
  | branch (yes : Tree Float) :
    Joins "?" (branch yes) fun condition no => apply (.infixOp "?:") [condition, yes, no]

namespace Joins

variable {item : Item} {node : Tree Float → Tree Float → Tree Float} {x y : Tree Float}
  {items rest : List Item}

theorem isHeldBack_cons (h : Joins op item node) (hrest : rest ≠ []) :
    isHeldBack own (item :: rest) = !Precedence.bindsFirst own op := by
  have hempty : rest.isEmpty = false := List.isEmpty_eq_false_iff.2 hrest
  cases h with
  | operator hrole _ => simp [isHeldBack, hempty, hrole]
  | branch _ => rfl

theorem move_advance (h : Joins op item node) (hitems : Holds op items) :
    move (operand x :: item :: items) = .advance 2 (operand x :: item :: items) := by
  unfold Holds at hitems
  split at hitems
  · cases h with
    | operator hrole _ => simp [move, join, hitems, hrole]
    | branch _ => simp [move, join, hitems]
  · cases h with
    | operator hrole _ => simp [move, hrole]
    | branch _ => simp [move]
  · exact hitems.elim

theorem move_restart (h : Joins op item node) (hrest : isHeldBack op rest = false) :
    move (operand x :: item :: operand y :: rest) = .restart (operand (node x y) :: rest) := by
  cases h with
  | operator hrole hnode => simp [move, join, hrest, hnode, hrole]
  | branch _ => simp [move, join, hrest]

/-- Where an item joins, an operator before it that does not bind first goes on waiting. -/
theorem holds (h : Joins op item node) (hq : Yields q op) (hrest : rest ≠ []) :
    ∀ before ∈ q, Holds before (operand x :: item :: rest) := by
  intro before hbefore
  show isHeldBack before (item :: rest) = true
  rw [h.isHeldBack_cons hrest, hq before hbefore]
  rfl

theorem waits (h : Joins op item node) (hbefore : Waits before q) (hq : Yields q op) :
    Waits (before ++ [operand x, item]) (some op) := by
  intro items hitems
  have hitems : Holds op items := hitems op rfl
  have hne : items ≠ [] := by
    rintro rfl
    exact hitems
  have happend : before ++ [operand x, item] ++ items = before ++ operand x :: item :: items := by
    rw [List.append_assoc]
    rfl
  rw [happend, hbefore _ (h.holds hq hne), collapseFrom_advance (h.move_advance hitems),
    List.reverse_append]
  rfl

theorem collapse (h : Joins op item node) (hbefore : Waits before q) (hq : Yields q op)
    (hafter : isHeldBack op after = false) :
    collapseFrom [] (before ++ operand x :: item :: operand y :: after) =
      collapseFrom [] (before ++ operand (node x y) :: after) := by
  rw [hbefore _ (h.holds hq (List.cons_ne_nil _ _)), collapseFrom_restart (h.move_restart hafter),
    List.reverse_reverse]

end Joins

theorem collapse_prefixOp (op : String) (x : Tree Float) (hbefore : Waits before q) :
    collapseFrom [] (before ++ operator .prefixOp op :: operand x :: after) =
      collapseFrom [] (before ++ operand (apply (.prefixOp op) [x]) :: after) := by
  have hmove : move (operator .prefixOp op :: operand x :: after) =
      .restart (operand (apply (.prefixOp op) [x]) :: after) := rfl
  have hholds : ∀ before ∈ q, Holds before (operator .prefixOp op :: operand x :: after) :=
    fun _ _ => trivial
  rw [hbefore _ hholds, collapseFrom_restart hmove, List.reverse_reverse]

theorem collapse_postfixOp (op : String) (x : Tree Float) {last : Role} (hbefore : Waits before q)
    (hlast : last = .postfixOp ∨ after = []) :
    collapseFrom [] (before ++ operand x :: operator last op :: after) =
      collapseFrom [] (before ++ operand (apply (.postfixOp op) [x]) :: after) := by
  have hmove : move (operand x :: operator last op :: after) =
      .restart (operand (apply (.postfixOp op) [x]) :: after) := by
    show (if last = .postfixOp ∨ after = [] then _ else _) = _
    rw [if_pos hlast]
  have hholds : ∀ before ∈ q, Holds before (operand x :: operator last op :: after) := by
    intro before _
    show isHeldBack before (operator last op :: after) = true
    rcases hlast with rfl | rfl <;> simp [isHeldBack]
  rw [hbefore _ hholds, collapseFrom_restart hmove, List.reverse_reverse]

/-- What follows the right operand of an operator comes no sooner for an operator in it. -/
theorem isHeldBack_of_bindsFirst (hop : isHeldBack op after = false)
    (hown : Precedence.bindsFirst op own = false) : isHeldBack own after = false := by
  unfold isHeldBack at hop ⊢
  split at hop
  · rfl
  · cases hop
  · rw [Bool.not_eq_false'] at hop ⊢
    exact Precedence.bindsFirst_trans hop hown
  · rw [Bool.or_eq_false_iff, Bool.not_eq_false'] at hop ⊢
    exact ⟨hop.1, Precedence.bindsFirst_trans hop.2 hown⟩

/-- A word that is no known operator is postfix after all, if the operators around it come later. -/
theorem collapse_word (x : Tree Float) {next : String} (hbefore : Waits before q)
    (hq : Yields q op) (hknown : Precedence.isKnownInfix op = false) :
    collapseFrom [] (before ++
        operand x :: operator .infixOp op :: operator .infixOp next :: after) =
      collapseFrom [] (before ++
        operand (apply (.postfixOp op) [x]) :: operator .infixOp next :: after) := by
  have hmove : move (operand x :: operator .infixOp op :: operator .infixOp next :: after) =
      .advance 0 (operand x :: operator .postfixOp op :: operator .infixOp next :: after) := by
    simp [move, hknown]
  have hsettled : move (operand x :: operator .postfixOp op :: operator .infixOp next :: after) =
      .restart (operand (apply (.postfixOp op) [x]) :: operator .infixOp next :: after) := rfl
  have hholds : ∀ before ∈ q,
      Holds before (operand x :: operator .infixOp op :: operator .infixOp next :: after) := by
    intro before hmem
    simp [Holds, isHeldBack, hq before hmem]
  rw [hbefore _ hholds, collapseFrom_advance hmove, List.take_zero, List.reverse_nil,
    List.nil_append, List.drop_zero, collapseFrom_restart hsettled, List.reverse_reverse]

/-- A comma may be taken for a prefix operator after these items. -/
def Admits (before : List Item) : Prop :=
  ∀ x after, collapseFrom [] (before ++ operator .infixOp "," :: operand x :: after) =
    collapseFrom [] (before ++ operator .prefixOp "," :: operand x :: after)

theorem admits_nil : Admits [] := by
  intro x after
  have hmove (role : Role) : move (operator role "," :: operand x :: after) =
      .restart (operand (apply (.prefixOp ",") [x]) :: after) := rfl
  rw [List.nil_append, List.nil_append, collapseFrom_restart (hmove _),
    collapseFrom_restart (hmove _)]

theorem admits_branch (x yes : Tree Float) (hbefore : Waits before q) (hq : Yields q "?") :
    Admits (before ++ [operand x, branch yes]) := by
  intro y after
  have hmove (role : Role) :
      move (operand x :: branch yes :: operator role "," :: operand y :: after) =
        .advance 2 (operand x :: branch yes :: operator .prefixOp "," :: operand y :: after) := rfl
  have hholds (role : Role) : ∀ before ∈ q,
      Holds before (operand x :: branch yes :: operator role "," :: operand y :: after) :=
    (Joins.branch yes).holds hq (List.cons_ne_nil _ _)
  rw [List.append_assoc, List.append_assoc]
  show collapseFrom [] (before ++ operand x :: branch yes :: operator _ "," :: operand y :: after) =
    collapseFrom [] (before ++ operand x :: branch yes :: operator _ "," :: operand y :: after)
  rw [hbefore _ (hholds _), hbefore _ (hholds _), collapseFrom_advance (hmove _),
    collapseFrom_advance (hmove _)]

/-! ### Stacks of trees -/

/-- The chunks after a part, the items that they leave, and the role of an operator before them. -/
inductive Ahead : List Chunk → List Item → (String → Role) → Prop where
  | nothing {last : String → Role} : Ahead [] [] last
  | suffix {next : String} {row : List Chunk} {role : Role} {items : List Item} :
    Ahead (.suffix next :: row) (operator role next :: items) fun _ => .postfixOp
  | joint {next : String} {row : List Chunk} {items : List Item} :
    Ahead (.joint next :: row) (operator .infixOp next :: items) (between next)
  | branch {yes : Tree Float} {row : List Chunk} {items : List Item} :
    Ahead (.branch yes :: row) (Item.branch yes.normal :: items) (between "?")

/-- The stack of a part comes to its tree, if the operator that it shows outside parentheses neither
takes an operand of its neighbours nor loses one to them. -/
def Settled (wrap : Bool) (t : Tree Float) : Prop :=
  ∀ ⦃before after q last row⦄, Waits before q → Ahead row after last →
    Row.Chained (t.part wrap ++ row) → Row.patient q (t.part wrap ++ row) = true →
    ((t.part wrap).head? = some (.sign ",") → Admits before) →
    (wrap = false → ∀ own ∈ t.top?, Yields q own ∧ isHeldBack own after = false) →
    collapseFrom [] (before ++ (t.stackedPart wrap last ++ after)) =
      collapseFrom [] (before ++ operand t.normal :: after)

theorem Settled.wrapped {t : Tree Float} (h : Settled false t) (wrap : Bool) : Settled wrap t := by
  cases wrap with
  | false => exact h
  | true =>
    intro before after q last row _ _ _ _ _ _
    rfl

namespace Joins

variable {item : Item} {node : Tree Float → Tree Float → Tree Float} {left right : Tree Float}
  {c : Chunk} {row : List Chunk} {rest : List Item} {last : String → Role}

/-- Without parentheses the left part comes before what joins it. -/
theorem fits_left (h : Joins op item node) (hq : Yields q op) (hrest : rest ≠ [])
    (hwrap : wrapsLeft op left = false) :
    ∀ own ∈ left.top?, Yields q own ∧ isHeldBack own (item :: rest) = false := by
  intro own hown
  have hfirst : Precedence.bindsFirst own op = true := by
    simpa [wrapsLeft, Option.mem_def.1 hown] using hwrap
  constructor
  · intro before hmem
    exact Precedence.not_bindsFirst_trans (hq before hmem) hfirst
  · rw [h.isHeldBack_cons hrest, hfirst]
    rfl

/-- Without parentheses what joins waits for the right part. -/
theorem fits_right (hafter : isHeldBack op after = false) (hwrap : wrapsRight op right = false) :
    ∀ own ∈ right.top?, Yields (some op) own ∧ isHeldBack own after = false := by
  intro own hown
  have hfirst : Precedence.bindsFirst op own = false := by
    simpa [wrapsRight, Option.mem_def.1 hown] using hwrap
  constructor
  · rintro before ⟨⟩
    exact hfirst
  · exact isHeldBack_of_bindsFirst hafter hfirst

/-- Two parts and what joins them, each in parentheses where it would group differently. -/
theorem settled (h : Joins op item node) (hleft : Settled false left) (hright : Settled false right)
    (hbefore : Waits before q) (hrow : Ahead row after last)
    (hitem : ∀ rest items, Ahead (c :: rest) (item :: items) (between op))
    (hchain : Row.Chained (left.part (wrapsLeft op left) ++
      c :: (right.part (wrapsRight op right) ++ row)))
    (hpatient : Row.patient q (left.part (wrapsLeft op left) ++
      c :: (right.part (wrapsRight op right) ++ row)) = true)
    (hwaits : Row.patient (some op) (right.part (wrapsRight op right) ++ row) = true)
    (hlead : (left.part (wrapsLeft op left)).head? = some (.sign ",") → Admits before)
    (hright_lead : (right.part (wrapsRight op right)).head? = some (.sign ",") →
      Admits (before ++ [operand left.normal, item]))
    (hq : Yields q op) (hafter : isHeldBack op after = false) :
    collapseFrom [] (before ++ (left.stackedPart (wrapsLeft op left) (between op) ++
        item :: right.stackedPart (wrapsRight op right) last ++ after)) =
      collapseFrom [] (before ++ operand (node left.normal right.normal) :: after) := by
  have hne : right.stackedPart (wrapsRight op right) last ++ after ≠ [] :=
    List.append_ne_nil_of_left_ne_nil (stackedPart_ne_nil _ _ _) _
  have hchain_right : Row.Chained (right.part (wrapsRight op right) ++ row) :=
    hchain.right_of_append.tail
  calc collapseFrom [] (before ++ (left.stackedPart (wrapsLeft op left) (between op) ++
          item :: right.stackedPart (wrapsRight op right) last ++ after))
      = collapseFrom [] (before ++ (left.stackedPart (wrapsLeft op left) (between op) ++
          item :: (right.stackedPart (wrapsRight op right) last ++ after))) := by
        rw [List.append_assoc (left.stackedPart _ _), List.cons_append]
    _ = collapseFrom [] (before ++ operand left.normal ::
          item :: (right.stackedPart (wrapsRight op right) last ++ after)) :=
        hleft.wrapped _ hbefore (hitem _ _) hchain hpatient hlead (h.fits_left hq hne)
    _ = collapseFrom [] (before ++ [operand left.normal, item] ++
          (right.stackedPart (wrapsRight op right) last ++ after)) := by
        rw [List.append_assoc]
        rfl
    _ = collapseFrom [] (before ++ [operand left.normal, item] ++
          operand right.normal :: after) :=
        hright.wrapped _ (h.waits hbefore hq) hrow hchain_right hwaits hright_lead
          (fits_right hafter)
    _ = collapseFrom [] (before ++ operand left.normal :: item ::
          operand right.normal :: after) := by
        rw [List.append_assoc]
        rfl
    _ = collapseFrom [] (before ++ operand (node left.normal right.normal) :: after) :=
        h.collapse hbefore hq hafter

end Joins

theorem settled_literal (value : Float) : Settled false (literal value) := by
  intro before after q last row hbefore _ _ _ _ _
  show collapseFrom [] (before ++ ((literal value).stacked last ++ after)) =
    collapseFrom [] (before ++ operand (normalLiteral value) :: after)
  rw [stacked]
  split
  · rename_i hshape
    rw [normalLiteral, hshape]
    exact collapse_prefixOp "-" (literal (-value)) hbefore
  · rfl

theorem settled_prefixOp (op : String) (arg : Tree Float) :
    Settled false (apply (.prefixOp op) [arg]) := by
  intro before after q last row hbefore _ _ _ hlead _
  have hcollapse :
      collapseFrom [] (before ++ operator .prefixOp op :: operand arg.normal :: after) =
        collapseFrom [] (before ++ operand (apply (.prefixOp op) [arg.normal]) :: after) :=
    collapse_prefixOp op arg.normal hbefore
  rw [normal_apply]
  by_cases hop : op = ","
  · subst hop
    exact (hlead rfl arg.normal after).trans hcollapse
  · have hstacked : (apply (.prefixOp op) [arg]).stackedPart false last =
        [operator .prefixOp op, operand arg.normal] := by
      show [operator (if op = "," then .infixOp else .prefixOp) op, operand arg.normal] = _
      rw [if_neg hop]
    rw [hstacked]
    exact hcollapse

/-- A part that takes a postfix operator without parentheses shows no operator between others. -/
theorem top?_postfixed {t : Tree Float} (h : wrapsPostfixed t = false) : t.top? = none := by
  unfold top?
  split
  · cases h
  · cases h
  · rfl

/-- An operator at the end of a part is postfix, whatever the chunks after it make of it first. -/
theorem collapse_last (x : Tree Float) {row : List Chunk} {last : String → Role}
    (hbefore : Waits before q) (hrow : Ahead row after last)
    (hchain : Row.Chained (.suffix op :: row))
    (hpatient : Row.patient q (.suffix op :: row) = true) :
    collapseFrom [] (before ++ operand x :: operator (last op) op :: after) =
      collapseFrom [] (before ++ operand (apply (.postfixOp op) [x]) :: after) := by
  cases hrow with
  | nothing => exact collapse_postfixOp op x hbefore (.inr rfl)
  | suffix => exact collapse_postfixOp op x hbefore (.inl rfl)
  | @joint next row items =>
    by_cases hword : next ≠ "," ∧ Token.isName op = true
    · have hadjoins : Chunk.adjoins (.suffix op) (.joint next) = true := hchain.rel
      have hknown : Precedence.isKnownInfix op = false := by
        have hkept := hadjoins
        simp [Chunk.adjoins, hword.1, hword.2] at hkept
        exact hkept.2
      have hq : Yields q op := by
        intro before hmem
        have := hpatient
        simp_all [Row.patient]
      rw [between, if_pos hword]
      exact collapse_word x hbefore hq hknown
    · rw [between, if_neg hword]
      exact collapse_postfixOp op x hbefore (.inl rfl)
  | @branch yes row items =>
    have hadjoins : Chunk.adjoins (.suffix op) (.branch yes) = true := hchain.rel
    have hword : Token.isName op = false := by
      simp_all [Chunk.adjoins]
    have hbetween : between "?" op = .postfixOp := by
      rw [between, if_neg]
      simp [hword]
    rw [hbetween]
    exact collapse_postfixOp op x hbefore (.inl rfl)

theorem settled_postfixOp {arg : Tree Float} (op : String) (harg : Settled false arg) :
    Settled false (apply (.postfixOp op) [arg]) := by
  intro before after q last row hbefore hrow hchain hpatient hlead _
  have hstacked : (apply (.postfixOp op) [arg]).stackedPart false last ++ after =
      arg.stackedPart (wrapsPostfixed arg) (fun _ => .postfixOp) ++
        operator (last op) op :: after := by
    show arg.stackedPart (wrapsPostfixed arg) (fun _ => .postfixOp) ++ [operator (last op) op] ++
      after = _
    rw [List.append_assoc]
    rfl
  have hpart : (apply (.postfixOp op) [arg]).part false ++ row =
      arg.part (wrapsPostfixed arg) ++ .suffix op :: row := by
    rw [part_false, chunks_postfixOp, List.append_assoc]
    rfl
  rw [hpart] at hchain hpatient
  have hpatient_last : Row.patient q (.suffix op :: row) = true := by
    obtain ⟨tree, wrap, heq⟩ | ⟨first, tree, wrap, heq⟩ := part_postfixed arg <;>
    · rw [heq] at hpatient
      exact hpatient
  have harg_lead : (arg.part (wrapsPostfixed arg)).head? = some (.sign ",") → Admits before := by
    intro hhead
    refine hlead ?_
    rw [part_false, chunks_postfixOp, List.head?_append_of_ne_nil _ (part_ne_nil _ _), hhead]
  have hahead : Ahead (.suffix op :: row) (operator (last op) op :: after) fun _ => .postfixOp :=
    .suffix
  have hcollapse := harg.wrapped (wrapsPostfixed arg) hbefore hahead hchain hpatient harg_lead
    fun hwrap own hown => by
      rw [top?_postfixed hwrap] at hown
      cases hown
  rw [hstacked, normal_apply, hcollapse]
  exact collapse_last arg.normal hbefore hrow hchain.right_of_append hpatient_last

/-- The quotient that a literal is written as is no question mark. -/
theorem isLoneMark_normal (t : Tree Float) : t.normal.isLoneMark = t.isLoneMark := by
  cases t with
  | literal value =>
    rw [normal, normalLiteral]
    split
    · rfl
    · rfl
    · split <;> rfl
  | malformed error source => rfl
  | apply symbol args =>
    rw [normal_apply]
    cases symbol with
    | infixOp op => rcases args with _ | ⟨a, _ | ⟨b, _ | ⟨c, args⟩⟩⟩ <;> rfl
    | _ => rfl

theorem infixNode_kept {left right : Tree Float} (h : (op != ":" || !left.isLoneMark) = true) :
    infixNode op left right = apply (.infixOp op) [left, right] := by
  rw [Bool.or_eq_true, bne_iff_ne] at h
  rcases h with hcolon | hmark
  · exact infixNode_eq hcolon left right
  · unfold infixNode
    split
    · rw [if_neg]
      rintro ⟨-, rfl⟩
      cases hmark
    · rfl

theorem settled_infixOp {left right : Tree Float} (hnode : (op != ":" || !left.isLoneMark) = true)
    (hleft : Settled false left) (hright : Settled false right) :
    Settled false (apply (.infixOp op) [left, right]) := by
  intro before after q last row hbefore hrow hchain hpatient hlead htop
  obtain ⟨hq, hafter⟩ := htop rfl op rfl
  have hpart : (apply (.infixOp op) [left, right]).part false ++ row =
      left.part (wrapsLeft op left) ++ .joint op :: (right.part (wrapsRight op right) ++ row) := by
    rw [part_false, chunks_infixOp, List.append_assoc, List.cons_append]
  have hleft_lead : (left.part (wrapsLeft op left)).head? = some (.sign ",") → Admits before := by
    intro hhead
    refine hlead ?_
    rw [part_false, chunks_infixOp, List.head?_append_of_ne_nil _ (part_ne_nil _ _), hhead]
  rw [hpart] at hchain hpatient
  have hright_lead : (right.part (wrapsRight op right)).head? ≠ some (.sign ",") := by
    intro hhead
    have hadjoins := (List.isChain_cons.1 hchain.right_of_append).1 (.sign ",")
    rw [List.head?_append_of_ne_nil _ (part_ne_nil _ _), hhead] at hadjoins
    simp [Chunk.adjoins] at hadjoins
  have hjoins : Joins op (operator .infixOp op) (infixNode op) :=
    .operator (by decide) fun _ _ => rfl
  have hnormal : infixNode op left.normal right.normal =
      apply (.infixOp op) [left.normal, right.normal] :=
    infixNode_kept (by rw [isLoneMark_normal]; exact hnode)
  rw [normal_apply, List.map_cons, List.map_cons, List.map_nil, ← hnormal]
  exact hjoins.settled hleft hright hbefore hrow (fun _ _ => .joint) hchain hpatient
    (Row.patient_joint hpatient) hleft_lead (fun hhead => absurd hhead hright_lead) hq hafter

theorem settled_conditional {condition yes no : Tree Float} (hcondition : Settled false condition)
    (hno : Settled false no) : Settled false (apply (.infixOp "?:") [condition, yes, no]) := by
  intro before after q last row hbefore hrow hchain hpatient hlead htop
  obtain ⟨hq, hafter⟩ := htop rfl "?" rfl
  have hpart : (apply (.infixOp "?:") [condition, yes, no]).part false ++ row =
      condition.part (wrapsLeft "?" condition) ++
        .branch yes :: (no.part (wrapsRight "?" no) ++ row) := by
    rw [part_false, chunks_conditional, List.append_assoc, List.cons_append]
  have hleft_lead :
      (condition.part (wrapsLeft "?" condition)).head? = some (.sign ",") → Admits before := by
    intro hhead
    refine hlead ?_
    rw [part_false, chunks_conditional, List.head?_append_of_ne_nil _ (part_ne_nil _ _), hhead]
  rw [hpart] at hchain hpatient
  rw [normal_apply]
  exact (Joins.branch yes.normal).settled hcondition hno hbefore hrow (fun _ _ => .branch) hchain
    hpatient (Row.patient_branch hpatient) hleft_lead (fun _ => admits_branch _ _ hbefore hq) hq
    hafter

theorem settled {t : Tree Float} (h : Readable t) : Settled false t := by
  induction h with
  | literal _ => exact settled_literal _
  | var _ =>
    intro before after q last row _ _ _ _ _ _
    rfl
  | function _ _ _ _ =>
    intro before after q last row _ _ _ _ _ _
    rfl
  | array _ _ _ =>
    intro before after q last row _ _ _ _ _ _
    rfl
  | prefixOp _ _ _ _ => exact settled_prefixOp _ _
  | postfixOp _ _ _ ih => exact settled_postfixOp _ ih
  | infixOp _ apart _ _ ihl ihr =>
    exact settled_infixOp (Bool.and_eq_true_iff.1 apart).2 ihl ihr
  | conditional _ _ _ _ ihc _ ihn => exact settled_conditional ihc ihn

theorem finish_of_collapse {items : List Item} {t : Tree Float}
    (h : collapseFrom [] items = collapseFrom [] [operand t]) : finish items = .ok t := by
  have hstop : collapseFrom [] [operand t] = .ok [operand t] := by
    rw [collapseFrom]
    rfl
  rw [finish, h, hstop]

theorem yields_none (op : String) : Yields none op := by
  rintro before ⟨⟩

/-- The stack of a tree collapses to the tree, whatever role an operator at its end has. -/
theorem finish_stacked {t : Tree Float} (h : Readable t) (last : String → Role) :
    finish (t.stacked last) = .ok t.normal := by
  obtain ⟨hchain, hpatient, -⟩ := Row.apart_iff.1 h.row_apart
  rw [← List.append_nil t.chunks] at hchain hpatient
  have hsettled : collapseFrom [] ([] ++ (t.stackedPart false last ++ [])) =
      collapseFrom [] ([] ++ [operand t.normal]) :=
    settled h waits_nil .nothing hchain hpatient (fun _ => admits_nil)
      fun _ own _ => ⟨yields_none own, rfl⟩
  rw [List.append_nil] at hsettled
  exact finish_of_collapse hsettled

/-! ### Conditionals without an end -/

theorem getLast?_cons_branch {item : Item} {items : List Item} {yes : Tree Float}
    (h : items.getLast? = some (branch yes)) : (item :: items).getLast? = some (branch yes) := by
  rw [List.getLast?_cons, h, Option.getD_some]

theorem getLast?_of_cons {item : Item} {items : List Item} {yes : Tree Float}
    (h : (item :: items).getLast? = some (branch yes)) (hitem : item ≠ branch yes) :
    items.getLast? = some (branch yes) := by
  rw [List.getLast?_cons, Option.some.injEq] at h
  cases hlast : items.getLast? with
  | none =>
    rw [hlast] at h
    exact absurd h hitem
  | some last =>
    rw [hlast] at h
    exact congrArg some h

/-- No move takes a conditional at the end that has no second branch. -/
theorem move_unfinished {items after : List Item} {yes : Tree Float}
    (hmove : (move items).after? = some after) (h : items.getLast? = some (branch yes)) :
    after.getLast? = some (branch yes) := by
  unfold move at hmove
  split at hmove
  · rename_i x y rest
    have hrest := getLast?_of_cons (getLast?_of_cons h nofun) nofun
    split at hmove
    · obtain rfl := Option.some.inj hmove
      exact getLast?_cons_branch (getLast?_cons_branch (getLast?_cons_branch hrest))
    · cases hmove
  · rename_i x role op rest
    have hrest := getLast?_of_cons (getLast?_of_cons h nofun) nofun
    split at hmove
    · obtain rfl := Option.some.inj hmove
      exact getLast?_cons_branch hrest
    · split at hmove
      · rename_i y rest _
        unfold join at hmove
        split at hmove
        · obtain rfl := Option.some.inj hmove
          exact h
        · obtain rfl := Option.some.inj hmove
          exact getLast?_cons_branch (getLast?_of_cons hrest nofun)
      · rename_i next name rest _
        have hlater := getLast?_of_cons hrest nofun
        split at hmove <;>
        · obtain rfl := Option.some.inj hmove
          exact getLast?_cons_branch (getLast?_cons_branch (getLast?_cons_branch hlater))
      · cases hmove
      · cases hmove
  · rename_i x first rest
    have hbranch := getLast?_of_cons h nofun
    split at hmove
    · rename_i no rest
      rw [List.getLast?_cons_cons] at hbranch
      unfold join at hmove
      split at hmove
      · obtain rfl := Option.some.inj hmove
        exact h
      · obtain rfl := Option.some.inj hmove
        exact getLast?_cons_branch (getLast?_of_cons hbranch nofun)
    · rename_i role name rest
      rw [List.getLast?_cons_cons] at hbranch
      obtain rfl := Option.some.inj hmove
      have hlater := getLast?_of_cons hbranch nofun
      exact getLast?_cons_branch (getLast?_cons_branch (getLast?_cons_branch hlater))
    · cases hmove
  · rename_i role op y rest
    obtain rfl := Option.some.inj hmove
    exact getLast?_cons_branch (getLast?_of_cons (getLast?_of_cons h nofun) nofun)
  · obtain rfl := Option.some.inj hmove
    exact h
  all_goals cases hmove

theorem finish_unfinished {items : List Item} {yes : Tree Float}
    (h : items.getLast? = some (branch yes)) : ∃ error, finish items = .error error := by
  have hkept : ∀ below items after : List Item, (move items).after? = some after →
      (below ++ items).getLast? = some (branch yes) →
      (below ++ after).getLast? = some (branch yes) := by
    intro below items after hmove hlast
    have hne : items ≠ [] := by
      rintro rfl
      cases hmove
    rw [List.getLast?_append_of_ne_nil _ hne] at hlast
    have hlast := move_unfinished hmove hlast
    rw [List.getLast?_append, hlast, Option.some_or]
  have hstart : (([] : List Item).reverse ++ items).getLast? = some (branch yes) := h
  obtain ⟨hcollapsed, -⟩ :=
    collapseFrom_kept (P := fun items => items.getLast? = some (branch yes)) hkept hstart
  cases hfinish : finish items with
  | error error => exact ⟨error, rfl⟩
  | ok tree =>
    unfold finish at hfinish
    split at hfinish
    · cases hfinish
    · cases hfinish
    · rename_i t hc
      have hlast := hcollapsed _ hc
      cases hlast
    · cases hfinish

end Stack
end Formula
