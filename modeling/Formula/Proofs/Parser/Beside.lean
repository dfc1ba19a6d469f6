import Formula.Proofs.Parser.Alike

/-! States that texts with other blanks lead to. They differ in the roles of operators with no
operand on their left, and of an operator that a closing mark is written to. Main statement: a
token asks the same of both states, and what it asks for leaves such states. -/
namespace Formula.Stack

open Item

variable {a b r r' : List Item}

/-- What stands behind a stack, the top first. -/
def Left.of (items : List Item) : Left := items.foldr (fun item left => left.after item) .free

/-- Stacks, the top first, that differ in roles of operators with no operand on their left. -/
inductive Loose : List Item → List Item → Prop
  | nil : Loose [] []
  | same {a b : List Item} (item : Item) (below : Loose a b) : Loose (item :: a) (item :: b)
  | first {a b : List Item} {name : String} (role role' : Role) (free : Left.of a = .free)
    (below : Loose a b) : Loose (operator role name :: a) (operator role' name :: b)

namespace Loose

theorem drop (h : Loose a b) : Loose (a.drop 1) (b.drop 1) := by
  cases h with
  | nil => exact .nil
  | same _ below => exact below
  | first _ _ _ below => exact below

theorem slack (h : Loose a b) (hr : Slack (.of a) r r') :
    Slack .free (a.reverse ++ r) (b.reverse ++ r') := by
  induction h generalizing r r' with
  | nil => exact hr
  | same item _ ih =>
    rw [List.reverse_cons, List.reverse_cons, List.append_assoc, List.append_assoc]
    exact ih (.same item hr)
  | @first a b name role role' free _ ih =>
    have hafter : Left.of (operator role name :: a) = .free :=
      congrArg (fun left : Left => left.after (operator role name)) free
    rw [hafter] at hr
    rw [List.reverse_cons, List.reverse_cons, List.append_assoc, List.append_assoc]
    exact ih (free ▸ .first role role' hr)

end Loose

/-- Stacks with operators on top whose roles make no difference where the mark comes next. -/
inductive Pending (mark : Char) : List Item → List Item → Prop
  | intro {a b : List Item} {name : String} (role role' : Role) (below : Loose a b)
    (settled : Left.of a = .free ∨ (role ≠ .prefixOp ∧ role' ≠ .prefixOp) ∨
      Left.of a ≠ .waiting ∧ mark ≠ ',') :
    Pending mark (operator role name :: a) (operator role' name :: b)

theorem Pending.slack {mark : Char} (h : Pending mark a b) :
    Slack .free a.reverse b.reverse := by
  obtain ⟨role, role', below, settled⟩ := h
  rw [List.reverse_cons, List.reverse_cons]
  refine below.slack (.last role role' fun hwaiting => ?_)
  rcases settled with hfree | hroles | ⟨hother, -⟩
  · rw [hfree] at hwaiting
    cases hwaiting
  · exact hroles
  · exact absurd hwaiting hother

/-! ### Commas -/

/-- What a comma makes of the stack that it goes on. -/
def settle : List Item → List Item
  | operator .infixOp op :: below => operator .postfixOp op :: below
  | items => items

theorem Loose.settle (h : Loose a b) (hhead : a.head? = b.head?) :
    Loose (settle a) (settle b) := by
  cases a with
  | nil =>
    cases h
    exact .nil
  | cons item a =>
    cases b with
    | nil => cases hhead
    | cons item' b =>
      obtain rfl : item = item' := Option.some.inj hhead
      cases item with
      | operand tree => exact h
      | branch yes => exact h
      | operator role name =>
        cases role with
        | infixOp => exact .same _ h.drop
        | prefixOp => exact h
        | postfixOp => exact h

theorem Pending.settle (h : Pending ',' a b) : Loose (settle a) (settle b) := by
  obtain ⟨role, role', below, settled⟩ := h
  rcases settled with hfree | ⟨hrole, hrole'⟩ | ⟨-, hmark⟩
  · cases role <;> cases role' <;> exact .first _ _ hfree below
  · cases role <;> cases role' <;> first | exact .same _ below | contradiction
  · exact absurd rfl hmark

theorem Left.after_comma (left : Left) : left.after (operator .infixOp ",") = .free := by
  have hcomma : Left.ofOperator .infixOp "," = .free := by decide
  cases left with
  | free => rfl
  | operand => exact hcomma
  | applied => exact hcomma
  | waiting => exact hcomma

end Formula.Stack

namespace Formula.Parser

open Item Formula.Tree Token Stack

variable {cs r r' : List Char} {blank : Bool} {left : Left} {s s' : State} {token : Token}
  {a b : List Item}

/-- No token comes, or a closing mark. -/
def Idle (cs : List Char) : Prop := ∀ c ∈ cs.head?, c ∈ marks

/-- States that tell the same of what has been read: apart from roles that make no difference they
differ in whether a blank stands before, and only where a closing mark or nothing comes next. -/
structure Calm (cs : List Char) (s s' : State) : Prop where
  items : Loose s.items s'.items
  head : s.items.head? = s'.items.head?
  spaced : s.spaced = s'.spaced ∨ Idle cs

/-- States before texts that are alike from here on: `left` is what the first of them tells, and
`blank` whether a blank stands before. -/
structure Beside (blank : Bool) (left : Left) (cs : List Char) (s s' : State) : Prop where
  left_eq : Left.of s.items = left
  spaced : left = .free ∨ s.spaced = blank ∨ Idle cs
  related : Calm cs s s' ∨ ∃ mark ∈ marks, cs.head? = some mark ∧ Pending mark s.items s'.items

theorem Beside.start (blank : Bool) (cs : List Char) :
    Beside blank .free cs State.start State.start :=
  ⟨rfl, .inl rfl, .inl ⟨.nil, rfl, .inl rfl⟩⟩

theorem Beside.finish_eq (h : Beside blank left cs s s') : s.finish = s'.finish := by
  rcases h.related with hcalm | ⟨mark, -, -, hpending⟩
  · have hslack : Slack .free (s.items.reverse ++ []) (s'.items.reverse ++ []) :=
      hcalm.items.slack .nil
    rw [List.append_nil, List.append_nil] at hslack
    exact hslack.finish_eq
  · exact hpending.slack.finish_eq

/-- The same item on both stacks. -/
theorem Beside.cons {spaced spaced' : Bool} (item : Item) (below : Loose a b)
    (hblank : (Left.of a).after item = .free ∨ spaced = blank ∨ Idle cs)
    (hspaced : spaced = spaced' ∨ Idle cs) :
    Beside blank ((Left.of a).after item) cs ⟨item :: a, spaced⟩ ⟨item :: b, spaced'⟩ :=
  ⟨rfl, hblank, .inl ⟨.same item below, rfl, hspaced⟩⟩

theorem comma_eq (s : State) : s.comma = ⟨operator .infixOp "," :: settle s.items, true⟩ := rfl

/-- A comma settles the role of an operator before it, if that made a difference. -/
theorem Beside.comma (h : Beside blank left (',' :: r) s s') (blank' : Bool) (cs : List Char) :
    Beside blank' .free cs s.comma s'.comma := by
  have hloose : Loose (settle s.items) (settle s'.items) := by
    rcases h.related with hcalm | ⟨mark, -, hmark, hpending⟩
    · exact hcalm.items.settle hcalm.head
    · obtain rfl : ',' = mark := Option.some.inj hmark
      exact hpending.settle
  have hfree := Left.after_comma (.of (settle s.items))
  rw [comma_eq, comma_eq, ← hfree]
  exact .cons (operator .infixOp ",") hloose (.inl hfree) (.inl rfl)

/-! ### Actions -/

theorem Calm.asks (h : Calm cs s s') : s.afterOperand = s'.afterOperand ∧
    s.afterPostfix = s'.afterPostfix ∧ s.callee? = s'.callee? := by
  obtain ⟨items, spaced⟩ := s
  obtain ⟨items', spaced'⟩ := s'
  have hhead : items.head? = items'.head? := h.head
  cases items with
  | nil =>
    cases items' with
    | nil => exact ⟨rfl, rfl, rfl⟩
    | cons item' b => cases hhead
  | cons item a =>
    cases items' with
    | nil => cases hhead
    | cons item' b =>
      obtain rfl : item = item' := Option.some.inj hhead
      cases item with
      | operand tree =>
        refine ⟨rfl, rfl, ?_⟩
        cases tree with
        | literal value => rfl
        | apply symbol args => cases symbol <;> cases args <;> rfl
        | malformed error source => rfl
      | branch yes => exact ⟨rfl, rfl, rfl⟩
      | operator role name => cases role <;> exact ⟨rfl, rfl, rfl⟩

theorem afterOperand_iff (s : State) : s.afterOperand = true ↔ Left.of s.items = .operand := by
  obtain ⟨items, spaced⟩ := s
  cases items with
  | nil => simp [State.afterOperand, Left.of]
  | cons item a =>
    cases item with
    | operand tree => simp [State.afterOperand, Left.of, Left.after]
    | branch yes => simp [State.afterOperand, Left.of, Left.after]
    | operator role name =>
      have hne : Left.of (operator role name :: a) ≠ .operand :=
        (Left.of a).after_operator_ne_operand role name
      simp [State.afterOperand, hne]

/-- Actions on both states that leave such states before the texts behind the token. -/
inductive Acts (s s' : State) (r r' : List Char) (left : Left) : Action → Action → Prop
  | push {item item' : Item} (pushed : Beside (ends r || ends r') left (skipBlank r)
      (s.push item (ends r)) (s'.push item' (ends r'))) :
    Acts s s' r r' left (.push item) (.push item')
  | comma (pushed : Beside (ends r || ends r') left (skipBlank r) s.comma s'.comma) :
    Acts s s' r r' left .comma .comma
  | group (free : left = .free) (items : Loose s.items s'.items) : Acts s s' r r' left .group .group
  | call (name : String) (free : left = .free) (items : Loose s.items s'.items) :
    Acts s s' r r' left (.call name) (.call name)
  | subscript (name : String) (free : left = .free) (items : Loose s.items s'.items) :
    Acts s s' r r' left (.subscript name) (.subscript name)
  | ternary {item item' : Item} (other : left ≠ .operand) (items : Loose s.items s'.items)
    (pushed : Beside (ends r || ends r') left (skipBlank r) (s.push item (ends r))
      (s'.push item' (ends r'))) :
    Acts s s' r r' left (.ternary item) (.ternary item')
  | refuse (text : String) : Acts s s' r r' left (.refuse text) (.refuse text)

theorem Gap.ends_eq (h : Gap blank left token r r') : ends r = ends r' ∨ Idle (skipBlank r) := by
  refine h.imp id fun ⟨mark, hmem, hmark, _⟩ c hc => ?_
  rw [hmark] at hc
  exact Option.some.inj hc ▸ hmem

theorem ends_spaced (h : ends r = ends r' ∨ Idle (skipBlank r)) :
    ends r = (ends r || ends r') ∨ Idle (skipBlank r) := by
  refine h.imp (fun heq => ?_) id
  rw [← heq, Bool.or_self]

/-- The same item on both stacks, with what stands behind the token. -/
theorem push_beside (item : Item) (items : Loose s.items s'.items)
    (h : ends r = ends r' ∨ Idle (skipBlank r)) :
    Beside (ends r || ends r') ((Left.of s.items).after item) (skipBlank r)
      (s.push item (ends r)) (s'.push item (ends r')) :=
  .cons item items (.inr (ends_spaced h)) h

theorem role_ne_prefixOp (followed : Bool) : role false followed ≠ .prefixOp := by
  cases followed <;> decide

/-- An operator goes on both stacks in roles that make no difference. -/
theorem operator_beside (hcalm : Calm cs s s') (hof : Left.of s.items = left)
    (hs : s.spaced = s'.spaced) (hblank : left = .free ∨ s.spaced = blank) (op : String)
    (gap : Gap blank left (.operator op) r r') :
    Beside (ends r || ends r') (left.behind blank (ends r) (.operator op)) (skipBlank r)
      (s.push (operator (role s.spaced (ends r)) op) (ends r))
      (s'.push (operator (role s'.spaced (ends r')) op) (ends r')) := by
  have hleft : (Left.of s.items).after (operator (role s.spaced (ends r)) op) =
      left.behind blank (ends r) (.operator op) := by
    rw [hof]
    rcases hblank with rfl | hblank
    · rfl
    · rw [hblank]
      rfl
  refine ⟨hleft, .inr (ends_spaced gap.ends_eq), ?_⟩
  rw [← hs]
  by_cases hends : ends r = ends r'
  · rw [← hends]
    exact .inl ⟨.same _ hcalm.items, rfl, .inl rfl⟩
  obtain ⟨mark, hmem, hmark, htolerates⟩ := gap.resolve_left hends
  refine .inr ⟨mark, hmem, hmark, .intro _ _ hcalm.items ?_⟩
  rw [hof]
  rcases hblank with hfree | hblank
  · exact .inl hfree
  · -- without a blank before it an operator is infix or postfix, and a comma makes it postfix
    cases blank with
    | false =>
      rw [hblank]
      exact .inr (.inl ⟨role_ne_prefixOp _, role_ne_prefixOp _⟩)
    | true => exact (Left.of_tolerates (htolerates rfl rfl)).imp id .inr

/-- A token asks the same of both states. -/
theorem Beside.acts (h : Beside blank left cs s s') (hscan : scan cs = .ok (token, r))
    (gap : Gap blank left token r r') :
    Acts s s' r r' (left.behind blank (ends r) token) (action s (ends r) token)
      (action s' (ends r') token) := by
  by_cases hmark : ∃ c ∈ cs.head?, c ∈ marks
  · -- what a closing mark asks for does not depend on the stack
    obtain ⟨c, hc, hmem⟩ := hmark
    obtain ⟨tail, rfl⟩ : ∃ tail, cs = c :: tail := by
      cases cs with
      | nil => cases hc
      | cons d tail => exact ⟨tail, by rw [Option.some.inj hc]⟩
    simp only [marks, List.mem_cons, List.not_mem_nil, or_false] at hmem
    rcases hmem with rfl | rfl | rfl
    · rw [scan_punctuation (by decide)] at hscan
      cases hscan
      exact .refuse ")"
    · rw [scan_punctuation (by decide)] at hscan
      cases hscan
      exact .refuse "]"
    · rw [scan_punctuation (by decide)] at hscan
      cases hscan
      exact .comma (h.comma _ _)
  have hbusy : ¬Idle cs := by
    intro hidle
    cases cs with
    | nil => cases hscan
    | cons c tail => exact hmark ⟨c, rfl, hidle c rfl⟩
  have hcalm : Calm cs s s' :=
    h.related.resolve_right (by
      rintro ⟨mark, hmem, hhead, -⟩
      exact hmark ⟨mark, hhead, hmem⟩)
  have hs := hcalm.spaced.resolve_right hbusy
  have hblank : left = .free ∨ s.spaced = blank :=
    h.spaced.imp id fun hspaced => hspaced.resolve_right hbusy
  obtain ⟨hoperand, hpostfix, hcallee⟩ := hcalm.asks
  cases token with
  | number value =>
    exact .push (push_beside (operand (literal value)) hcalm.items gap.ends_eq)
  | quoted text =>
    exact .push (push_beside (operand (named text)) hcalm.items gap.ends_eq)
  | name text =>
    dsimp only [action, Left.behind]
    rw [← hoperand, ← h.left_eq]
    by_cases hop : s.afterOperand = true
    · rw [if_pos hop, if_pos ((afterOperand_iff s).1 hop)]
      exact .push (push_beside _ hcalm.items gap.ends_eq)
    · rw [if_neg hop, if_neg (mt (afterOperand_iff s).2 hop)]
      exact .push (push_beside (operand (named text)) hcalm.items gap.ends_eq)
  | punctuation c =>
    have hpunctuation : isPunctuation c = true := legible hscan
    have hnot : c ∉ marks := by
      intro hmem
      cases scanned hscan with
      | punctuation start _ => exact hmark ⟨c, by rw [start]; rfl, hmem⟩
    simp only [isPunctuation, Bool.or_eq_true, beq_iff_eq] at hpunctuation
    rcases hpunctuation with (((rfl | rfl) | rfl) | rfl) | rfl
    · show Acts s s' r r' .free (parenthesis s) (parenthesis s')
      unfold parenthesis
      rw [← hcallee, ← hoperand]
      cases s.callee? with
      | some name => exact .call name rfl hcalm.items
      | none =>
        dsimp only
        split
        · exact .refuse "("
        · exact .group rfl hcalm.items
    · exact absurd (by decide) hnot
    · exact absurd (by decide) hnot
    · show Acts s s' r r' .free (bracket s) (bracket s')
      unfold bracket
      rw [← hcallee]
      cases s.callee? with
      | some name => exact .subscript name rfl hcalm.items
      | none => exact .refuse "["
    · exact absurd (by decide) hnot
  | operator op =>
    have hpushed := operator_beside hcalm h.left_eq hs hblank op gap
    dsimp only [action]
    rw [← hoperand, ← hpostfix]
    split
    · exact .ternary (left.after_operator_ne_operand _ _) hcalm.items hpushed
    · exact .push hpushed

end Formula.Parser
