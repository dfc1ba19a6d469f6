import Formula.Proofs.Parser.Enclosed
import Formula.Proofs.Tree.Chain

/-! Reading chains of infix operators. Main statement: a chain of variables is read as the one tree
that groups it by precedence, however blanks are written around its operators. -/
namespace Formula

open Item Token Formula.Parser

namespace Tree

/-- What the operator and the variable of a link have to be for the link to be read as such. A
single dot before a letter starts a name, and the two marks belong to conditionals. -/
structure Link.Plain (link : Link) : Prop where
  operator : IsAsciiOperator link.op
  apart : link.op ∉ [".", "?", ":"]
  name : IsIdentifier link.name

/-- A blank, or nothing. -/
def blank (present : Bool) : String := if present then " " else ""

def Link.text (link : Link) : String :=
  blank link.before ++ link.op ++ blank link.after ++ link.name

namespace Chain

/-- The links as they are written. -/
def written (links : List Link) : String := links.foldr (fun link rest => link.text ++ rest) ""

def text (c : Chain) : String := c.first ++ written c.links

variable {link : Link} {links : List Link} {name : String} {cs : List Char}

theorem written_cons (link : Link) (links : List Link) :
    (written (link :: links)).toList = (blank link.before).toList ++ (link.op.toList ++
      ((blank link.after).toList ++ (link.name.toList ++ (written links).toList))) := by
  simp [written, Link.text]

/-- A blank that is written is skipped, and told. -/
theorem skipBlank_blank_append (present : Bool) (hcs : skipBlank cs = cs)
    (hends : ends cs = false) :
    skipBlank ((blank present).toList ++ cs) = cs ∧
      ends ((blank present).toList ++ cs) = present := by
  cases present with
  | true => exact ⟨hcs, rfl⟩
  | false => exact ⟨hcs, hends⟩

theorem nameRun_written (h : ∀ link ∈ links, link.Plain) : nameRun (written links).toList = [] := by
  cases links with
  | nil => rfl
  | cons link links =>
    obtain ⟨hop, hapart, -⟩ := h link List.mem_cons_self
    rw [written_cons]
    cases link.before with
    | true => rfl
    | false => exact hop.nameRun (by rintro heq; simp [heq] at hapart) _

/-- Reading the links after an operand puts their items on the stack. -/
theorem shift_links {items : List Item} {x t : Tree Float} (h : ∀ link ∈ links, link.Plain)
    (hfinish : Stack.finish ((operand x :: items).reverse ++ linkItems links) = .ok t) :
    (shift [] ⟨operand x :: items, ends (written links).toList⟩
      (skipBlank (written links).toList) ()).Ends t [] := by
  induction links generalizing items x with
  | nil =>
    rw [linkItems, List.flatMap_nil, List.append_nil] at hfinish
    exact shift_end hfinish
  | cons link links ih =>
    obtain ⟨hop, hapart, hname⟩ := h link List.mem_cons_self
    have hlinks : ∀ other ∈ links, other.Plain := fun other hmem =>
      h other (List.mem_cons_of_mem link hmem)
    obtain ⟨c, tail, hchars, halpha⟩ := hname.cons
    have hc : Opens c := opens_alphanum (by rw [Char.isAlphanum, halpha, Bool.true_or])
    have hletter : c ≠ '.' := by
      rintro rfl
      exact absurd halpha (by decide)
    obtain ⟨rest, hrest⟩ : ∃ rest, link.name.toList ++ (written links).toList = c :: rest :=
      ⟨_, by rw [hchars]; rfl⟩
    have hskip : skipBlank (c :: rest) = c :: rest := skipBlank_cons hc.isBlank
    have hends : ends (c :: rest) = false := hc.isBlank
    obtain ⟨hafter, hfollowed⟩ := skipBlank_blank_append link.after hskip hends
    have hstop : ∀ d ∈ ((blank link.after).toList ++ c :: rest).head?,
        d ≠ '.' ∧ Charset.isOperator d = false := by
      cases link.after with
      | true =>
        rintro d ⟨⟩
        decide
      | false =>
        rintro d ⟨⟩
        exact ⟨hletter, hc.isOperator⟩
    have hdot : link.op ≠ "." := fun heq => hapart (by simp [heq])
    have hmark : link.op ≠ "?" := fun heq => hapart (by simp [heq])
    have hscan := hop.scan hstop fun heq => absurd heq hdot
    obtain ⟨hbefore, hspaced⟩ := skipBlank_blank_append link.before (skipBlank_of_scan hscan)
      (ends_of_scan hscan)
    rw [written_cons, hrest, hbefore, hspaced]
    refine .of_same (shift_push (continues_whole hscan) hscan (action_operator hmark)) ?_
    rw [hafter, hfollowed, ← hrest]
    refine .of_same (shift_name hname.1 (List.nil_subset _) rfl (nameRun_written hlinks)) ?_
    refine ih hlinks ?_
    rw [linkItems, List.flatMap_cons, ← linkItems] at hfinish
    simpa [State.push] using hfinish

/-- A chain of infix operators is grouped by precedence, however it is spaced, and there is only one
such tree. -/
theorem ofSource_chain (c : Chain) (hfirst : IsIdentifier c.first)
    (hlinks : ∀ link ∈ c.links, link.Plain) :
    Groups c (ofSource c.text) ∧ ∀ other, Groups c other → other = ofSource c.text := by
  have hcolon : ∀ link ∈ c.links, link.op ≠ ":" := fun link hmem heq =>
    (hlinks link hmem).apart (by simp [heq])
  obtain ⟨t, ht⟩ := exists_groups c
  have hchars : c.text.toList = c.first.toList ++ (written c.links).toList := by simp [text]
  have hshift : (shift [] .start (skipBlank c.text.toList) ()).Ends t [] := by
    obtain ⟨d, tail, hname, hd⟩ := word_starts hfirst.isWord
    have hskip : skipBlank (c.first.toList ++ (written c.links).toList) =
        c.first.toList ++ (written c.links).toList := by
      rw [hname]
      exact skipBlank_cons hd.isBlank
    rw [hchars, hskip]
    refine .of_same (shift_name hfirst.1 (List.nil_subset _) rfl (nameRun_written hlinks)) ?_
    exact shift_links hlinks (ht.finish hcolon)
  rw [ofSource_of_shift hshift]
  exact ⟨ht, fun other hother => ht.unique hother hcolon⟩

theorem ofSource_chain_spaced :
    let c : Chain := ⟨"a", [⟨false, "-", true, "b"⟩, ⟨true, "*", false, "c"⟩]⟩
    let t : Tree Float :=
      apply (.infixOp "-") [named "a", apply (.infixOp "*") [named "b", named "c"]]
    IsIdentifier c.first ∧ (∀ link ∈ c.links, link.Plain) ∧ ofSource "a- b *c" = t := by
  intro c t
  have hlinks : ∀ link ∈ c.links, link.Plain := by
    intro link hmem
    simp only [c, List.mem_cons, List.not_mem_nil, or_false] at hmem
    rcases hmem with rfl | rfl <;> constructor <;> decide
  have ht : Groups c t :=
    .join (.operand "a") (.join (.operand "b") (.operand "c") (by decide) (by decide))
      (by decide) (by decide)
  exact ⟨by decide, hlinks, ((ofSource_chain c (by decide) hlinks).2 t ht).symm⟩

end Chain
end Tree
end Formula
