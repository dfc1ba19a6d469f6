import Formula.Proofs.Parser.Branches

/-! What holds of every reading that succeeds. Main statement: to show a property of the tree that
reading comes to it is enough to follow the steps of successful readings, among which a branch of a
conditional that was tried in vain leaves no trace. -/
namespace Formula.Parser

open Item Formula.Tree Token

/-- The branch of a conditional, as a reading up to a colon. -/
theorem branch_eq_some {cs : List Char} {yes : Tree Float} {taken : Nat}
    (h : (branch cs ()).1 = some (yes, taken)) :
    (subexpression [":"] cs ()).result = .ok yes ∧
      atAny [":"] (subexpression [":"] cs ()).rest = true ∧
      cs.drop taken = skipBlank ((subexpression [":"] cs ()).rest.drop 1) := by
  rw [branch_forgetful] at h
  have hsub := (subexpression [":"] cs ()).suffix
  split at h
  · rename_i tree hok
    split at h
    · rename_i hat
      simp only [Option.some.injEq, Prod.mk.injEq] at h
      obtain ⟨rfl, rfl⟩ := h
      have hs := (skipBlank_suffix ((subexpression [":"] cs ()).rest.drop 1)).trans
        ((List.drop_suffix 1 _).trans hsub)
      exact ⟨hok, hat, (List.suffix_iff_eq_drop.1 hs).symm⟩
    · simp at h
  · simp at h

theorem expect_eq_ok {mark : Char} {cs : List Char}
    (h : (expect mark cs ()).result = .ok ()) : cs = mark :: (expect mark cs ()).rest := by
  unfold expect at h ⊢
  split
  · split
    · simp_all
    · simp_all [Parse.fail]
  · simp [Parse.fail] at h

theorem next_eq_ok {α β : Type} {start : List Char} {p : Parse Unit start α}
    {f : α → (rest : List Char) → rest <:+ start → Unit → Parse Unit rest β} {value : β}
    (h : (p.next f).result = .ok value) :
    ∃ middle, p.result = .ok middle ∧ (f middle p.rest p.suffix ()).result = .ok value ∧
      (p.next f).rest = (f middle p.rest p.suffix ()).rest := by
  unfold Parse.next at h ⊢
  split at h
  · simp at h
  · rename_i middle hm
    exact ⟨middle, hm, h, rfl⟩

theorem map_eq_ok {α β : Type} {start : List Char} {p : Parse Unit start α} {f : α → β} {value : β}
    (h : (p.map f).result = .ok value) : ∃ middle, p.result = .ok middle ∧ f middle = value := by
  unfold Parse.map at h
  cases hp : p.result with
  | error error => simp [hp, Except.map] at h
  | ok middle => exact ⟨middle, rfl, by simpa [hp, Except.map] using h⟩

/-- A part in brackets is read up to its closing bracket, and then what stands behind it. -/
theorem enclosed_eq_ok {mark : Char} {inner delimiters : List String} {rest : List Char}
    {f : Tree Float → Bool → State} {tree : Tree Float} {p : Parse Unit rest (Tree Float)}
    (hp : p = (subexpression inner rest ()).next fun tree cs _ branches =>
      (expect mark cs branches).next fun _ after _ branches =>
        (shift delimiters (f tree (startsBlank after)) (skipBlank after) branches).widen
          (skipBlank_suffix after))
    (h : p.result = .ok tree) :
    ∃ part after, (subexpression inner rest ()).result = .ok part ∧
      (subexpression inner rest ()).rest = mark :: after ∧ after <:+ rest ∧
      (shift delimiters (f part (startsBlank after)) (skipBlank after) ()).result = .ok tree ∧
      p.rest = (shift delimiters (f part (startsBlank after)) (skipBlank after) ()).rest := by
  subst hp
  obtain ⟨part, hpart, h, hrest⟩ := next_eq_ok h
  obtain ⟨_, hclose, h, hrest'⟩ := next_eq_ok h
  have hclosed := (expect mark (subexpression inner rest ()).rest ()).suffix
  exact ⟨part, _, hpart, expect_eq_ok hclose, hclosed.trans (subexpression inner rest ()).suffix, h,
    hrest.trans hrest'⟩

/-- A property `reads` of a reading from a state and a text to a tree and a rest, and one `lists`
of the arguments of a call, both kept by every step of a successful reading. -/
structure Kept (reads : List String → State → List Char → Tree Float → List Char → Prop)
    (lists : List Char → List (Tree Float) → List Char → Prop) : Prop where
  stop : ∀ {delimiters s cs tree}, ¬Continues delimiters cs → s.finish = .ok tree →
    reads delimiters s cs tree cs
  push : ∀ {delimiters s cs token followed rest item tree k}, Continues delimiters cs →
    nextToken cs = .ok (token, followed, rest) → action s followed token = .push item →
    reads delimiters (s.push item followed) rest tree k → reads delimiters s cs tree k
  comma : ∀ {delimiters s cs token followed rest tree k}, Continues delimiters cs →
    nextToken cs = .ok (token, followed, rest) → action s followed token = .comma →
    reads delimiters s.comma rest tree k → reads delimiters s cs tree k
  group : ∀ {delimiters s cs token followed rest inner after tree k}, Continues delimiters cs →
    nextToken cs = .ok (token, followed, rest) → action s followed token = .group →
    reads [")"] .start (skipBlank rest) inner (')' :: after) →
    reads delimiters (s.push (operand inner) (startsBlank after)) (skipBlank after) tree k →
    reads delimiters s cs tree k
  call : ∀ {delimiters s cs token followed rest name args after tree k}, Continues delimiters cs →
    nextToken cs = .ok (token, followed, rest) → action s followed token = .call name →
    lists rest args after →
    reads delimiters (s.replace (apply (.function name args.length) args) (startsBlank after))
      (skipBlank after) tree k → reads delimiters s cs tree k
  subscript : ∀ {delimiters s cs token followed rest name inner after tree k},
    Continues delimiters cs → nextToken cs = .ok (token, followed, rest) →
    action s followed token = .subscript name →
    reads ["]"] .start (skipBlank rest) inner (']' :: after) →
    reads delimiters (s.replace (apply (.array name) [inner]) (startsBlank after))
      (skipBlank after) tree k → reads delimiters s cs tree k
  withBranch : ∀ {delimiters s cs token followed rest item yes middle tree k},
    Continues delimiters cs → nextToken cs = .ok (token, followed, rest) →
    action s followed token = .ternary item →
    reads [":"] .start (skipBlank rest) yes middle → atAny [":"] middle = true →
    reads delimiters (s.push (.branch yes) true) (skipBlank (middle.drop 1)) tree k →
    reads delimiters s cs tree k
  withoutBranch : ∀ {delimiters s cs token followed rest item tree k}, Continues delimiters cs →
    nextToken cs = .ok (token, followed, rest) → action s followed token = .ternary item →
    reads delimiters (s.push item followed) rest tree k → reads delimiters s cs tree k
  noArguments : ∀ {rest}, lists (')' :: rest) [] rest
  lastArgument : ∀ {cs tree rest}, reads [",", ")"] .start (skipBlank cs) tree (')' :: rest) →
    lists cs [tree] rest
  moreArguments : ∀ {cs tree rest trees after},
    reads [",", ")"] .start (skipBlank cs) tree (',' :: rest) → trees ≠ [] →
    lists rest trees after → lists cs (tree :: trees) after

namespace Kept

variable {reads : List String → State → List Char → Tree Float → List Char → Prop}
  {lists : List Char → List (Tree Float) → List Char → Prop}

mutual

theorem of_shift (kept : Kept reads lists) {delimiters : List String} {s : State}
    {cs : List Char} {tree : Tree Float} (h : (shift delimiters s cs ()).result = .ok tree) :
    reads delimiters s cs tree (shift delimiters s cs ()).rest := by
  by_cases hc : Continues delimiters cs
  · cases hn : nextToken cs with
    | error fault => simp [shift_fault hc hn, Parse.fail] at h
    | ok found =>
      obtain ⟨token, followed, rest⟩ := found
      have hr := (nextToken_suffix hn).2
      rw [shift_token hc hn] at h ⊢
      simp only [Parse.widen] at h ⊢
      cases ha : action s followed token <;> rw [ha] at h <;> dsimp only [perform] at h ⊢
      case push item => exact kept.push hc hn ha (kept.of_shift h)
      case comma => exact kept.comma hc hn ha (kept.of_shift h)
      case group =>
        obtain ⟨inner, after, hinner, hclose, hafter, h, hrest⟩ := enclosed_eq_ok rfl h
        have hle := ((skipBlank_suffix after).trans hafter).length_le
        have hi := kept.of_subexpression hinner
        rw [hclose] at hi
        rw [hrest]
        exact kept.group hc hn ha hi (kept.of_shift h)
      case call name =>
        obtain ⟨args, hi, h, hrest⟩ := next_eq_ok h
        rw [hrest]
        have := (arguments rest ()).suffix.length_le
        have := (skipBlank_suffix (arguments rest ()).rest).length_le
        exact kept.call hc hn ha (kept.of_arguments hi) (kept.of_shift h)
      case subscript name =>
        obtain ⟨inner, after, hinner, hclose, hafter, h, hrest⟩ := enclosed_eq_ok rfl h
        have hle := ((skipBlank_suffix after).trans hafter).length_le
        have hi := kept.of_subexpression hinner
        rw [hclose] at hi
        rw [hrest]
        exact kept.subscript hc hn ha hi (kept.of_shift h)
      case ternary item =>
        cases hb : (branch rest ()).1 with
        | none =>
          rw [← Prod.eta (branch rest ()), hb] at h ⊢
          exact kept.withoutBranch hc hn ha (kept.of_shift h)
        | some found =>
          obtain ⟨yes, taken⟩ := found
          obtain ⟨hyes, hat, hdrop⟩ := branch_eq_some hb
          rw [← Prod.eta (branch rest ()), hb] at h ⊢
          have := (List.drop_suffix taken rest).length_le
          change (shift delimiters (s.push (.branch yes) true) (rest.drop taken) ()).result =
            .ok tree at h
          have htail := kept.of_shift h
          rw [hdrop] at htail
          exact kept.withBranch hc hn ha (kept.of_subexpression hyes) hat (hdrop ▸ htail)
      case refuse text => simp [Parse.fail] at h
  · rw [shift_stop hc] at h ⊢
    exact kept.stop hc h
termination_by 4 * cs.length

theorem of_subexpression (kept : Kept reads lists) {delimiters : List String}
    {cs : List Char} {tree : Tree Float} (h : (subexpression delimiters cs ()).result = .ok tree) :
    reads delimiters .start (skipBlank cs) tree (subexpression delimiters cs ()).rest := by
  have := (skipBlank_suffix cs).length_le
  rw [subexpression] at h ⊢
  exact kept.of_shift h
termination_by 4 * cs.length + 1

theorem of_arguments (kept : Kept reads lists) {cs : List Char} {trees : List (Tree Float)}
    (h : (arguments cs ()).result = .ok trees) : lists cs trees (arguments cs ()).rest := by
  rw [arguments.eq_def] at h ⊢
  cases cs with
  | nil => exact (kept.of_someArguments h).1
  | cons c rest =>
    dsimp only at h ⊢
    split at h
    · rename_i hc
      obtain rfl : [] = trees := by simpa using h
      rw [if_pos hc, hc]
      exact kept.noArguments
    · rename_i hc
      rw [if_neg hc]
      exact (kept.of_someArguments h).1
termination_by 4 * cs.length + 3

theorem of_someArguments (kept : Kept reads lists) {cs : List Char} {trees : List (Tree Float)}
    (h : (someArguments cs ()).result = .ok trees) :
    lists cs trees (someArguments cs ()).rest ∧ trees ≠ [] := by
  rw [someArguments_eq] at h ⊢
  obtain ⟨tree, ht, h, hrest⟩ := next_eq_ok h
  rw [hrest]
  have hread := kept.of_subexpression ht
  have hsub := (subexpression [",", ")"] cs ()).suffix.length_le
  generalize (subexpression [",", ")"] cs ()).rest = after at h hread hsub ⊢
  cases after with
  | nil => simp [followArgument, expect, Parse.fail, Parse.map, Except.map] at h
  | cons c rest =>
    dsimp only [followArgument] at h ⊢
    split at h
    · rename_i hc
      rw [if_pos hc]
      obtain ⟨others, ho, rfl⟩ := map_eq_ok h
      have hlt : rest.length < cs.length := hsub
      obtain ⟨hl, hne⟩ := kept.of_someArguments ho
      exact ⟨kept.moreArguments (hc ▸ hread) hne hl, List.cons_ne_nil _ _⟩
    · rename_i hc
      rw [if_neg hc]
      obtain ⟨_, he, rfl⟩ := map_eq_ok h
      refine ⟨kept.lastArgument ?_, List.cons_ne_nil _ _⟩
      rw [expect_eq_ok he] at hread
      exact hread
termination_by 4 * cs.length + 2

end
end Kept
end Formula.Parser
