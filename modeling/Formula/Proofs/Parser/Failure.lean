import Formula.Proofs.Parser.Success

/-! What holds of every reading that fails. Main statement: to show a property of the error that a
reading ends with it is enough to follow that error back from the text it arose at, over the steps
that passed it on. Readings that succeeded before it have left a tree, and a branch of a conditional
that was tried in vain leaves no error. -/
namespace Formula.Parser

open Item Formula.Tree Token

variable {error : Error}

theorem next_eq_error {α β : Type} {start : List Char} {p : Parse Unit start α}
    {f : α → (rest : List Char) → rest <:+ start → Unit → Parse Unit rest β}
    (h : (p.next f).result = .error error) : p.result = .error error ∨
      ∃ value, p.result = .ok value ∧ (f value p.rest p.suffix ()).result = .error error := by
  unfold Parse.next at h
  split at h
  · rename_i other hp
    cases h
    exact .inl hp
  · rename_i value hp
    exact .inr ⟨value, hp, h⟩

theorem map_eq_error {α β : Type} {start : List Char} {p : Parse Unit start α} {f : α → β}
    (h : (p.map f).result = .error error) : p.result = .error error := by
  unfold Parse.map at h
  cases hp : p.result with
  | error other =>
    rw [hp] at h
    cases h
    rfl
  | ok value =>
    rw [hp] at h
    cases h

/-- A closing mark that is not found is what the error tells. -/
theorem expect_eq_error {mark : Char} {cs : List Char}
    (h : (expect mark cs ()).result = .error error) :
    error = .missingDelimiter (String.singleton mark) := by
  unfold expect at h
  split at h
  · split at h
    · cases h
    · exact (Except.error.inj h).symm
  · exact (Except.error.inj h).symm

/-- A part in brackets fails in itself, at its closing bracket or behind it. -/
theorem enclosed_eq_error {mark : Char} {inner delimiters : List String} {rest : List Char}
    {f : Tree Float → Bool → State}
    (h : ((subexpression inner rest ()).next fun tree cs _ branches =>
      (expect mark cs branches).next fun _ after _ branches =>
        (shift delimiters (f tree (startsBlank after)) (skipBlank after) branches).widen
          (skipBlank_suffix after)).result = .error error) :
    (subexpression inner rest ()).result = .error error ∨
      error = .missingDelimiter (String.singleton mark) ∨
      ∃ tree after, (subexpression inner rest ()).result = .ok tree ∧ after <:+ rest ∧
        (shift delimiters (f tree (startsBlank after)) (skipBlank after) ()).result =
          .error error := by
  obtain hinner | ⟨tree, hinner, h⟩ := next_eq_error h
  · exact .inl hinner
  · obtain hclose | ⟨_, -, h⟩ := next_eq_error h
    · exact .inr (.inl (expect_eq_error hclose))
    · have hclosed := (expect mark (subexpression inner rest ()).rest ()).suffix
      exact .inr (.inr ⟨tree, _, hinner, hclosed.trans (subexpression inner rest ()).suffix, h⟩)

/-- A property `fails` of a reading from a state and a text to an error, and one `lists` of the
arguments of a call that come to one: both hold where the error arises, and are kept by every step
back from there. -/
structure Traced (fails : List String → State → List Char → Error → Prop)
    (lists : List Char → Error → Prop) : Prop where
  stop : ∀ {delimiters s cs error}, ¬Continues delimiters cs → s.finish = .error error →
    fails delimiters s cs error
  fault : ∀ {delimiters s cs fault}, Continues delimiters cs → nextToken cs = .error fault →
    fails delimiters s cs (faultError cs fault)
  refuse : ∀ {delimiters s cs token followed rest text}, Continues delimiters cs →
    nextToken cs = .ok (token, followed, rest) → action s followed token = .refuse text →
    fails delimiters s cs (.unexpectedToken text)
  unclosed : ∀ {delimiters s cs mark}, Continues delimiters cs →
    fails delimiters s cs (.missingDelimiter (String.singleton mark))
  push : ∀ {delimiters s cs token followed rest item error}, Continues delimiters cs →
    nextToken cs = .ok (token, followed, rest) → action s followed token = .push item →
    fails delimiters (s.push item followed) rest error → fails delimiters s cs error
  comma : ∀ {delimiters s cs token followed rest error}, Continues delimiters cs →
    nextToken cs = .ok (token, followed, rest) → action s followed token = .comma →
    fails delimiters s.comma rest error → fails delimiters s cs error
  inGroup : ∀ {delimiters s cs token followed rest error}, Continues delimiters cs →
    nextToken cs = .ok (token, followed, rest) → action s followed token = .group →
    fails [")"] .start (skipBlank rest) error → fails delimiters s cs error
  afterGroup : ∀ {delimiters s cs token followed rest inner after error},
    Continues delimiters cs → nextToken cs = .ok (token, followed, rest) →
    action s followed token = .group → (subexpression [")"] rest ()).result = .ok inner →
    after <:+ rest →
    fails delimiters (s.push (operand inner) (startsBlank after)) (skipBlank after) error →
    fails delimiters s cs error
  inCall : ∀ {delimiters s cs token followed rest name error}, Continues delimiters cs →
    nextToken cs = .ok (token, followed, rest) → action s followed token = .call name →
    lists rest error → fails delimiters s cs error
  afterCall : ∀ {delimiters s cs token followed rest name args after error},
    Continues delimiters cs → nextToken cs = .ok (token, followed, rest) →
    action s followed token = .call name → (arguments rest ()).result = .ok args →
    after <:+ rest →
    fails delimiters (s.replace (apply (.function name args.length) args) (startsBlank after))
      (skipBlank after) error → fails delimiters s cs error
  inSubscript : ∀ {delimiters s cs token followed rest name error}, Continues delimiters cs →
    nextToken cs = .ok (token, followed, rest) → action s followed token = .subscript name →
    fails ["]"] .start (skipBlank rest) error → fails delimiters s cs error
  afterSubscript : ∀ {delimiters s cs token followed rest name inner after error},
    Continues delimiters cs → nextToken cs = .ok (token, followed, rest) →
    action s followed token = .subscript name →
    (subexpression ["]"] rest ()).result = .ok inner → after <:+ rest →
    fails delimiters (s.replace (apply (.array name) [inner]) (startsBlank after))
      (skipBlank after) error → fails delimiters s cs error
  withBranch : ∀ {delimiters s cs token followed rest item yes after error},
    Continues delimiters cs → nextToken cs = .ok (token, followed, rest) →
    action s followed token = .ternary item → (subexpression [":"] rest ()).result = .ok yes →
    after <:+ rest → fails delimiters (s.push (.branch yes) true) (skipBlank after) error →
    fails delimiters s cs error
  withoutBranch : ∀ {delimiters s cs token followed rest item error}, Continues delimiters cs →
    nextToken cs = .ok (token, followed, rest) → action s followed token = .ternary item →
    fails delimiters (s.push item followed) rest error → fails delimiters s cs error
  inArgument : ∀ {cs error}, fails [",", ")"] .start (skipBlank cs) error → lists cs error
  afterArgument : ∀ {cs rest error}, ',' :: rest <:+ cs → lists rest error → lists cs error
  unclosedArguments : ∀ {cs}, lists cs (.missingDelimiter (String.singleton ')'))

namespace Traced

variable {fails : List String → State → List Char → Error → Prop}
  {lists : List Char → Error → Prop}

mutual

theorem of_shift (traced : Traced fails lists) {delimiters : List String} {s : State}
    {cs : List Char} (h : (shift delimiters s cs ()).result = .error error) :
    fails delimiters s cs error := by
  by_cases hc : Continues delimiters cs
  · cases hn : nextToken cs with
    | error fault =>
      rw [shift_fault hc hn] at h
      obtain rfl := Except.error.inj h
      exact traced.fault hc hn
    | ok found =>
      obtain ⟨token, followed, rest⟩ := found
      have hlt := (nextToken_suffix hn).2
      -- what is read after the token, or after a part that it opens, is shorter
      have honwards {s' : State} {cs' : List Char} (hs : cs' <:+ rest)
          (h' : (shift delimiters s' cs' ()).result = .error error) :
          fails delimiters s' cs' error := by
        have hle := hs.length_le
        exact traced.of_shift h'
      rw [shift_token hc hn] at h
      change (perform delimiters s followed rest () (action s followed token)).result = _ at h
      cases ha : action s followed token <;> rw [ha] at h <;> dsimp only [perform] at h
      case push item => exact traced.push hc hn ha (honwards List.suffix_rfl h)
      case comma => exact traced.comma hc hn ha (honwards List.suffix_rfl h)
      case group =>
        obtain hinner | rfl | ⟨tree, after, hinner, hafter, h⟩ := enclosed_eq_error h
        · exact traced.inGroup hc hn ha (traced.of_subexpression hinner)
        · exact traced.unclosed hc
        · have hlater := honwards ((skipBlank_suffix after).trans hafter) h
          exact traced.afterGroup hc hn ha hinner hafter hlater
      case call name =>
        obtain hargs | ⟨args, hargs, h⟩ := next_eq_error h
        · exact traced.inCall hc hn ha (traced.of_arguments hargs)
        · have hafter := (arguments rest ()).suffix
          have hlater := honwards ((skipBlank_suffix _).trans hafter) h
          exact traced.afterCall hc hn ha hargs hafter hlater
      case subscript name =>
        obtain hinner | rfl | ⟨tree, after, hinner, hafter, h⟩ := enclosed_eq_error h
        · exact traced.inSubscript hc hn ha (traced.of_subexpression hinner)
        · exact traced.unclosed hc
        · have hlater := honwards ((skipBlank_suffix after).trans hafter) h
          exact traced.afterSubscript hc hn ha hinner hafter hlater
      case ternary item =>
        cases hb : (branch rest ()).1 with
        | none =>
          rw [← Prod.eta (branch rest ()), hb] at h
          exact traced.withoutBranch hc hn ha (honwards List.suffix_rfl h)
        | some found =>
          obtain ⟨yes, taken⟩ := found
          obtain ⟨hyes, -, hdrop⟩ := branch_eq_some hb
          rw [← Prod.eta (branch rest ()), hb] at h
          have hlater := honwards (List.drop_suffix taken rest) h
          rw [hdrop] at hlater
          have hafter := (List.drop_suffix 1 _).trans (subexpression [":"] rest ()).suffix
          exact traced.withBranch hc hn ha hyes hafter hlater
      case refuse text =>
        obtain rfl := Except.error.inj h
        exact traced.refuse hc hn ha
  · rw [shift_stop hc] at h
    exact traced.stop hc h
termination_by 4 * cs.length

theorem of_subexpression (traced : Traced fails lists) {delimiters : List String} {cs : List Char}
    (h : (subexpression delimiters cs ()).result = .error error) :
    fails delimiters .start (skipBlank cs) error := by
  have hle := (skipBlank_suffix cs).length_le
  rw [subexpression] at h
  exact traced.of_shift h
termination_by 4 * cs.length + 1

theorem of_arguments (traced : Traced fails lists) {cs : List Char}
    (h : (arguments cs ()).result = .error error) : lists cs error := by
  rw [arguments.eq_def] at h
  cases cs with
  | nil => exact traced.of_someArguments h
  | cons c rest =>
    dsimp only at h
    split at h
    · cases h
    · exact traced.of_someArguments h
termination_by 4 * cs.length + 3

theorem of_someArguments (traced : Traced fails lists) {cs : List Char}
    (h : (someArguments cs ()).result = .error error) : lists cs error := by
  rw [someArguments_eq] at h
  obtain hfirst | ⟨tree, -, h⟩ := next_eq_error h
  · exact traced.inArgument (traced.of_subexpression hfirst)
  · have hsuffix := (subexpression [",", ")"] cs ()).suffix
    generalize (subexpression [",", ")"] cs ()).rest = after at h hsuffix
    cases after with
    | nil =>
      obtain rfl := expect_eq_error (map_eq_error h)
      exact traced.unclosedArguments
    | cons c rest =>
      dsimp only [followArgument] at h
      split at h
      · rename_i hcomma
        have hlt : rest.length < cs.length := hsuffix.length_le
        exact traced.afterArgument (hcomma ▸ hsuffix) (traced.of_someArguments (map_eq_error h))
      · obtain rfl := expect_eq_error (map_eq_error h)
        exact traced.unclosedArguments
termination_by 4 * cs.length + 2

end
end Traced
end Formula.Parser
