import Formula.Proofs.Parser.Steps

/-! The store of branches changes nothing. Main statement: as long as a store holds of each place
of a source only what reading there gives, reading with it comes to the same and stops at the same
place as reading with the store that forgets, and what it stores is again of that kind. -/
namespace Formula.Parser

open Item Formula.Tree Token

variable {source : List Char} {α β : Type} {start mid : List Char}

/-- Every entry is what reading at its place of the source gives. -/
def Branches.Faithful (source : List Char) (table : Branches) : Prop :=
  ∀ rest, rest <:+ source → ∀ found, table[rest.length]? = some found → found = (branch rest ()).1

theorem Branches.faithful_empty (source : List Char) : Branches.Faithful source ∅ := by
  intro rest _ found h
  simp at h

theorem Branches.Faithful.insert {table : Branches} (ht : table.Faithful source)
    {rest : List Char} (hr : rest <:+ source) :
    Branches.Faithful source (Std.HashMap.insert table rest.length (branch rest ()).1) := by
  intro other ho found h
  rw [Std.HashMap.getElem?_insert] at h
  split at h
  · rename_i heq
    have hlen : rest.length = other.length := by simpa using heq
    obtain rfl : rest = other :=
      (List.suffix_of_suffix_length_le hr ho (Nat.le_of_eq hlen)).eq_of_length hlen
    exact (Option.some.inj h).symm
  · exact ht other ho found h

/-- The same result at the same place, and a faithful store is left. -/
structure Parse.Agrees (source : List Char) (p : Parse Branches start α) (q : Parse Unit start α) :
    Prop where
  result : p.result = q.result
  rest : p.rest = q.rest
  faithful : p.branches.Faithful source

namespace Parse.Agrees

variable {p : Parse Branches start α} {q : Parse Unit start α}

theorem widen {p : Parse Branches mid α} {q : Parse Unit mid α} (h : p.Agrees source q)
    (hm : mid <:+ start) : (p.widen hm).Agrees source (q.widen hm) :=
  ⟨h.result, h.rest, h.faithful⟩

theorem map (f : α → β) (h : p.Agrees source q) : (p.map f).Agrees source (q.map f) :=
  ⟨congrArg (Except.map f) h.result, h.rest, h.faithful⟩

theorem fail {table : Branches} (ht : table.Faithful source) (error : Error) :
    (Parse.fail error table : Parse Branches start α).Agrees source (Parse.fail error ()) :=
  ⟨rfl, rfl, ht⟩

theorem next {f : α → (rest : List Char) → rest <:+ start → Branches → Parse Branches rest β}
    {g : α → (rest : List Char) → rest <:+ start → Unit → Parse Unit rest β}
    (h : p.Agrees source q)
    (hf : ∀ value rest hr table, table.Faithful source →
      (f value rest hr table).Agrees source (g value rest hr ())) :
    (p.next f).Agrees source (q.next g) := by
  obtain ⟨result, rest, table, suffix⟩ := p
  obtain ⟨hresult, hrest, ht⟩ := h
  dsimp only at hresult hrest ht
  subst hresult hrest
  unfold Parse.next
  dsimp only
  split
  · exact ⟨rfl, rfl, ht⟩
  · exact (hf _ _ _ _ ht).widen _

end Parse.Agrees

theorem expect_agrees {table : Branches} (ht : table.Faithful source) (mark : Char)
    (cs : List Char) : (expect mark cs table).Agrees source (expect mark cs ()) := by
  unfold expect
  split
  · split
    · exact ⟨rfl, rfl, ht⟩
    · exact .fail ht _
  · exact .fail ht _

mutual

theorem shift_agrees (delimiters : List String) (s : State) {cs : List Char} {table : Branches}
    (hs : cs <:+ source) (ht : table.Faithful source) :
    (shift delimiters s cs table).Agrees source (shift delimiters s cs ()) := by
  by_cases hc : Continues delimiters cs
  · cases hn : nextToken cs with
    | error fault =>
      rw [shift_fault hc hn, shift_fault hc hn]
      exact .fail ht _
    | ok found =>
      obtain ⟨token, followed, rest⟩ := found
      obtain ⟨hr, hlt⟩ := nextToken_suffix hn
      rw [shift_token hc hn, shift_token hc hn]
      apply Parse.Agrees.widen
      have hrs := hr.trans hs
      cases action s followed token <;> dsimp only [perform]
      case push item => exact shift_agrees delimiters _ hrs ht
      case comma => exact shift_agrees delimiters _ hrs ht
      case group =>
        refine (subexpression_agrees [")"] hrs ht).next fun tree cs' h' table ht => ?_
        refine (expect_agrees ht ')' cs').next fun _ after' h'' table ht => ?_
        have hb := skipBlank_suffix after'
        have := (hb.trans (h''.trans h')).length_le
        exact (shift_agrees delimiters _ (hb.trans (h''.trans (h'.trans hrs))) ht).widen _
      case call callee =>
        refine (arguments_agrees hrs ht).next fun args after' h' table ht => ?_
        have hb := skipBlank_suffix after'
        have := (hb.trans h').length_le
        exact (shift_agrees delimiters _ (hb.trans (h'.trans hrs)) ht).widen _
      case subscript array =>
        refine (subexpression_agrees ["]"] hrs ht).next fun tree cs' h' table ht => ?_
        refine (expect_agrees ht ']' cs').next fun _ after' h'' table ht => ?_
        have hb := skipBlank_suffix after'
        have := (hb.trans (h''.trans h')).length_le
        exact (shift_agrees delimiters _ (hb.trans (h''.trans (h'.trans hrs))) ht).widen _
      case ternary item =>
        obtain ⟨hfound, ht'⟩ := branch_agrees hrs ht
        rw [← Prod.eta (branch rest table), ← Prod.eta (branch rest ()), hfound]
        cases (branch rest ()).1 with
        | none => exact shift_agrees delimiters _ hrs ht'
        | some found =>
          have hd := List.drop_suffix found.2 rest
          have := hd.length_le
          exact (shift_agrees delimiters _ (hd.trans hrs) ht').widen _
      case refuse text => exact .fail ht _
  · rw [shift_stop hc, shift_stop hc]
    exact ⟨rfl, rfl, ht⟩
termination_by 4 * cs.length

theorem subexpression_agrees (delimiters : List String) {cs : List Char} {table : Branches}
    (hs : cs <:+ source) (ht : table.Faithful source) :
    (subexpression delimiters cs table).Agrees source (subexpression delimiters cs ()) := by
  have hb := skipBlank_suffix cs
  have := hb.length_le
  rw [subexpression, subexpression]
  exact (shift_agrees delimiters .start (hb.trans hs) ht).widen hb
termination_by 4 * cs.length + 1

theorem arguments_agrees {cs : List Char} {table : Branches} (hs : cs <:+ source)
    (ht : table.Faithful source) : (arguments cs table).Agrees source (arguments cs ()) := by
  rw [arguments.eq_def, arguments.eq_def]
  cases cs with
  | nil => exact someArguments_agrees hs ht
  | cons c rest =>
    dsimp only
    split
    · exact ⟨rfl, rfl, ht⟩
    · exact someArguments_agrees hs ht
termination_by 4 * cs.length + 3

theorem someArguments_agrees {cs : List Char} {table : Branches} (hs : cs <:+ source)
    (ht : table.Faithful source) :
    (someArguments cs table).Agrees source (someArguments cs ()) := by
  rw [someArguments_eq, someArguments_eq]
  refine (subexpression_agrees [",", ")"] hs ht).next fun tree after h table ht => ?_
  have := h.length_le
  cases after with
  | nil => exact (expect_agrees ht ')' []).map _
  | cons c rest =>
    dsimp only [followArgument]
    split
    · have hr := (List.suffix_cons c rest).trans (h.trans hs)
      exact ((someArguments_agrees hr ht).map _).widen _
    · exact (expect_agrees ht ')' _).map _
termination_by 4 * cs.length + 2

theorem branch_agrees {cs : List Char} {table : Branches} (hs : cs <:+ source)
    (ht : table.Faithful source) :
    (branch cs table).1 = (branch cs ()).1 ∧ (branch cs table).2.Faithful source := by
  cases hk : BranchTable.find? table cs.length with
  | some known =>
    rw [branch.eq_def cs table, hk]
    exact ⟨ht cs hs known hk, ht⟩
  | none =>
    obtain ⟨hresult, hrest, hf⟩ := subexpression_agrees [":"] hs ht
    have hfound : (branch cs table).1 = (branch cs ()).1 := by
      rw [branch_forgetful, branch.eq_def cs table, hk]
      cases hparsed : (subexpression [":"] cs ()).result with
      | error cause => simp only [BranchTable.enter, hresult, hparsed]
      | ok yes => simp only [BranchTable.enter, hresult, hrest, hparsed]
    have hstore : (branch cs table).2 = Std.HashMap.insert
        (subexpression [":"] cs table).branches cs.length (branch cs table).1 := by
      rw [branch.eq_def cs table, hk]
      rfl
    rw [hstore, hfound]
    exact ⟨rfl, hf.insert hs⟩
termination_by 4 * cs.length + 2

end

/-- A parser that starts on a source reads as one without a store does. -/
theorem read_ofSource (source : String) (delimiters : List String) :
    ((ofSource source).read delimiters).1 =
        (subexpression delimiters source.toList ()).result ∧
      ((ofSource source).read delimiters).2.rest =
        (subexpression delimiters source.toList ()).rest := by
  have h := subexpression_agrees delimiters (List.suffix_refl source.toList)
    (Branches.faithful_empty source.toList)
  exact ⟨h.result, h.rest⟩

end Formula.Parser
