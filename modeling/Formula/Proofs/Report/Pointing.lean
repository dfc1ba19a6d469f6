import Formula.Proofs.Report.Location
import Formula.Proofs.Token.Spans

/-! Reports of undefined names. Main statement: a name that the library does not know is reported at
its first occurrence in the text of the source, which is the place of an identifier of that name
unless the name stands, as a part of something else, before every such identifier. -/
namespace Formula

open Token

variable {σ : Type} {options : Options} {source : String} {error : Error} {symbol : Symbol}

/-! ### Errors without a host -/

/-- The library alone raises no error as a host does. -/
theorem Bindings.not_raises : ¬({ options } : Bindings σ).Raises error := by
  rintro (⟨bound, -⟩ | ⟨bound, -⟩) <;> cases bound

theorem Mixed.Bindings.not_raises : ¬({ options } : Mixed.Bindings σ).Raises error := by
  rintro (⟨bound, -⟩ | ⟨bound, -⟩ | ⟨bound, -⟩) <;> cases bound

/-- Some evaluation of the source with nothing but the library ends with the error, over numbers or
over values of any kind. -/
inductive FailsAlone (σ : Type) (source : String) (error : Error) : Prop
  | numbers {options : Options}
    (h : ({ options } : Bindings σ).Fails (Tree.ofSource source) error)
  | values {options : Options}
    (h : ({ options } : Mixed.Bindings σ).Fails (Tree.ofSource source) error)

/-- An undefined symbol occurs in the tree of the source. -/
theorem FailsAlone.mem_occurrences (h : FailsAlone σ source (.undefinedSymbol symbol)) :
    symbol ∈ (Tree.ofSource source).occurrences := by
  have horigin : .undefinedSymbol symbol ∈ (Tree.ofSource source).faults ∨
      ∃ other ∈ (Tree.ofSource source).occurrences,
        (Error.undefinedSymbol symbol).Concerns other := by
    cases h with
    | numbers h => exact h.origin.imp_right fun h => h.resolve_left Bindings.not_raises
    | values h => exact h.origin.imp_right fun h => h.resolve_left Mixed.Bindings.not_raises
  obtain hfault | ⟨other, hother, hconcerns⟩ := horigin
  · cases Tree.refusal_of_faults hfault
  · cases hconcerns with
    | undefined => exact hother

/-- A bare name does not begin with a blank. -/
theorem Token.exists_cons_of_isName {name : String} (h : isName name = true) :
    ∃ c tail, name.toList = c :: tail ∧ Charset.isBlank c = false := by
  have hlexeme : name? name.toList = some name.toList := by simpa [isName] using h
  obtain ⟨c, tail, hcons⟩ := List.exists_cons_of_ne_nil (name?_ne_nil hlexeme).2
  refine ⟨c, tail, hcons, ?_⟩
  rw [hcons] at hlexeme
  obtain ⟨hstart, -⟩ := Option.ite_none_right_eq_some.1 hlexeme
  rw [Bool.or_eq_true] at hstart
  obtain hhead | hdot := hstart
  · exact Charset.isBlank_of_isNameHead hhead
  · rw [Bool.and_eq_true, beq_iff_eq] at hdot
    rw [hdot.1]
    decide

namespace Report

open Formula.Span

section
variable {name : String} {all : List (Token × Span)} {location : Span}

/-- The first occurrence of a name is the place of an identifier if no other occurrence stands
before one. -/
theorem mem_spans_iff (hall : spans 0 source.toList = .ok all)
    (hfirst : IsLeast {n | StandsAt name.toList source.toList n} location.offset)
    (hlength : location.length = name.utf8ByteSize) :
    (.name name, location) ∈ all ↔ ∃ span, (.name name, span) ∈ all ∧
      ∀ n, StandsAt name.toList source.toList n → span.offset ≤ n := by
  constructor
  · exact fun hmem => ⟨location, hmem, fun n hn => hfirst.2 hn⟩
  · rintro ⟨span, hspan, hbefore⟩
    obtain ⟨hstands, hbytes⟩ := standsAt_of_mem_spans hall hspan
    have hoffset := (hbefore _ hfirst.1).antisymm (hfirst.2 hstands)
    have heq : location = span := congrArg₂ Span.mk hoffset.symm (hlength.trans hbytes.symm)
    rwa [heq]

/-- Any other occurrence starts in a token that is not an identifier of that name. -/
theorem starts_inside (hall : spans 0 source.toList = .ok all) (hname : isName name = true)
    (hfirst : IsLeast {n | StandsAt name.toList source.toList n} location.offset)
    (hlength : location.length = name.utf8ByteSize) (hother : (.name name, location) ∉ all) :
    ∃ token span, (token, span) ∈ all ∧ token ≠ .name name ∧
      span.offset ≤ location.offset ∧ location.offset < span.offset + span.length := by
  obtain ⟨c, tail, hcons, hc⟩ := exists_cons_of_isName hname
  obtain ⟨before, after, hsource, hbefore⟩ := hfirst.1
  rw [hcons, List.cons_append] at hsource
  obtain ⟨token, span, hspan, hstart, hstop⟩ := exists_mem_spans hall hsource hc
  rw [Nat.zero_add, hbefore] at hstart hstop
  refine ⟨token, span, hspan, ?_, hstart, hstop⟩
  rintro rfl
  exact hother ((mem_spans_iff hall hfirst hlength).2
    ⟨span, hspan, fun n hn => hstart.trans (hfirst.2 hn)⟩)

end

/-- A variable or a function with a bare name that the library does not know is reported at the
first occurrence of the name in the text, and the source has identifiers of that name. The report
points at one of them if and only if no occurrence stands before all of them; otherwise it points
into another token. -/
theorem location_undefined
    (hkind : (∃ name, symbol = .var name) ∨ ∃ name arity, symbol = .function name arity)
    (hname : Token.isName symbol.name = true)
    (h : FailsAlone σ source (.undefinedSymbol symbol)) :
    ∃ all, spans 0 source.toList = .ok all ∧ (∃ span, (.name symbol.name, span) ∈ all) ∧
      let location := location ⟨.undefinedSymbol symbol, source⟩
      IsLeast {n | StandsAt symbol.name.toList source.toList n} location.offset ∧
      location.length = symbol.name.utf8ByteSize ∧
      ((.name symbol.name, location) ∈ all ↔ ∃ span, (.name symbol.name, span) ∈ all ∧
        ∀ n, StandsAt symbol.name.toList source.toList n → span.offset ≤ n) ∧
      ((.name symbol.name, location) ∉ all → ∃ token span, (token, span) ∈ all ∧
        token ≠ .name symbol.name ∧ span.offset ≤ location.offset ∧
        location.offset < span.offset + span.length) := by
  have hsymbol := h.mem_occurrences
  have htoken : symbol.token = .name symbol.name := by
    obtain ⟨name, rfl⟩ | ⟨name, arity, rfl⟩ := hkind <;> exact Token.ofName_of_isName hname
  obtain ⟨tokens, htokens, hmem⟩ := Tree.mem_tokens_of_occurrences hsymbol htoken
  rw [← map_fst_spans 0] at htokens
  cases hall : spans 0 source.toList with
  | error fault =>
    rw [hall] at htokens
    cases htokens
  | ok all =>
    rw [hall] at htokens
    obtain rfl := Except.ok.inj htokens
    obtain ⟨⟨token, span⟩, hspan, rfl⟩ := List.mem_map.1 hmem
    obtain ⟨first, hfirst⟩ := (standsAt_of_mem_spans hall hspan).1.exists_isLeast
    have hlocation : location ⟨.undefinedSymbol symbol, source⟩ =
        ⟨first, symbol.name.utf8ByteSize⟩ := by
      have hne : symbol.name ≠ "" := Tree.name_ne_empty hsymbol
      have hfound : location ⟨.undefinedSymbol symbol, source⟩ = _ := ofError_of_standsAt rfl hfirst
      rwa [Nat.max_eq_right (utf8ByteSize_pos hne)] at hfound
    refine ⟨all, rfl, ⟨span, hspan⟩, ?_⟩
    dsimp only
    rw [hlocation]
    exact ⟨hfirst, rfl, mem_spans_iff hall hfirst rfl, starts_inside hall hname hfirst rfl⟩

theorem location_undefined_variable :
    let r : Report := ⟨.undefinedSymbol (.var "tau"), "pi / tau"⟩
    FailsAlone Unit r.source r.error ∧ r.location = ⟨5, 3⟩ ∧
      ∃ all, spans 0 r.source.toList = .ok all ∧ (.name "tau", r.location) ∈ all := by
  intro r
  have htree : Tree.ofSource r.source = .apply (.infixOp "/") [.named "pi", .named "tau"] := by cbv
  have hfails : ({ options := {} } : Bindings Unit).Fails (Tree.ofSource r.source) r.error := by
    rw [htree]
    exact ⟨⟨(), []⟩, ⟨(), []⟩, rfl⟩
  have hspans : spans 0 r.source.toList =
      .ok [(.name "pi", ⟨0, 2⟩), (.operator "/", ⟨3, 1⟩), (.name "tau", ⟨5, 3⟩)] := by cbv
  have hlocation : r.location = ⟨5, 3⟩ := by decide
  obtain ⟨all, hall, -, hfirst, -, hpoints, -⟩ :=
    location_undefined (.inl ⟨"tau", rfl⟩) (by decide) (.numbers hfails)
  obtain rfl := Except.ok.inj (hspans.symm.trans hall)
  refine ⟨.numbers hfails, hlocation, _, hspans, hpoints.2 ⟨⟨5, 3⟩, by simp [Symbol.name], ?_⟩⟩
  intro n hn
  have hleast := hfirst.2 hn
  change r.location.offset ≤ n at hleast
  rwa [hlocation] at hleast

/-- A name that stands inside another is reported there. -/
theorem location_undefined_inside :
    let r : Report := ⟨.undefinedSymbol (.var "i"), "pi + i"⟩
    FailsAlone Unit r.source r.error ∧ r.location = ⟨1, 1⟩ ∧
      spans 0 r.source.toList =
        .ok [(.name "pi", ⟨0, 2⟩), (.operator "+", ⟨3, 1⟩), (.name "i", ⟨5, 1⟩)] := by
  intro r
  have htree : Tree.ofSource r.source =
      .apply (.infixOp "+") [.named "pi", .named "i"] := by cbv
  have hfails : ({ options := {} } : Bindings Unit).Fails (Tree.ofSource r.source) r.error := by
    rw [htree]
    exact ⟨⟨(), []⟩, ⟨(), []⟩, rfl⟩
  exact ⟨.numbers hfails, by decide, by cbv⟩

end Report
end Formula
