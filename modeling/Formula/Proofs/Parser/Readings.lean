import Formula.Proofs.Parser.Branches

/-! One reading after another from the same source. Main statement: whatever the delimiters of the
readings and however many of them fail, each comes to what a parser without a store comes to and
what a new parser on the rest comes to, and no branch is read twice from the same place. -/
namespace Formula.Parser

open Item Formula.Tree Token

/-- What a reading comes to and what it leaves. -/
abbrev Outcome := Except Error (Tree Float) × List Char

/-- Readings with any store, each up to its own delimiters and from where the one before it
stopped. -/
def readings {τ : Type} [BranchTable τ] : List (List String) → List Char → τ → List Outcome × τ
  | [], _, branches => ([], branches)
  | delimiters :: later, cs, branches =>
    let parsed := subexpression delimiters cs branches
    let (outcomes, branches) := readings later parsed.rest parsed.branches
    ((parsed.result, parsed.rest) :: outcomes, branches)

/-- The readings of one parser, and the parser after the last of them. -/
def readAll (p : Parser) : List (List String) → List Outcome × Parser
  | [] => ([], p)
  | delimiters :: later =>
    let (result, next) := p.read delimiters
    let (outcomes, last) := next.readAll later
    ((result, next.rest) :: outcomes, last)

/-- Readings each of which has a new parser, on what the one before it left. -/
def readAnew : List (List String) → String → List Outcome
  | [], _ => []
  | delimiters :: later, source =>
    let (result, next) := (ofSource source).read delimiters
    (result, next.rest) :: readAnew later (String.ofList next.rest)

theorem readAll_eq_readings (calls : List (List String)) (p : Parser) :
    (p.readAll calls).1 = (readings calls p.rest p.branches).1 ∧
      (p.readAll calls).2.branches = (readings calls p.rest p.branches).2 := by
  induction calls generalizing p with
  | nil => exact ⟨rfl, rfl⟩
  | cons delimiters later ih =>
    obtain ⟨houtcomes, hbranches⟩ := ih (p.read delimiters).2
    exact ⟨congrArg _ houtcomes, hbranches⟩

theorem readAll_append (earlier later : List (List String)) (p : Parser) :
    (p.readAll (earlier ++ later)).2 = ((p.readAll earlier).2.readAll later).2 := by
  induction earlier generalizing p with
  | nil => rfl
  | cons delimiters earlier ih => exact ih (p.read delimiters).2

/-! ### Without a store -/

theorem readings_forgetful {source : List Char} (calls : List (List String)) {cs : List Char}
    {table : Branches} (hs : cs <:+ source) (ht : table.Faithful source) :
    (readings calls cs table).1 = (readings calls cs ()).1 := by
  induction calls generalizing cs table with
  | nil => rfl
  | cons delimiters later ih =>
    have hagrees := subexpression_agrees delimiters hs ht
    have hrest := (subexpression delimiters cs ()).suffix.trans hs
    have hlater := ih (hagrees.rest ▸ hrest) hagrees.faithful
    simp only [readings]
    rw [hlater, hagrees.result, hagrees.rest]

theorem readAnew_eq_readings (calls : List (List String)) (cs : List Char) :
    readAnew calls (String.ofList cs) = (readings calls cs ()).1 := by
  induction calls generalizing cs with
  | nil => rfl
  | cons delimiters later ih =>
    have hread := read_ofSource (String.ofList cs) delimiters
    rw [String.toList_ofList] at hread
    simp only [readAnew, readings]
    rw [ih, hread.1, hread.2]

/-! ### Every branch once -/

/-- A store that also lists the places at which it had no branch, so that one was read, and those at
which it was given an entry, the latest first. -/
structure Noted where
  table : Branches
  read : List Nat
  written : List Nat

instance : BranchTable Noted where
  find? store remaining := store.table[remaining]?
  enter store remaining := { store with read := remaining :: store.read }
  insert store remaining found :=
    { store with
      table := store.table.insert remaining found
      written := remaining :: store.written }

namespace Noted

/-- No place is listed twice. Entries are those written, and at each of their places a branch was
read. -/
structure Once (store : Noted) : Prop where
  read : store.read.Nodup
  written : store.written.Nodup
  entries : ∀ place, place ∈ store.written ↔ place ∈ store.table
  known : ∀ place ∈ store.table, place ∈ store.read

/-- Every branch that was read from less than `bound` characters on has its entry. The branches that
are being read enclose the text, so they are further back. -/
def Done (bound : Nat) (store : Noted) : Prop :=
  ∀ place ∈ store.read, place < bound → place ∈ store.table

theorem once_empty : Once ⟨∅, [], []⟩ := ⟨List.nodup_nil, List.nodup_nil, by simp, by simp⟩

/-- What reading does to a store from less than `bound` characters on: it keeps every entry, adds
none from further back, and leaves no branch without an entry. -/
structure Grows (bound : Nat) (store store' : Noted) : Prop where
  entry : ∀ {place : Nat} {found : Branch}, store.table[place]? = some found →
    store'.table[place]? = some found
  beyond : ∀ {place : Nat}, bound ≤ place → store'.table[place]? = store.table[place]?
  kept : store.read ⊆ store'.read
  read : ∀ place ∈ store'.read, place ∈ store.read ∨ place ∈ store'.table
  once : store.Once → store.Done bound → store'.Once

namespace Grows

variable {bound bound' : Nat} {store store' store'' : Noted}

theorem mem (h : Grows bound store store') {place : Nat} (hmem : place ∈ store.table) :
    place ∈ store'.table := by
  rw [Std.HashMap.mem_iff_isSome_getElem?, Option.isSome_iff_exists] at hmem ⊢
  obtain ⟨found, hfound⟩ := hmem
  exact ⟨found, h.entry hfound⟩

theorem done (h : Grows bound store store') (hdone : store.Done bound') : store'.Done bound' := by
  intro place hread hplace
  rcases h.read place hread with hread | hmem
  · exact h.mem (hdone place hread hplace)
  · exact hmem

theorem refl (bound : Nat) (store : Noted) : Grows bound store store :=
  ⟨id, fun _ => rfl, List.Subset.refl _, fun _ => .inl, fun honce _ => honce⟩

theorem trans (h : Grows bound store store') (h' : Grows bound store' store'') :
    Grows bound store store'' where
  entry hentry := h'.entry (h.entry hentry)
  beyond hplace := (h'.beyond hplace).trans (h.beyond hplace)
  kept _ hread := h'.kept (h.kept hread)
  read place hread := by
    rcases h'.read place hread with hread | hmem
    · exact (h.read place hread).imp_right h'.mem
    · exact .inr hmem
  once honce hdone := h'.once (h.once honce hdone) (h.done hdone)

theorem mono (h : Grows bound store store') (hb : bound ≤ bound') : Grows bound' store store' where
  entry := h.entry
  beyond hplace := h.beyond (Nat.le_trans hb hplace)
  kept := h.kept
  read := h.read
  once honce hdone := h.once honce fun place hread hplace =>
    hdone place hread (Nat.lt_of_lt_of_le hplace hb)

/-- Where there is no entry and the branches further on are done, none was read. -/
theorem unread (hnone : bound ∉ store.table) (hdone : store.Done (bound + 1)) :
    bound ∉ store.read :=
  fun hread => hnone (hdone bound hread (Nat.lt_succ_self bound))

theorem once_enter (hnone : bound ∉ store.table) (honce : store.Once)
    (hdone : store.Done (bound + 1)) :
    Once (BranchTable.enter store bound) ∧ Done bound (BranchTable.enter store bound) := by
  refine ⟨⟨List.nodup_cons.2 ⟨unread hnone hdone, honce.read⟩, honce.written, honce.entries,
    fun place hmem => List.mem_cons_of_mem _ (honce.known place hmem)⟩, ?_⟩
  intro place hread hplace
  rcases List.mem_cons.1 hread with rfl | hread
  · exact absurd hplace (Nat.lt_irrefl place)
  · exact hdone place hread (Nat.lt_succ_of_lt hplace)

/-- A branch that had no entry before its reading has none after it either, so its entry is new. -/
theorem insert (h : Grows bound (BranchTable.enter store bound) store')
    (hnone : store.table[bound]? = none) (found : Branch) :
    Grows (bound + 1) store (BranchTable.insert store' bound found) := by
  have hnew : store'.table[bound]? = none := (h.beyond (Nat.le_refl bound)).trans hnone
  have hmem : ∀ {place}, place ∈ (BranchTable.insert store' bound found).table ↔
      place = bound ∨ place ∈ store'.table := by
    intro place
    change place ∈ store'.table.insert bound found ↔ _
    rw [Std.HashMap.mem_insert, beq_iff_eq, eq_comm]
  have hget : ∀ {place}, place ≠ bound →
      (BranchTable.insert store' bound found).table[place]? = store'.table[place]? := by
    intro place hne
    change (store'.table.insert bound found)[place]? = _
    rw [Std.HashMap.getElem?_insert, if_neg (by simpa using Ne.symm hne)]
  refine ⟨?entry, ?beyond, fun place hread => h.kept (List.mem_cons_of_mem _ hread), ?read, ?once⟩
  case entry =>
    intro place entry hentry
    have hne : place ≠ bound := by
      rintro rfl
      cases hnone.symm.trans hentry
    rw [hget hne]
    exact h.entry hentry
  case beyond =>
    intro place hplace
    rw [hget (by omega)]
    exact h.beyond (Nat.le_of_succ_le hplace)
  case read =>
    intro place hread
    rcases h.read place hread with hread | hentry
    · rcases List.mem_cons.1 hread with rfl | hread
      · exact .inr (hmem.2 (.inl rfl))
      · exact .inl hread
    · exact .inr (hmem.2 (.inr hentry))
  case once =>
    intro honce hdone
    have habsent : bound ∉ store.table := fun hentry => by
      simpa [hnone] using Std.HashMap.mem_iff_isSome_getElem?.1 hentry
    have habsent' : bound ∉ store'.table := fun hentry => by
      simpa [hnew] using Std.HashMap.mem_iff_isSome_getElem?.1 hentry
    obtain ⟨honce, hdone⟩ := once_enter habsent honce hdone
    obtain ⟨hread, hwritten, hentries, hknown⟩ := h.once honce hdone
    refine ⟨hread, List.nodup_cons.2 ⟨mt (hentries bound).1 habsent', hwritten⟩, ?_, ?_⟩
    · intro place
      rw [hmem, ← hentries place]
      exact List.mem_cons
    · intro place hentry
      rcases hmem.1 hentry with rfl | hentry
      · exact h.kept List.mem_cons_self
      · exact hknown place hentry

end Grows
end Noted

variable {α β : Type} {start mid : List Char} {store : Noted}

/-- The same result at the same place with the same entries, and the store has grown. -/
structure Parse.Notes (store : Noted) (p : Parse Noted start α) (q : Parse Branches start α) :
    Prop where
  result : p.result = q.result
  rest : p.rest = q.rest
  table : p.branches.table = q.branches
  grows : store.Grows start.length p.branches

namespace Parse.Notes

theorem widen {p : Parse Noted mid α} {q : Parse Branches mid α} (h : p.Notes store q)
    (hm : mid <:+ start) : (p.widen hm).Notes store (q.widen hm) :=
  ⟨h.result, h.rest, h.table, h.grows.mono hm.length_le⟩

theorem map {p : Parse Noted start α} {q : Parse Branches start α} (f : α → β)
    (h : p.Notes store q) : (p.map f).Notes store (q.map f) :=
  ⟨congrArg (Except.map f) h.result, h.rest, h.table, h.grows⟩

theorem fail (store : Noted) (error : Error) :
    (Parse.fail error store : Parse Noted start α).Notes store (Parse.fail error store.table) :=
  ⟨rfl, rfl, rfl, .refl _ _⟩

theorem next {p : Parse Noted start α} {q : Parse Branches start α}
    {f : α → (rest : List Char) → rest <:+ start → Noted → Parse Noted rest β}
    {g : α → (rest : List Char) → rest <:+ start → Branches → Parse Branches rest β}
    (h : p.Notes store q)
    (hf : ∀ value rest hr store,
      (f value rest hr store).Notes store (g value rest hr store.table)) :
    (p.next f).Notes store (q.next g) := by
  obtain ⟨result, rest, branches, suffix⟩ := p
  obtain ⟨result', rest', table, suffix'⟩ := q
  obtain ⟨hresult, hrest, htable, hgrows⟩ := h
  dsimp only at hresult hrest htable hgrows
  subst hresult hrest htable
  unfold Parse.next
  dsimp only
  split
  · exact ⟨rfl, rfl, rfl, hgrows⟩
  · rename_i value
    have hnext := (hf value rest suffix branches).widen suffix
    exact ⟨hnext.result, hnext.rest, hnext.table, hgrows.trans hnext.grows⟩

end Parse.Notes

theorem expect_notes (mark : Char) (cs : List Char) (store : Noted) :
    (expect mark cs store).Notes store (expect mark cs store.table) := by
  unfold expect
  split
  · split
    · exact ⟨rfl, rfl, rfl, .refl _ _⟩
    · exact .fail store _
  · exact .fail store _

mutual

theorem shift_notes (delimiters : List String) (s : State) (cs : List Char) (store : Noted) :
    (shift delimiters s cs store).Notes store (shift delimiters s cs store.table) := by
  by_cases hc : Continues delimiters cs
  · cases hn : nextToken cs with
    | error fault =>
      rw [shift_fault hc hn, shift_fault hc hn]
      exact .fail store _
    | ok found =>
      obtain ⟨token, followed, rest⟩ := found
      obtain ⟨hr, hlt⟩ := nextToken_suffix hn
      rw [shift_token hc hn, shift_token hc hn]
      cases action s followed token <;> dsimp only [perform]
      case push item => exact (shift_notes delimiters _ rest store).widen hr
      case comma => exact (shift_notes delimiters _ rest store).widen hr
      case group =>
        refine Parse.Notes.widen ?_ hr
        refine (subexpression_notes [")"] rest store).next fun tree cs' h' store => ?_
        refine (expect_notes ')' cs' store).next fun _ after' h'' store => ?_
        have hb := skipBlank_suffix after'
        have := (hb.trans (h''.trans h')).length_le
        exact (shift_notes delimiters _ (skipBlank after') store).widen hb
      case call callee =>
        refine Parse.Notes.widen ?_ hr
        refine (arguments_notes rest store).next fun args after' h' store => ?_
        have hb := skipBlank_suffix after'
        have := (hb.trans h').length_le
        exact (shift_notes delimiters _ (skipBlank after') store).widen hb
      case subscript array =>
        refine Parse.Notes.widen ?_ hr
        refine (subexpression_notes ["]"] rest store).next fun tree cs' h' store => ?_
        refine (expect_notes ']' cs' store).next fun _ after' h'' store => ?_
        have hb := skipBlank_suffix after'
        have := (hb.trans (h''.trans h')).length_le
        exact (shift_notes delimiters _ (skipBlank after') store).widen hb
      case ternary item =>
        obtain ⟨hfound, htable, hgrows⟩ := branch_notes rest store
        rw [← Prod.eta (branch rest store), ← Prod.eta (branch rest store.table), hfound, ← htable]
        have hgrows := hgrows.mono (Nat.succ_le_of_lt hlt)
        cases (branch rest store.table).1 with
        | none =>
          have hshift := (shift_notes delimiters (s.push item followed) rest
            (branch rest store).2).widen hr
          exact ⟨hshift.result, hshift.rest, hshift.table, hgrows.trans hshift.grows⟩
        | some found =>
          have hd := List.drop_suffix found.2 rest
          have := hd.length_le
          have hshift := (shift_notes delimiters (s.push (.branch found.1) true)
            (rest.drop found.2) (branch rest store).2).widen (hd.trans hr)
          exact ⟨hshift.result, hshift.rest, hshift.table, hgrows.trans hshift.grows⟩
      case refuse text => exact (Parse.Notes.fail store _).widen hr
  · rw [shift_stop hc, shift_stop hc]
    exact ⟨rfl, rfl, rfl, .refl _ _⟩
termination_by 4 * cs.length

theorem subexpression_notes (delimiters : List String) (cs : List Char) (store : Noted) :
    (subexpression delimiters cs store).Notes store (subexpression delimiters cs store.table) := by
  have hb := skipBlank_suffix cs
  have := hb.length_le
  rw [subexpression, subexpression]
  exact (shift_notes delimiters .start (skipBlank cs) store).widen hb
termination_by 4 * cs.length + 1

theorem arguments_notes (cs : List Char) (store : Noted) :
    (arguments cs store).Notes store (arguments cs store.table) := by
  rw [arguments.eq_def, arguments.eq_def]
  cases cs with
  | nil => exact someArguments_notes [] store
  | cons c rest =>
    dsimp only
    split
    · exact ⟨rfl, rfl, rfl, .refl _ _⟩
    · exact someArguments_notes (c :: rest) store
termination_by 4 * cs.length + 3

theorem someArguments_notes (cs : List Char) (store : Noted) :
    (someArguments cs store).Notes store (someArguments cs store.table) := by
  rw [someArguments_eq, someArguments_eq]
  refine (subexpression_notes [",", ")"] cs store).next fun tree after h store => ?_
  have := h.length_le
  cases after with
  | nil => exact (expect_notes ')' [] store).map _
  | cons c rest =>
    dsimp only [followArgument]
    split
    · exact ((someArguments_notes rest store).map _).widen _
    · exact (expect_notes ')' _ store).map _
termination_by 4 * cs.length + 2

theorem branch_notes (cs : List Char) (store : Noted) :
    (branch cs store).1 = (branch cs store.table).1 ∧
      (branch cs store).2.table = (branch cs store.table).2 ∧
      store.Grows (cs.length + 1) (branch cs store).2 := by
  have hfind : BranchTable.find? store cs.length = store.table[cs.length]? := rfl
  have hfind' : BranchTable.find? store.table cs.length = store.table[cs.length]? := rfl
  rw [branch.eq_def cs store, branch.eq_def cs store.table, hfind, hfind']
  cases hk : store.table[cs.length]? with
  | some known => exact ⟨rfl, rfl, .refl _ _⟩
  | none =>
    obtain ⟨hresult, hrest, htable, hgrows⟩ :=
      subexpression_notes [":"] cs (BranchTable.enter store cs.length)
    have henter : (BranchTable.enter store cs.length).table =
      BranchTable.enter store.table cs.length := rfl
    rw [henter] at hresult hrest htable
    dsimp only
    rw [hresult, hrest, ← htable]
    exact ⟨rfl, rfl, hgrows.insert hk _⟩
termination_by 4 * cs.length + 2

end

/-- Several readings do to the store what one does. -/
theorem readings_notes (calls : List (List String)) (cs : List Char) (store : Noted) :
    (readings calls cs store).1 = (readings calls cs store.table).1 ∧
      (readings calls cs store).2.table = (readings calls cs store.table).2 ∧
      store.Grows cs.length (readings calls cs store).2 := by
  induction calls generalizing cs store with
  | nil => exact ⟨rfl, rfl, .refl _ _⟩
  | cons delimiters later ih =>
    obtain ⟨hresult, hrest, htable, hgrows⟩ := subexpression_notes delimiters cs store
    obtain ⟨houtcomes, hbranches, hlater⟩ := ih (subexpression delimiters cs store).rest
      (subexpression delimiters cs store).branches
    have hlength := (subexpression delimiters cs store).suffix.length_le
    simp only [readings]
    rw [houtcomes, hbranches, hresult, hrest, htable] at *
    exact ⟨rfl, rfl, hgrows.trans (hlater.mono hlength)⟩

/-- No later reading changes an entry. -/
theorem readAll_entry (calls : List (List String)) (p : Parser) {place : Nat} {found : Branch}
    (h : p.branches[place]? = some found) :
    (p.readAll calls).2.branches[place]? = some found := by
  obtain ⟨-, htable, hgrows⟩ := readings_notes calls p.rest ⟨p.branches, [], []⟩
  rw [(readAll_eq_readings calls p).2, ← htable]
  exact hgrows.entry h

/-- The store of a parser changes no outcome: whatever is read one after another from a source, up
to any delimiters and also after readings that failed, comes to what it comes to without a store,
and to what it comes to with a new parser for each reading. Entries of the store stay as they are.
With the places listed, a branch is read at most once from one place and written there once, which
is where there is an entry in the end. -/
theorem readAll_transparent (source : String) (earlier later : List (List String)) :
    let calls := earlier ++ later
    let p := ofSource source
    (p.readAll calls).1 = (readings calls source.toList ()).1 ∧
      (p.readAll calls).1 = readAnew calls source ∧
      (∀ (place : Nat) (found : Branch), (p.readAll earlier).2.branches[place]? = some found →
        (p.readAll calls).2.branches[place]? = some found) ∧
      ∃ read written : List Nat, read.Nodup ∧ written.Nodup ∧
        (∀ place, place ∈ read ↔ place ∈ (p.readAll calls).2.branches) ∧
        (∀ place, place ∈ written ↔ place ∈ (p.readAll calls).2.branches) ∧
        readings calls source.toList (⟨∅, [], []⟩ : Noted) =
          ((p.readAll calls).1, ⟨(p.readAll calls).2.branches, read, written⟩) := by
  intro calls p
  obtain ⟨houtcomes, hbranches⟩ := readAll_eq_readings calls p
  have hforgetful : (p.readAll calls).1 = (readings calls source.toList ()).1 :=
    houtcomes.trans (readings_forgetful calls List.suffix_rfl (Branches.faithful_empty _))
  have hanew := readAnew_eq_readings calls source.toList
  rw [String.ofList_toList] at hanew
  obtain ⟨hnoted, htable, hgrows⟩ := readings_notes calls source.toList ⟨∅, [], []⟩
  replace htable := htable.trans hbranches.symm
  obtain ⟨hread, hwritten, hentries, hknown⟩ := hgrows.once Noted.once_empty nofun
  refine ⟨hforgetful, hforgetful.trans hanew.symm, ?_, _, _, hread, hwritten, ?_, ?_, ?_⟩
  · intro place found hfound
    rw [readAll_append]
    exact readAll_entry later _ hfound
  · intro place
    rw [← htable]
    refine ⟨fun hplace => ?_, hknown place⟩
    exact (hgrows.read place hplace).resolve_left List.not_mem_nil
  · exact fun place => htable ▸ hentries place
  · rw [houtcomes, ← htable]
    exact Prod.ext hnoted rfl

end Formula.Parser
