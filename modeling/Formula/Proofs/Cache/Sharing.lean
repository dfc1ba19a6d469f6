import Formula.Cache
import Mathlib.Data.Finset.Card
import Mathlib.Logic.Function.Basic

/-! A cache that clients share. To read a source a client looks it up and, if it is not there, parses
and inserts it later; others take their turns in between. Main statement: every client reads what the
source parses to, malformed or not, and the cache has the sources that were read and not cleared
since. -/
namespace Formula.Cache

/-- What a client asks of a cache. -/
inductive Request where
  | read (source : String)
  | clear (source : String)
  | clearAll
  | contains (source : String)
  | size

inductive Answer where
  | tree (tree : Tree Float)
  | done
  | found (found : Bool)
  | count (count : Nat)

/-- Serves a request at once. -/
def serve (c : Cache) : Request → Answer × Cache
  | .read source => (.tree (c.read source).1, (c.read source).2)
  | .clear source => (.done, c.clear source)
  | .clearAll => (.done, {})
  | .contains source => (.found (c.contains source), c)
  | .size => (.count c.size, c)

/-- Serves one request after another. -/
def serveAll (c : Cache) : List Request → List (Request × Answer) × Cache
  | [] => ([], c)
  | request :: requests =>
    let (others, final) := (c.serve request).2.serveAll requests
    ((request, (c.serve request).1) :: others, final)

/-! ### What a cache has after requests -/

def Request.Clears (source : String) : Request → Prop
  | .clear other => other = source
  | .clearAll => True
  | _ => False

/-- The source was read, and no request cleared it since. -/
def Kept (requests : List Request) (source : String) : Prop :=
  ∃ before after, requests = before ++ .read source :: after ∧ ∀ r ∈ after, ¬ r.Clears source

@[simp] theorem not_kept_nil (source : String) : ¬ Kept [] source := by
  rintro ⟨before, after, h, -⟩
  simp at h

@[simp] theorem kept_concat {requests : List Request} {r : Request} {source : String} :
    Kept (requests ++ [r]) source ↔
      r = .read source ∨ Kept requests source ∧ ¬ r.Clears source := by
  constructor
  · -- The last request is the read itself, or one of those after it.
    rintro ⟨before, after, h, hafter⟩
    induction after using List.reverseRecOn with
    | nil => exact .inl (by simpa using (List.append_inj' h rfl).2)
    | append_singleton after last _ =>
      rw [← List.cons_append, ← List.append_assoc] at h
      obtain ⟨hrequests, hlast⟩ := List.append_inj' h rfl
      obtain rfl : r = last := by simpa using hlast
      exact .inr ⟨⟨before, after, hrequests, fun x hx => hafter x (by simp [hx])⟩,
        hafter r (by simp)⟩
  · rintro (rfl | ⟨⟨before, after, rfl, hafter⟩, hr⟩)
    · exact ⟨requests, [], rfl, by simp⟩
    · refine ⟨before, after ++ [r], by simp, fun x hx => ?_⟩
      rcases List.mem_append.1 hx with hx | hx
      · exact hafter x hx
      · obtain rfl : x = r := by simpa using hx
        exact hr

/-- The entries are the sources that the requests left, each with its tree. -/
def Reflects (c : Cache) (requests : List Request) : Prop :=
  ∀ source tree, c.find? source = some tree ↔
    tree = Tree.ofSource source ∧ Kept requests source

namespace Reflects

variable {c : Cache} {requests : List Request} {source : String}

theorem empty : Reflects {} [] := by
  intro source tree
  simp [find?_empty]

theorem contains_iff (h : c.Reflects requests) : c.contains source = true ↔ Kept requests source := by
  simp [contains_eq_isSome, Option.isSome_iff_exists, h source]

theorem size_eq (h : c.Reflects requests) :
    ∃ sources : Finset String, (∀ source, source ∈ sources ↔ Kept requests source) ∧
      c.size = sources.card := by
  refine ⟨c.entries.keys.toFinset, fun source => ?_, ?_⟩
  · rw [List.mem_toFinset, Std.HashMap.mem_keys, ← Std.HashMap.contains_iff_mem]
    exact h.contains_iff
  · rw [List.toFinset_card_of_nodup Std.HashMap.nodup_keys, Std.HashMap.length_keys, size]

/-- An insertion may come late: the entry may be there already, or may have been cleared since the
look-up. -/
theorem insert (h : c.Reflects requests) :
    (c.insert source (Tree.ofSource source)).Reflects (requests ++ [.read source]) := by
  intro other tree
  rw [find?_insert, kept_concat]
  split
  · next heq => simp [heq, eq_comm]
  · next hne => simp [h other tree, hne, Request.Clears]

theorem hit {tree : Tree Float} (h : c.Reflects requests) (hfound : c.find? source = some tree) :
    c.Reflects (requests ++ [.read source]) := by
  intro other found
  have hkept := ((h source tree).1 hfound).2
  rw [h other found, kept_concat]
  by_cases heq : source = other
  · subst heq
    simp [hkept]
  · simp [heq, Request.Clears]

theorem clear (h : c.Reflects requests) :
    (c.clear source).Reflects (requests ++ [.clear source]) := by
  intro other tree
  rw [find?_clear, kept_concat]
  split
  · next heq => simp [heq, Request.Clears]
  · next hne => simp [h other tree, hne, Request.Clears]

theorem clearAll : Reflects {} (requests ++ [.clearAll]) := by
  intro source tree
  simp [find?_empty, Request.Clears]

/-- Requests that only look leave what is kept as it was. -/
theorem look {r : Request} (h : c.Reflects requests) (hread : ∀ source, r ≠ .read source)
    (hclear : ∀ source, ¬ r.Clears source) : c.Reflects (requests ++ [r]) := by
  intro source tree
  simp [h source tree, hread, hclear]

end Reflects

/-! ### Answers -/

/-- What a request is answered after the earlier ones. -/
def Fits (earlier : List Request) : Request → Answer → Prop
  | .read source, .tree tree => tree = Tree.ofSource source
  | .clear _, .done => True
  | .clearAll, .done => True
  | .contains source, .found found => found = true ↔ Kept earlier source
  | .size, .count count =>
    ∃ sources : Finset String, (∀ source, source ∈ sources ↔ Kept earlier source) ∧
      count = sources.card
  | _, _ => False

/-- Every answer fits the requests before it. -/
def Truthful : List Request → List (Request × Answer) → Prop
  | _, [] => True
  | earlier, (r, answer) :: log => Fits earlier r answer ∧ Truthful (earlier ++ [r]) log

theorem truthful_append {earlier : List Request} {log others : List (Request × Answer)} :
    Truthful earlier (log ++ others) ↔
      Truthful earlier log ∧ Truthful (earlier ++ log.map Prod.fst) others := by
  induction log generalizing earlier with
  | nil => simp [Truthful]
  | cons exchange log ih => simp [Truthful, ih, and_assoc]

theorem Truthful.read {earlier : List Request} {log : List (Request × Answer)} {source : String}
    {answer : Answer} (h : Truthful earlier log) (hmem : (.read source, answer) ∈ log) :
    answer = .tree (Tree.ofSource source) := by
  obtain ⟨before, after, rfl⟩ := List.append_of_mem hmem
  have hfits : Fits _ (.read source) answer := (truthful_append.1 h).2.1
  cases answer with
  | tree tree => exact congrArg _ hfits
  | done => exact hfits.elim
  | found => exact hfits.elim
  | count => exact hfits.elim

variable {c : Cache} {requests : List Request}

/-- One request keeps the invariant, and its answer fits. -/
theorem Reflects.serve (h : c.Reflects requests) (r : Request) :
    Fits requests r (c.serve r).1 ∧ (c.serve r).2.Reflects (requests ++ [r]) := by
  cases r with
  | read source =>
    cases hfind : c.find? source with
    | none =>
      simp only [Cache.serve, read, hfind]
      exact ⟨rfl, h.insert⟩
    | some tree =>
      simp only [Cache.serve, read, hfind]
      exact ⟨((h source tree).1 hfind).1, h.hit hfind⟩
  | clear source => exact ⟨trivial, h.clear⟩
  | clearAll => exact ⟨trivial, .clearAll⟩
  | contains source => exact ⟨h.contains_iff, h.look (by simp) fun _ => id⟩
  | size => exact ⟨h.size_eq, h.look (by simp) fun _ => id⟩

theorem Reflects.serveAll (h : c.Reflects requests) (more : List Request) :
    Truthful requests (c.serveAll more).1 ∧ (c.serveAll more).2.Reflects (requests ++ more) := by
  induction more generalizing c requests with
  | nil => exact ⟨trivial, by simpa [Cache.serveAll] using h⟩
  | cons r more ih =>
    obtain ⟨hfits, hserved⟩ := h.serve r
    obtain ⟨htruthful, hfinal⟩ := ih hserved
    exact ⟨⟨hfits, htruthful⟩, by simpa [Cache.serveAll] using hfinal⟩

@[simp] theorem map_fst_serveAll (c : Cache) (requests : List Request) :
    (c.serveAll requests).1.map Prod.fst = requests := by
  induction requests generalizing c with
  | nil => rfl
  | cons r requests ih => simp [serveAll, ih]

/-! ### Clients -/

/-- The requests that a client has not made yet, and the source that it has looked up in vain. -/
structure Client where
  program : List Request
  missed : Option String := none

namespace Client

/-- What the client still waits for. -/
def pending (client : Client) : List Request :=
  (client.missed.map Request.read).toList ++ client.program

/-- How many turns the client needs at most. -/
def turnsLeft (client : Client) : Nat :=
  client.missed.toList.length + 2 * client.program.length

/-- One turn of a client, which may serve a request. A source that is not in the cache is parsed and
inserted in a turn of its own. -/
def turn (client : Client) (c : Cache) : Option (Request × Answer) × Client × Cache :=
  match client.missed with
  | some source =>
    let tree := Tree.ofSource source
    (some (.read source, .tree tree), ⟨client.program, none⟩, c.insert source tree)
  | none =>
    match client.program with
    | [] => (none, client, c)
    | request :: program =>
      match request with
      | .read source =>
        if (c.find? source).isNone then (none, ⟨program, some source⟩, c)
        else (some (request, (c.serve request).1), ⟨program, none⟩, (c.serve request).2)
      | request => (some (request, (c.serve request).1), ⟨program, none⟩, (c.serve request).2)

/-- What a turn can be. -/
inductive Turn : Client → Cache → Option (Request × Answer) × Client × Cache → Prop where
  | idle {c : Cache} : Turn ⟨[], none⟩ c (none, ⟨[], none⟩, c)
  | miss {c : Cache} {source : String} {program : List Request} (hmiss : c.find? source = none) :
    Turn ⟨.read source :: program, none⟩ c (none, ⟨program, some source⟩, c)
  | insert {c : Cache} {source : String} {program : List Request} :
    Turn ⟨program, some source⟩ c
      (some (.read source, .tree (Tree.ofSource source)), ⟨program, none⟩,
        c.insert source (Tree.ofSource source))
  | serve {c : Cache} {request : Request} {program : List Request}
    (hhit : ∀ source, request = .read source → c.find? source ≠ none) :
    Turn ⟨request :: program, none⟩ c
      (some (request, (c.serve request).1), ⟨program, none⟩, (c.serve request).2)

theorem turn_cases (client : Client) (c : Cache) : Turn client c (client.turn c) := by
  obtain ⟨program, _ | source⟩ := client
  · cases program with
    | nil => exact .idle
    | cons request program =>
      cases request with
      | read source =>
        cases hfind : c.find? source with
        | none => simpa [turn, hfind] using Turn.miss hfind
        | some tree =>
          have hhit : ∀ other, Request.read source = .read other → c.find? other ≠ none := by
            rintro other ⟨⟩
            simp [hfind]
          simpa [turn, hfind] using Turn.serve hhit
      | clear source => exact .serve nofun
      | clearAll => exact .serve nofun
      | contains source => exact .serve nofun
      | size => exact .serve nofun
  · exact .insert

variable {client client' : Client} {c c' : Cache} {served : Option (Request × Answer)}

theorem Turn.reflects {requests : List Request} (hturn : Turn client c (served, client', c'))
    (h : c.Reflects requests) :
    Truthful requests served.toList ∧ c'.Reflects (requests ++ served.toList.map Prod.fst) := by
  cases hturn with
  | idle => simpa [Truthful] using h
  | miss => simpa [Truthful] using h
  | insert => exact ⟨⟨rfl, trivial⟩, h.insert⟩
  | serve => exact ⟨⟨(h.serve _).1, trivial⟩, (h.serve _).2⟩

theorem Turn.pending_eq (hturn : Turn client c (served, client', c')) :
    client.pending = served.toList.map Prod.fst ++ client'.pending := by
  cases hturn <;> rfl

theorem Turn.turnsLeft_le (hturn : Turn client c (served, client', c')) :
    client'.turnsLeft ≤ client.turnsLeft - 1 := by
  cases hturn <;> simp [turnsLeft] <;> omega

theorem pending_eq_nil (h : client.turnsLeft = 0) : client.pending = [] := by
  obtain ⟨_ | _, _ | _⟩ := client <;> simp_all [turnsLeft, pending]

/-- In a cache that nobody else changed, what was missed is missing still. -/
theorem Turn.serveAll_pending (hturn : Turn client c (served, client', c'))
    (hmissed : ∀ source, client.missed = some source → c.find? source = none) :
    (∀ source, client'.missed = some source → c'.find? source = none) ∧
      c.serveAll client.pending =
        (served.toList ++ (c'.serveAll client'.pending).1, (c'.serveAll client'.pending).2) := by
  cases hturn with
  | idle => exact ⟨hmissed, rfl⟩
  | miss hmiss => exact ⟨by rintro source ⟨⟩; exact hmiss, rfl⟩
  | @insert _ source =>
    refine ⟨nofun, ?_⟩
    simp [pending, Cache.serveAll, Cache.serve, read, hmissed source rfl]
  | serve => exact ⟨nofun, rfl⟩

end Client

/-! ### Interleavings -/

/-- A cache and its clients. -/
structure Shared (ι : Type) where
  cache : Cache := {}
  clients : ι → Client

namespace Shared

variable {ι : Type} [DecidableEq ι]

def start (programs : ι → List Request) : Shared ι := ⟨{}, fun i => ⟨programs i, none⟩⟩

/-- A turn of one client. -/
def step (i : ι) (s : Shared ι) : List (ι × Request × Answer) × Shared ι :=
  let (served, client, cache) := (s.clients i).turn s.cache
  (served.toList.map (i, ·), ⟨cache, Function.update s.clients i client⟩)

/-- The clients take turns in any order. -/
def run : List ι → Shared ι → List (ι × Request × Answer) × Shared ι
  | [], s => ([], s)
  | i :: schedule, s =>
    let (others, final) := (s.step i).2.run schedule
    ((s.step i).1 ++ others, final)

/-- What a client was served, in order. -/
def requestsOf (i : ι) (log : List (ι × Request × Answer)) : List Request :=
  (log.filter (·.1 = i)).map (·.2.1)

theorem requestsOf_append (i : ι) (log others : List (ι × Request × Answer)) :
    requestsOf i (log ++ others) = requestsOf i log ++ requestsOf i others := by
  simp [requestsOf]

theorem step_turn (i : ι) (s : Shared ι) :
    ∃ served : Option (Request × Answer), (s.step i).1 = served.toList.map (i, ·) ∧
      Client.Turn (s.clients i) s.cache (served, (s.step i).2.clients i, (s.step i).2.cache) ∧
      ∀ j, j ≠ i → (s.step i).2.clients j = s.clients j := by
  refine ⟨((s.clients i).turn s.cache).1, rfl, ?_, fun j hj => Function.update_of_ne hj _ _⟩
  simpa [step] using (s.clients i).turn_cases s.cache

theorem step_reflects (i : ι) {s : Shared ι} {requests : List Request}
    (h : s.cache.Reflects requests) :
    Truthful requests ((s.step i).1.map Prod.snd) ∧
      (s.step i).2.cache.Reflects (requests ++ (s.step i).1.map (·.2.1)) := by
  obtain ⟨served, hlog, hturn, -⟩ := step_turn i s
  simpa [hlog, Function.comp_def] using hturn.reflects h

theorem step_pending (i j : ι) (s : Shared ι) :
    (s.clients j).pending = requestsOf j (s.step i).1 ++ ((s.step i).2.clients j).pending := by
  obtain ⟨served, hlog, hturn, hothers⟩ := step_turn i s
  by_cases hj : j = i
  · subst hj
    simpa [hlog, requestsOf, List.filter_map, Function.comp_def] using hturn.pending_eq
  · have hne : i ≠ j := fun h => hj h.symm
    simp [hlog, hothers j hj, requestsOf, List.filter_map, Function.comp_def, hne]

theorem step_turnsLeft (i j : ι) (s : Shared ι) :
    ((s.step i).2.clients j).turnsLeft ≤ (s.clients j).turnsLeft - [i].count j := by
  obtain ⟨served, hlog, hturn, hothers⟩ := step_turn i s
  by_cases hj : j = i
  · subst hj
    simpa using hturn.turnsLeft_le
  · have hne : i ≠ j := fun h => hj h.symm
    simp [hothers j hj, hne]

theorem run_reflects (schedule : List ι) {s : Shared ι} {requests : List Request}
    (h : s.cache.Reflects requests) :
    Truthful requests ((s.run schedule).1.map Prod.snd) ∧
      (s.run schedule).2.cache.Reflects (requests ++ (s.run schedule).1.map (·.2.1)) := by
  induction schedule generalizing s requests with
  | nil => simpa [run, Truthful] using h
  | cons i schedule ih =>
    obtain ⟨hfirst, hstep⟩ := step_reflects i h
    obtain ⟨hothers, hfinal⟩ := ih hstep
    simp only [run, List.map_append, truthful_append, List.map_map, ← List.append_assoc]
    exact ⟨⟨hfirst, hothers⟩, hfinal⟩

theorem run_pending (schedule : List ι) (s : Shared ι) (j : ι) :
    (s.clients j).pending =
      requestsOf j (s.run schedule).1 ++ ((s.run schedule).2.clients j).pending := by
  induction schedule generalizing s with
  | nil => simp [run, requestsOf]
  | cons i schedule ih =>
    rw [step_pending i j s, ih, run, requestsOf_append, List.append_assoc]

theorem run_turnsLeft (schedule : List ι) (s : Shared ι) (j : ι) :
    ((s.run schedule).2.clients j).turnsLeft ≤ (s.clients j).turnsLeft - schedule.count j := by
  induction schedule generalizing s with
  | nil => simp [run]
  | cons i schedule ih =>
    have hstep := step_turnsLeft i j s
    have hrest := ih (s.step i).2
    have hcount : (i :: schedule).count j = [i].count j + schedule.count j := by
      rw [← List.count_append, List.singleton_append]
    simp only [run]
    omega

/-- A client that takes every turn is served as if each request was served at once. -/
theorem run_alone (i : ι) {n : ℕ} {s : Shared ι}
    (hmissed : ∀ source, (s.clients i).missed = some source → s.cache.find? source = none)
    (hn : (s.clients i).turnsLeft ≤ n) :
    ((s.run (List.replicate n i)).1.map Prod.snd, (s.run (List.replicate n i)).2.cache) =
      s.cache.serveAll (s.clients i).pending := by
  induction n generalizing s with
  | zero => simp [Client.pending_eq_nil (Nat.eq_zero_of_le_zero hn), run, serveAll]
  | succ n ih =>
    obtain ⟨served, hlog, hturn, -⟩ := step_turn i s
    obtain ⟨hmissed', hserve⟩ := hturn.serveAll_pending hmissed
    have hrest := ih hmissed' (hturn.turnsLeft_le.trans (Nat.sub_le_of_le_add hn))
    rw [hserve, ← hrest]
    simp [List.replicate_succ, run, hlog, Function.comp_def]

end Shared

/-- Clients take turns in any order: every entry is what its source parses to, so every read gives
that; all answers fit the requests that were served before; and a client gets the answers to its
requests in order, to all of them when it had two turns for each. A client that takes every turn is
served as if each request was served at once, and requests that are served so leave the sources that
were read and not cleared since. -/
theorem interleaving_transparent {ι : Type} [DecidableEq ι] (programs : ι → List Request) :
    (∀ schedule : List ι,
      let (log, s) := (Shared.start programs).run schedule
      (∀ source tree, s.cache.find? source = some tree → tree = Tree.ofSource source) ∧
      (∀ i source answer, (i, .read source, answer) ∈ log → answer = .tree (Tree.ofSource source)) ∧
      Truthful [] (log.map Prod.snd) ∧
      ∀ i, Shared.requestsOf i log ++ (s.clients i).pending = programs i ∧
        (2 * (programs i).length ≤ schedule.count i → (s.clients i).pending = [])) ∧
    (∀ i n, 2 * (programs i).length ≤ n →
      let (log, s) := (Shared.start programs).run (List.replicate n i)
      (log.map Prod.snd, s.cache) = ({} : Cache).serveAll (programs i)) ∧
    ∀ requests : List Request,
      let (log, c) := ({} : Cache).serveAll requests
      log.map Prod.fst = requests ∧ Truthful [] log ∧
      (∀ source, c.contains source = true ↔ Kept requests source) ∧
      ∃ sources : Finset String, (∀ source, source ∈ sources ↔ Kept requests source) ∧
        c.size = sources.card := by
  refine ⟨fun schedule => ?_, fun i n hn => ?_, fun requests => ?_⟩
  · obtain ⟨htruthful, hfinal⟩ :=
      Shared.run_reflects (s := Shared.start programs) schedule Reflects.empty
    refine ⟨fun source tree hfind => ((hfinal source tree).1 hfind).1,
      fun i source answer hmem => htruthful.read (List.mem_map_of_mem hmem), htruthful,
      fun i => ⟨(Shared.run_pending schedule _ i).symm, fun hturns => ?_⟩⟩
    have hleft := Shared.run_turnsLeft schedule (Shared.start programs) i
    refine Client.pending_eq_nil (Nat.eq_zero_of_le_zero (hleft.trans ?_))
    simpa [Shared.start, Client.turnsLeft, Nat.sub_eq_zero_iff_le] using hturns
  · exact Shared.run_alone i (s := Shared.start programs) nofun
      (by simpa [Shared.start, Client.turnsLeft] using hn)
  · obtain ⟨htruthful, hfinal⟩ := Reflects.empty.serveAll requests
    exact ⟨map_fst_serveAll _ _, htruthful, fun _ => hfinal.contains_iff, hfinal.size_eq⟩

end Formula.Cache
