import Formula.CommandLine.Run
import Formula.Proofs.Cache.Sharing
import Formula.Proofs.Parser.Printed

/-! The lines of the input, answered in order with one cache. Main statement: what is printed and
what fails for a line depends on that line alone, whatever the lines before it have left in the
cache and however they have failed. -/
namespace Formula.CommandLine

open Formula.Parser

/-! ### Lines -/

theorem linesOf_eq_splitOn (cs : List Char) : linesOf cs = cs.splitOn '\n' := by
  induction cs with
  | nil => rfl
  | cons c cs ih =>
    rw [linesOf, List.splitOn_cons_eq_if_modifyHead, ih]
    by_cases hc : c = '\n'
    · rw [if_pos hc, if_pos (beq_iff_eq.2 hc)]
    · rw [if_neg hc, if_neg (mt beq_iff_eq.1 hc)]
      cases hlines : cs.splitOn '\n' with
      | nil => exact absurd hlines (List.splitOn_ne_nil _ _)
      | cons line lines => rfl

/-- The sources are the lines without the white space around them, those that are empty left out. -/
theorem sourcesOf_eq (input : String) : sourcesOf input =
    (((input.toList.splitOn '\n').map Charset.trim).filter (!·.isEmpty)).map String.ofList := by
  rw [sourcesOf, linesOf_eq_splitOn]
  induction (input.toList.splitOn '\n').map Charset.trim with
  | nil => rfl
  | cons line lines ih =>
    rw [List.filterMap_cons, List.filter_cons, ih]
    cases line <;> rfl

/-- A line feed keeps what is before it apart from what is after it. -/
theorem sourcesOf_append (input more : String) :
    sourcesOf (input ++ "\n" ++ more) = sourcesOf input ++ sourcesOf more := by
  have hchars : (input ++ "\n" ++ more).toList = input.toList ++ '\n' :: more.toList := by
    rw [String.toList_append, String.toList_append, List.append_assoc]
    rfl
  have hlines : (input ++ "\n" ++ more).toList.splitOn '\n' =
      input.toList.splitOn '\n' ++ more.toList.splitOn '\n' := by
    rw [hchars]
    exact List.splitOnP_append_cons _ _ (beq_self_eq_true '\n')
  simp only [sourcesOf_eq, hlines, List.map_append, List.filter_append]

namespace Invocation

variable {i : Invocation} {c : Cache} {requests : List Cache.Request}

/-! ### One source -/

/-- The answer to a source that was read. -/
def reply (i : Invocation) (source : String) (tree : Tree Float) : Except Failure String :=
  match tree.error? with
  | some error => .error (.report ⟨error, source⟩)
  | none => if i.has .anyValue then i.answerValue source tree else i.answerNumber source tree

/-- The answer to a source with nothing in the cache. -/
def alone (i : Invocation) (source : String) : Except Failure String := (i.answer source {}).1

/-- What a source adds to the output. -/
def printed? (i : Invocation) (source : String) : Option String :=
  match i.alone source with
  | .ok text => some (text ++ "\n")
  | .error _ => none

def failure? (i : Invocation) (source : String) : Option Failure :=
  match i.alone source with
  | .ok _ => none
  | .error failure => some failure

/-- The cache serves to read the source, and for nothing else. -/
theorem answer_eq (i : Invocation) (source : String) (c : Cache) : i.answer source c =
    if i.has .noCache then (i.reply source (Tree.ofSource source), c)
    else (i.reply source (c.read source).1, (c.read source).2) := by
  have hreply (tree : Tree Float) (c : Cache) :
      ((match tree.error? with
        | some error => return .error (.report ⟨error, source⟩)
        | none => return if i.has .anyValue then i.answerValue source tree
            else i.answerNumber source tree) : StateM Cache (Except Failure String)) c =
        (i.reply source tree, c) := by
    unfold reply
    cases tree.error? <;> rfl
  unfold answer
  cases i.has .noCache with
  | false => exact hreply (c.read source).1 (c.read source).2
  | true => exact hreply (Tree.ofSource source) c

/-- What is left in a cache by earlier sources does not show in an answer. -/
theorem answer_reflects (h : c.Reflects requests) (source : String) :
    (i.answer source c).1 = i.reply source (Tree.ofSource source) ∧
      ∃ later, (i.answer source c).2.Reflects later := by
  obtain ⟨hread, hlater⟩ := h.serve (.read source)
  have htree : (c.read source).1 = Tree.ofSource source := hread
  rw [answer_eq]
  cases i.has .noCache with
  | false => exact ⟨congrArg (i.reply source) htree, _, hlater⟩
  | true => exact ⟨rfl, requests, h⟩

theorem answer_alone (h : c.Reflects requests) (source : String) :
    (i.answer source c).1 = i.alone source :=
  (answer_reflects h source).1.trans (answer_reflects Cache.Reflects.empty source).1.symm

/-! ### All sources -/

/-- Sources are answered in order, each as if it stood alone. -/
theorem answerAll_alone (h : c.Reflects requests) (sources : List String) :
    (i.answerAll sources c).1 =
      (String.join (sources.filterMap i.printed?), sources.filterMap i.failure?) := by
  induction sources generalizing c requests with
  | nil => rfl
  | cons source sources ih =>
    obtain ⟨-, later, hlater⟩ := answer_reflects (i := i) h source
    have hanswer := answer_alone (i := i) h source
    have hrest := ih hlater
    rcases hfirst : i.answer source c with ⟨result, c'⟩
    rcases hothers : i.answerAll sources c' with ⟨⟨output, failed⟩, c''⟩
    rw [hfirst] at hanswer hrest
    rw [hothers] at hrest
    obtain ⟨rfl, rfl⟩ := Prod.mk.inj hrest
    obtain rfl : result = i.alone source := hanswer
    rw [List.filterMap_cons, List.filterMap_cons, printed?, failure?]
    simp only [answerAll, bind, StateT.bind, hfirst, hothers]
    cases i.alone source with
    | ok text =>
      simp only [String.join_cons]
      rfl
    | error failure => rfl

/-- Without an expression, what is printed are the answers to the lines in order, a line of white
space left out, each answer as if its line stood alone, and the lines that fail alone are the ones
that fail. The run succeeds if there are none, and fails with their number otherwise. So a text
before a line feed and the one after it are answered apart. -/
theorem run_lines (i : Invocation) (h : i.expression = none) (input : String) :
    let sources :=
      (((input.toList.splitOn '\n').map Charset.trim).filter (!·.isEmpty)).map String.ofList
    let count := sources.countP fun source => (i.failure? source).isSome
    (i.run input).output = String.join (sources.filterMap i.printed?) ∧
    (i.run input).failed = sources.filterMap i.failure? ∧
    (i.run input).failure.map Failure.text =
      (if count = 0 then none
        else some (toString count ++ (if count = 1 then " expression" else " expressions") ++
          " failed")) ∧
    ∀ more, (i.run (input ++ "\n" ++ more)).output = (i.run input).output ++ (i.run more).output ∧
      (i.run (input ++ "\n" ++ more)).failed = (i.run input).failed ++ (i.run more).failed := by
  have hrun (input : String) : i.run input =
      (let failed := (sourcesOf input).filterMap i.failure?
      ⟨String.join ((sourcesOf input).filterMap i.printed?), failed,
        if failed.isEmpty then none else some (.lines failed.length)⟩) := by
    have hall := answerAll_alone (i := i) Cache.Reflects.empty (sourcesOf input)
    rw [run, h]
    exact congrArg (fun answers : String × List Failure => (⟨answers.1, answers.2,
      if answers.2.isEmpty then none else some (.lines answers.2.length)⟩ : Outcome)) hall
  intro sources count
  have hsources : sourcesOf input = sources := sourcesOf_eq input
  have hcount : (sources.filterMap i.failure?).length = count := by
    rw [List.length_filterMap_eq_countP]
  refine ⟨by rw [hrun, hsources], by rw [hrun, hsources], ?_, fun more => ?_⟩
  · rw [hrun, hsources]
    dsimp only
    by_cases hnone : count = 0
    · rw [if_pos hnone, if_pos (List.isEmpty_iff_length_eq_zero.2 (hcount.trans hnone))]
      rfl
    · rw [if_neg hnone, if_neg (fun h => hnone (hcount ▸ List.isEmpty_iff_length_eq_zero.1 h)),
        hcount]
      rfl
  · rw [hrun, hrun input, hrun more, sourcesOf_append, List.filterMap_append,
      List.filterMap_append, String.join_append]
    exact ⟨rfl, rfl⟩

/-- A line that cannot be read between two that can. -/
theorem run_lines_refused :
    let i : Invocation := { flags := [.noOptimize, .print] }
    i.expression = none ∧ (i.run "a\n )\n\nb").output = "a\nb\n" ∧
      (i.run "a\n )\n\nb").failure.map Failure.text = some "1 expression failed" := by
  intro i
  have halone (source : String) : i.alone source = i.reply source (Tree.ofSource source) :=
    (answer_reflects Cache.Reflects.empty source).1
  have ha : i.alone "a" = .ok "a" := by
    have hreadable : (Tree.named "a").Readable := .var (by decide)
    have htree : Tree.ofSource "a" = .named "a" := hreadable.ofSource_normal
    rw [halone, htree]
    rfl
  have hb : i.alone "b" = .ok "b" := by
    have hreadable : (Tree.named "b").Readable := .var (by decide)
    have htree : Tree.ofSource "b" = .named "b" := hreadable.ofSource_normal
    rw [halone, htree]
    rfl
  have hrefused : ∃ failure, i.alone ")" = .error failure := by
    have hnext : nextToken [')'] = .ok (.punctuation ')', true, []) := rfl
    have hcontinues : Continues [] [')'] := by simp [Continues, atAny]
    have hread : (subexpression [] ")".toList ()).result = .error (.unexpectedToken ")") := by
      rw [subexpression]
      change (shift [] .start [')'] ()).result = _
      rw [shift_token hcontinues hnext]
      rfl
    have htree : Tree.ofSource ")" = .malformed (.unexpectedToken ")") ")" := by
      unfold Tree.ofSource
      rw [(read_ofSource ")" []).1, hread]
    exact ⟨_, by rw [halone, htree]; rfl⟩
  obtain ⟨failure, hrefused⟩ := hrefused
  have hsources : ((("a\n )\n\nb".toList.splitOn '\n').map Charset.trim).filter
      (!·.isEmpty)).map String.ofList = ["a", ")", "b"] := by decide +kernel
  obtain ⟨hprinted, -, hfailure, -⟩ := run_lines i rfl "a\n )\n\nb"
  rw [hsources] at hprinted hfailure
  refine ⟨rfl, ?_, ?_⟩
  · rw [hprinted]
    simp only [List.filterMap_cons, printed?, ha, hb, hrefused]
    rfl
  · have hcount : ["a", ")", "b"].countP (fun source => (i.failure? source).isSome) = 1 := by
      simp [failure?, ha, hb, hrefused]
    rw [hfailure, hcount]
    rfl

end Invocation
end Formula.CommandLine
