import LuaAnalysis.Proofs.Project.History

/-!
# Answers do not depend on the history of edits

A history is a row of operations: files are registered, in any spelling of their paths and as often
as one likes, and questions are asked in between. What a question answers afterwards is what a new
project answers to which each path was added once, in the order in which the paths first came, with
the last text that it was given.
-/

namespace LuaAnalysis.Project

/-! ## Questions -/

/-- The questions that a project answers. The last four read what earlier questions have left. -/
inductive Query where
  | fileId (path : String)
  | firstPass
  | firstPassResult (path : String)
  | check (entries : List String)
  | checkScattered (path : String)
  | findReferences (path : String) (position : Position)
  | classify (path : String)
  | diagnostics (path : String)
  | allDiagnostics
  | globalSymbols
  | lastCheck

inductive Answer where
  | fileId (file : FileId)
  | firstPass (results : FirstPass)
  | fileResult (result : FileResult)
  | check (result : ProjectResult)
  | places (places : List SymbolLocation)
  | spans (spans : List ColorSpan)
  | diagnostics (diagnostics : List Diagnostic)
  | globalSymbols (symbols : List GlobalSymbol)
  | lastCheck (result : Option ProjectResult)

/-- Whether the answer is worked out anew from the files. -/
def Query.isDirect : Query → Bool
  | fileId _ | firstPass | firstPassResult _ | check _ | checkScattered _ | findReferences _
      _ | classify _ => true
  | diagnostics _ | allDiagnostics | globalSymbols | lastCheck => false

def settle (p : Project) (answer : α → Answer) :
    Except AnalysisError (Project × α) → Project × Except AnalysisError Answer
  | .ok (p', a) => (p', .ok (answer a))
  | .error e => (p, .error e)

def ask (p : Project) : Query → Project × Except AnalysisError Answer
  | .fileId path => (p, .fileId <$> p.fileId path)
  | .firstPass => (p.runFirstPass.1, .ok (.firstPass p.runFirstPass.2))
  | .firstPassResult path => p.settle .fileResult (p.firstPassResult path)
  | .check entries => p.settle .check (p.check entries)
  | .checkScattered path => p.settle .fileResult (p.checkScattered path)
  | .findReferences path position => p.settle .places (p.findReferences path position)
  | .classify path => p.settle .spans (p.classify path)
  | .diagnostics path => (p, .diagnostics <$> p.diagnostics path)
  | .allDiagnostics => (p, .ok (.diagnostics p.allDiagnostics))
  | .globalSymbols => (p, .ok (.globalSymbols p.globalSymbols))
  | .lastCheck => (p, .ok (.lastCheck p.result))

def answers (p : Project) : List Query → List (Except AnalysisError Answer)
  | [] => []
  | q :: qs => (p.ask q).2 :: (p.ask q).1.answers qs

/-! ## Histories -/

inductive Operation where
  | add (path text : String)
  | ask (query : Query)

def apply (p : Project) : Operation → Project
  | .add path text => (p.addFile path text).1
  | .ask query => (p.ask query).1

def new (config : Config) (realtime : Bool) : Project :=
  (ofConfig config).setRealtime realtime

def replay (config : Config) (realtime : Bool) (history : List Operation) : Project :=
  history.foldl apply (new config realtime)

def additions (history : List Operation) : List (String × String) :=
  history.filterMap fun
    | .add path text => some (path, text)
    | .ask _ => none

/-- A new project with the files of a history: each normal path once, in the order in which they
first came, with its last text. -/
def rebuild (config : Config) (realtime : Bool) (history : List Operation) : Project :=
  (FileIndex.textsOf {} (additions history)).entries.foldl (fun p f => (p.addFile f.1 f.2).1)
    (new config realtime)

/-! ## What operations change -/

variable {p p' : Project}
variable {path : String} {history : List Operation} {q : Query}

theorem computeFirstPass_invalidate : p.invalidate.computeFirstPass = p.computeFirstPass :=
  rfl

/-- A question changes neither files nor settings, and leaves no outdated results. -/
theorem Fresh.ask (h : p.Fresh) : (p.ask q).1.Fresh ∧ (p.ask q).1.invalidate = p.invalidate := by
  have hsettle :
    ∀ {α : Type} {answer : α → Answer} {x : Except AnalysisError (Project × α)}, p.Asks x →
      (p.settle answer x).1.Fresh ∧ (p.settle answer x).1.invalidate = p.invalidate := by
    intro α answer x hx
    cases x with
    | error e => exact ⟨h, rfl⟩
    | ok out => exact hx out.1 out.2 rfl
  cases q with
  | fileId | diagnostics | allDiagnostics | globalSymbols | lastCheck => exact ⟨h, rfl⟩
  | firstPass => exact ⟨p.fresh_withFirstPass, rfl⟩
  | firstPassResult path => exact hsettle (asks_firstPassResult h)
  | check entries => exact hsettle (asks_check h)
  | checkScattered path => exact hsettle (asks_checkScattered h)
  | findReferences path position => exact hsettle (asks_findReferences h)
  | classify path => exact hsettle (asks_classify h)

theorem Fresh.answer_eq (h : p.Fresh) (hq : q.isDirect) : (p.ask q).2 = (p.invalidate.ask q).2 := by
  have hi : p.invalidate.Fresh := fresh_of_none rfl
  -- Both look up the same paths, and then have the same first pass.
  have hsettle : ∀ {α β : Type} {answer : α → Answer} (x : Except AnalysisError β)
      {next next' : β → Except AnalysisError (Project × α)}, (∀ b, (next b).map (·.2) =
        (next' b).map (·.2)) →
        (p.settle answer (x >>= next)).2 = (p.invalidate.settle answer (x >>= next')).2 := by
    intro α β answer x next next' hnext
    cases x with
    | error e => rfl
    | ok b =>
      have heq := hnext b
      change (p.settle answer (next b)).2 = (p.invalidate.settle answer (next' b)).2
      generalize next b = y, next' b = y' at heq
      cases y <;> cases y' <;> simp_all [Except.map, settle]
  cases q with
  | fileId path => rfl
  | firstPass => rfl
  | firstPassResult path =>
    refine hsettle (p.fileId path) fun id => ?_
    rw [h.ensureFirstPass, hi.ensureFirstPass, computeFirstPass_invalidate]
    dsimp only
    cases p.computeFirstPass.get? id <;> rfl
  | check entries =>
    change (p.settle _ (p.check entries)).2 = (p.invalidate.settle _ (p.invalidate.check entries)).2
    rw [check_apply h, check_apply hi]
    exact hsettle (if entries.isEmpty then .ok p.files.ids else entries.mapM p.fileId)
      fun ids => rfl
  | checkScattered path =>
    refine hsettle (p.fileId path) fun id => ?_
    have henv : p.invalidate.withFirstPass.env = p.withFirstPass.env := rfl
    rw [h.ensureFirstPass, hi.ensureFirstPass, computeFirstPass_invalidate]
    dsimp only
    rw [henv]
    generalize (WalkM.walkAlone _ id).run _ = out
    obtain ⟨_ | result, w⟩ := out <;> rfl
  | findReferences path position =>
    refine hsettle (p.fileId path) fun id => ?_
    have hnames : p.invalidate.withFirstPass.namesOf = p.withFirstPass.namesOf := rfl
    rw [h.ensureFirstPass, hi.ensureFirstPass, computeFirstPass_invalidate]
    dsimp only
    rw [hnames]
    generalize (p.withFirstPass.namesOf _ id).find? _ = found
    rcases found with - | ⟨name, file, range, role, declaration, symbolClass⟩
    · rfl
    · cases declaration <;> rfl
  | classify path =>
    refine hsettle (p.fileId path) fun id => ?_
    rw [h.ensureFirstPass, hi.ensureFirstPass]
    rfl
  | diagnostics | allDiagnostics | globalSymbols | lastCheck => cases hq

theorem answers_eq_of_invalidate_eq {queries : List Query} (hdirect : ∀ q ∈ queries, q.isDirect)
    (h : p.Fresh) (h' : p'.Fresh) (hsame : p.invalidate = p'.invalidate) :
    p.answers queries = p'.answers queries := by
  induction queries generalizing p p' with
  | nil => rfl
  | cons q queries ih =>
    rw [List.forall_mem_cons] at hdirect
    obtain ⟨hnext, hkeep⟩ := h.ask
    obtain ⟨hnext', hkeep'⟩ := h'.ask
    have hfirst : (p.ask q).2 = (p'.ask q).2 := by
      rw [h.answer_eq hdirect.1, h'.answer_eq hdirect.1, hsame]
    have hrest := ih hdirect.2 hnext hnext' (hkeep.trans (hsame.trans hkeep'.symm))
    exact congrArg₂ List.cons hfirst hrest

/-! ## Where histories lead -/

/-- What the comments of the files of a map say. -/
def annotationsOf (texts : OrderedMap String String) : AnnotationTable :=
  ⟨texts.mapValues fun text => .ofComments (Source.parse text).comments⟩

/-- A project that has been given the files of a map and has not been asked anything since. -/
def holding (config : Config) (realtime : Bool) (texts : OrderedMap String String) : Project :=
  { new config realtime with files := .ofTexts texts, annotations := annotationsOf texts }

variable {config : Config} {realtime : Bool} {texts : OrderedMap String String}

theorem addFile_of_invalidate_eq (h : p.invalidate = holding config realtime texts)
    {text : String} :
    (p.addFile path text).1 =
      holding config realtime (texts.insert (Path.normalize path) text) := by
  have hadd : (p.addFile path text).1 = (p.invalidate.addFile path text).1 := rfl
  have hannotations :
    (annotationsOf texts).insertFile (Path.normalize path) (Source.parse text).comments =
      annotationsOf (texts.insert (Path.normalize path) text) := by
    rw [annotationsOf, annotationsOf, OrderedMap.mapValues_insert]
    rfl
  rw [hadd, h]
  unfold addFile holding
  dsimp only
  rw [FileIndex.get?_insert, FileIndex.insert_ofTexts, ← hannotations]
  rfl

theorem Fresh.apply (h : p.Fresh) (hfiles : p.invalidate = holding config realtime texts)
    {op : Operation} :
    (p.apply op).Fresh ∧ (p.apply op).invalidate =
      holding config realtime (FileIndex.textsOf texts (additions [op])) := by
  cases op with
  | add path text =>
    refine ⟨fresh_of_none rfl, ?_⟩
    change (p.addFile path text).1.invalidate = _
    rw [addFile_of_invalidate_eq hfiles]
    rfl
  | ask q =>
    obtain ⟨hfresh, hkeep⟩ := h.ask
    exact ⟨hfresh, hkeep.trans hfiles⟩

theorem Fresh.foldl_apply (h : p.Fresh) (hfiles : p.invalidate = holding config realtime texts) :
    (history.foldl Project.apply p).Fresh ∧ (history.foldl Project.apply p).invalidate =
      holding config realtime (FileIndex.textsOf texts (additions history)) := by
  induction history generalizing p texts with
  | nil => exact ⟨h, hfiles⟩
  | cons op history ih =>
    obtain ⟨hfresh, hnext⟩ := h.apply hfiles
    obtain ⟨hall, hlast⟩ := ih hfresh hnext
    refine ⟨hall, hlast.trans ?_⟩
    have hadditions : additions (op :: history) = additions [op] ++ additions history := by
      cases op <;> rfl
    rw [hadditions, FileIndex.textsOf, FileIndex.textsOf, FileIndex.textsOf, List.foldl_append]

theorem new_eq_holding : new config realtime = holding config realtime {} :=
  rfl

theorem fresh_replay (config : Config) (realtime : Bool) (history : List Operation) :
    (replay config realtime history).Fresh ∧ (replay config realtime history).invalidate =
      holding config realtime (FileIndex.textsOf {} (additions history)) :=
  Fresh.foldl_apply (fresh_of_none rfl) new_eq_holding

theorem foldl_addFile (texts : OrderedMap String String) {files : List (String × String)} :
    files.foldl (fun p f => (p.addFile f.1 f.2).1) (holding config realtime texts) =
      holding config realtime (FileIndex.textsOf texts files) := by
  induction files generalizing texts with
  | nil => rfl
  | cons f files ih =>
    rw [List.foldl_cons, addFile_of_invalidate_eq rfl]
    exact ih (texts.insert (Path.normalize f.1) f.2)

theorem rebuild_eq :
    rebuild config realtime history =
      holding config realtime (FileIndex.textsOf {} (additions history)) := by
  unfold rebuild
  rw [new_eq_holding, foldl_addFile]
  exact congrArg (holding config realtime)
    (@FileIndex.textsOf_append [] _ FileIndex.orderly_empty.textsOf)

theorem replay_add {text : String} :
    replay config realtime (history ++ [.add path text]) =
      rebuild config realtime (history ++ [.add path text]) := by
  obtain ⟨-, hfiles⟩ := fresh_replay config realtime history
  have hlast : replay config realtime (history ++ [.add path text]) =
      ((replay config realtime history).addFile path text).1 := by
    unfold replay
    rw [List.foldl_append]
    rfl
  have hadditions : additions (history ++ [.add path text]) = additions history ++ [(path, text)] :=
    List.filterMap_append
  rw [hlast, addFile_of_invalidate_eq hfiles, rebuild_eq, hadditions, FileIndex.textsOf,
    FileIndex.textsOf, List.foldl_append]
  rfl

/-- After any history questions have the answers that the rebuilt project gives: all questions if
they follow an added file, and those that are worked out from the files even if other questions came
between. -/
theorem answers_eq_rebuild (config : Config) (realtime : Bool) (history : List Operation)
    (queries : List Query) : (∀ path text,
      (replay config realtime (history ++ [.add path text])).answers queries =
        (rebuild config realtime (history ++ [.add path text])).answers queries) ∧
      ((∀ q ∈ queries, q.isDirect) →
        (replay config realtime history).answers queries =
          (rebuild config realtime history).answers queries) := by
  refine ⟨fun path text => ?_, fun hdirect => ?_⟩
  · rw [replay_add]
  · obtain ⟨hfresh, hfiles⟩ := fresh_replay config realtime history
    rw [rebuild_eq]
    exact answers_eq_of_invalidate_eq hdirect hfresh (fresh_of_none rfl) hfiles

/-- Two files, one of which is given another text under another spelling of its path, with questions
in between. -/
def respelled : List Operation :=
  [.add "./a.lua" "x = 1", .ask (.check []), .add "b.lua" "y = x", .ask (.classify "a.lua"),
    .add ".\\a.lua" "z = 3", .ask .firstPass]

theorem answers_eq_rebuild_respelled :
    (FileIndex.textsOf {} (additions respelled)).entries =
      [("a.lua", "z = 3"), ("b.lua", "y = x")] ∧
      (replay {} false respelled).answers [.check ["b.lua"], .classify "a.lua"] =
        (rebuild {} false respelled).answers [.check ["b.lua"], .classify "a.lua"] :=
  ⟨by decide, (answers_eq_rebuild {} false respelled _).2 (by decide)⟩

end LuaAnalysis.Project
