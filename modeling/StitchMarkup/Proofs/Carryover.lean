import StitchMarkup.Proofs.CaretRuns
import StitchMarkup.Proofs.Chained

/-!
What lines take over from the lines above them. An expectation may be left pending when a line
ends, inside a comment or where a comment closes at the very end, and then it stands in the
context of the next line. It is never seen there, not even on a line without a first step. Nor
are the width of tabs and what a host does with the decisions it is told: of all the lexer
carries, only the depth decides how the text goes on.
-/

namespace StitchMarkup

namespace Decision

/-- The decision without the column it mentions. -/
def withoutColumn : Decision → Decision
  | .lineStart kind _ => .lineStart kind 0
  | decision => decision

end Decision

namespace Step

/-- The step with no column in its decisions. -/
def withoutColumn (step : Step) : Step :=
  { step with decisions := step.decisions.map Decision.withoutColumn }

variable (steps : List Step)

@[simp] theorem map_piece_withoutColumn :
    (steps.map withoutColumn).map piece = steps.map piece := by
  rw [List.map_map]
  rfl

@[simp] theorem flatMap_decisions_withoutColumn :
    (steps.map withoutColumn).flatMap decisions =
      (steps.flatMap decisions).map Decision.withoutColumn := by
  rw [List.flatMap_map, List.map_flatMap]
  rfl

@[simp] theorem afterSteps_withoutColumn (ctx : Context) :
    ctx.afterSteps (steps.map withoutColumn) = ctx.afterSteps steps := by
  rw [Context.afterSteps, List.foldl_map]
  rfl

theorem lineHead_withoutColumn (tabWidth tabWidth' : Nat) (ctx : Context) (line : List Char) :
    (lineHead tabWidth ctx line).withoutColumn = (lineHead tabWidth' ctx line).withoutColumn := by
  unfold lineHead
  dsimp only
  split <;> rfl

end Step

/-- Contexts that differ in nothing but what is pending. -/
theorem Context.endLine_eq_of_depth {ctx other : Context} (h : ctx.depth = other.depth) :
    ctx.endLine = other.endLine := by
  rw [endLine, endLine, h]

namespace Context

variable {ctx other : Context}

/-- The first step of a line sees of its context only the depth. -/
theorem firstStep_eq_of_depth (h : ctx.depth = other.depth) (tabWidth : Nat) {line : List Char}
    (hline : line ≠ []) : ctx.firstStep tabWidth line = other.firstStep tabWidth line := by
  have hempty : ¬ line.isEmpty := by simpa using hline
  have hinside : ctx.inComment = other.inComment := by
    rw [inComment, inComment, h]
  rw [firstStep, firstStep, if_neg hempty, if_neg hempty, hinside, endLine_eq_of_depth h]

/-- The width of tabs is seen only in the report of the first step. -/
theorem firstStep_withoutColumn (tabWidth tabWidth' : Nat) (ctx : Context) (line : List Char) :
    (ctx.firstStep tabWidth line).withoutColumn =
      (ctx.firstStep tabWidth' line).withoutColumn := by
  unfold firstStep
  split
  · rfl
  · split
    · rfl
    · split
      · rfl
      · exact Step.lineHead_withoutColumn tabWidth tabWidth' ctx.endLine line

theorem lineSteps_eq_of_depth (h : ctx.depth = other.depth) (tabWidth : Nat)
    (line : List Char) : ctx.lineSteps tabWidth line = other.lineSteps tabWidth line := by
  by_cases hline : line = []
  · rw [hline]
    rfl
  · rw [lineSteps_of_ne_nil tabWidth ctx hline, lineSteps_of_ne_nil tabWidth other hline,
      firstStep_eq_of_depth h tabWidth hline]

theorem lineSteps_withoutColumn (tabWidth tabWidth' : Nat) (ctx : Context) (line : List Char) :
    (ctx.lineSteps tabWidth line).map Step.withoutColumn =
      (ctx.lineSteps tabWidth' line).map Step.withoutColumn := by
  by_cases hline : line = []
  · rw [hline]
    rfl
  have hfirst := firstStep_withoutColumn tabWidth tabWidth' ctx line
  have hnext : (ctx.firstStep tabWidth line).next = (ctx.firstStep tabWidth' line).next :=
    (congrArg Step.next hfirst :)
  have hrest : (ctx.firstStep tabWidth line).rest = (ctx.firstStep tabWidth' line).rest :=
    (congrArg (fun step => step.rest) hfirst :)
  rw [lineSteps_of_ne_nil tabWidth ctx hline, lineSteps_of_ne_nil tabWidth' ctx hline,
    List.map_cons, List.map_cons, hfirst, hnext, hrest]

/-- Past its first step a line has forgotten what was pending before it. -/
theorem endLine_afterSteps (h : ctx.depth = other.depth) (steps : List Step) :
    (ctx.afterSteps steps).endLine = (other.afterSteps steps).endLine := by
  cases steps with
  | nil => exact endLine_eq_of_depth h
  | cons step steps => rfl

theorem lexLine_eq_of_depth (h : ctx.depth = other.depth) (tabWidth : Nat) (line : List Char) :
    ctx.lexLine tabWidth line = other.lexLine tabWidth line := by
  simp only [lexLine, lineSteps_eq_of_depth h tabWidth line, endLine_afterSteps h]

/-- Lexes lines one after the other. -/
def lexLines (tabWidth : Nat) (ctx : Context) : List String → List LexedLine
  | [] => []
  | text :: texts =>
      let lexed := ctx.lexLine tabWidth text.toList
      lexed :: lexed.next.lexLines tabWidth texts

theorem lexLines_eq_of_depth (h : ctx.depth = other.depth) (tabWidth : Nat)
    (texts : List String) : ctx.lexLines tabWidth texts = other.lexLines tabWidth texts := by
  cases texts with
  | nil => rfl
  | cons text texts => rw [lexLines, lexLines, lexLine_eq_of_depth h]

end Context

namespace LexedLine

/-- What lexing a line gives, up to the columns it reports. -/
def withoutColumns (lexed : LexedLine) : LexedLine :=
  { lexed with decisions := lexed.decisions.map Decision.withoutColumn }

end LexedLine

namespace Context

variable {ctx other : Context}

theorem lexLine_withoutColumns (tabWidth tabWidth' : Nat) (ctx : Context) (line : List Char) :
    (ctx.lexLine tabWidth line).withoutColumns =
      (ctx.lexLine tabWidth' line).withoutColumns := by
  have hcolumns (tabWidth : Nat) :
      (ctx.lexLine tabWidth line).withoutColumns =
        let steps := (ctx.lineSteps tabWidth line).map Step.withoutColumn
        ⟨steps.map Step.piece, (ctx.afterSteps steps).endLine, steps.flatMap Step.decisions⟩ := by
    simp only [LexedLine.withoutColumns, lexLine, Step.map_piece_withoutColumn,
      Step.afterSteps_withoutColumn, Step.flatMap_decisions_withoutColumn]
  rw [hcolumns tabWidth, hcolumns tabWidth', lineSteps_withoutColumn tabWidth tabWidth' ctx line]

theorem lexLines_withoutColumns (h : ctx.depth = other.depth) (tabWidth tabWidth' : Nat)
    (texts : List String) :
    (ctx.lexLines tabWidth texts).map LexedLine.withoutColumns =
      (other.lexLines tabWidth' texts).map LexedLine.withoutColumns := by
  rw [← lexLines_eq_of_depth h tabWidth']
  clear h
  induction texts generalizing ctx with
  | nil => rfl
  | cons text texts ih =>
      have hline := lexLine_withoutColumns tabWidth tabWidth' ctx text.toList
      have hnext : (ctx.lexLine tabWidth text.toList).next =
          (ctx.lexLine tabWidth' text.toList).next :=
        (congrArg LexedLine.next hline :)
      rw [lexLines, lexLines, List.map_cons, List.map_cons, hline, hnext, ih]

end Context

/-- What a host reads in a line: its tokens and the context it goes on with. -/
structure Reading where
  tokens : List Token
  next : Context
deriving DecidableEq, Repr

/-- A host that steps through lines by itself. It is told every decision and may do anything to
the context between two lines but change the depth. One that only steps leaves it alone. -/
structure Host (σ : Type) where
  tabWidth : Nat
  /-- What becomes of a decision, given what became of the earlier ones. -/
  receive : σ → Decision → σ
  between : Context → Context
  depth_between : ∀ ctx, (between ctx).depth = ctx.depth

namespace LexedLine

/-- What a host that drops what is pending should read. -/
def reading (lexed : LexedLine) : Reading := ⟨Token.ofPieces lexed.pieces, lexed.next⟩

end LexedLine

namespace Host

variable {σ τ : Type}

/-- Asks for steps up to the end of the line. -/
def visit (host : Host σ) (caret : Caret) (ctx : Context) (received : σ) : Reading × σ :=
  if caret.isAtEnd then (⟨[], ctx⟩, received)
  else
    let step := caret.step ctx
    let moved := caret.take step.toCut
    let (reading, received) := host.visit moved step.next
      (step.decisions.foldl host.receive received)
    ({ reading with tokens := ⟨step.kind, caret.position, moved.position⟩ :: reading.tokens },
      received)
termination_by caret.rest.length
decreasing_by exact (caret.step_advances ctx ‹_›).length_rest_lt

def readLine (host : Host σ) (ctx : Context) (line : List Char) (received : σ) : Reading × σ :=
  let (reading, received) := host.visit (.atStart line host.tabWidth) ctx received
  ({ reading with next := host.between reading.next }, received)

def readLines (host : Host σ) : Context → List String → σ → List Reading × σ
  | _, [], received => ([], received)
  | ctx, text :: texts, received =>
      let (reading, received) := host.readLine ctx text.toList received
      let (readings, received) := host.readLines reading.next texts received
      (reading :: readings, received)

/-- The host of a document: it drops what is pending after each line, and it logs the decisions
if it is asked to. -/
def ofSettings (settings : Settings) : Host (List Record) where
  tabWidth := settings.tabWidth
  receive log decision := if settings.trace then log ++ [.decided decision] else log
  between := Context.endLine
  depth_between _ := rfl

/-- The host with another width of tabs that does something else with the decisions. -/
def equip (host : Host σ) (tabWidth : Nat) (receive : τ → Decision → τ) : Host τ :=
  { host with tabWidth := tabWidth, receive := receive }

/-- The host keeping every decision. -/
def collecting (host : Host σ) : Host (List Decision) :=
  host.equip host.tabWidth fun decisions decision => decisions ++ [decision]

theorem visit_eq (host : Host σ) (caret : Caret) (ctx : Context) (received : σ) :
    host.visit caret ctx received =
      (⟨(caret.run ctx).map Visit.token, ctx.afterSteps (caret.steps ctx)⟩,
        ((caret.steps ctx).flatMap Step.decisions).foldl host.receive received) := by
  fun_induction visit host caret ctx received with
  | case1 caret ctx received hend =>
      rw [Caret.run_of_isAtEnd hend, Caret.steps_of_isAtEnd hend]
      rfl
  | case2 caret ctx received hend step moved reading later hlater ih =>
      rw [hlater] at ih
      obtain ⟨rfl, rfl⟩ := Prod.mk.inj ih
      rw [Caret.run_of_not_isAtEnd hend, Caret.steps_of_not_isAtEnd hend, List.flatMap_cons,
        List.foldl_append]
      rfl

/-- A host reads of a line what lexing it as a whole gives. -/
theorem readLine_eq (host : Host σ) (ctx : Context) (line : List Char) (received : σ) :
    host.readLine ctx line received =
      (⟨Token.ofPieces (ctx.lexLine host.tabWidth line).pieces,
          host.between (ctx.afterSteps (ctx.lineSteps host.tabWidth line))⟩,
        (ctx.lexLine host.tabWidth line).decisions.foldl host.receive received) := by
  rw [readLine, visit_eq, Caret.map_token_run]
  rfl

/-- Every host reads the same tokens and depths and is told the same decisions, whatever it does
to the contexts between the lines. -/
theorem readLines_eq (host : Host σ) (ctx : Context) (texts : List String) (received : σ) :
    let lexed := ctx.lexLines host.tabWidth texts
    let read := host.readLines ctx texts received
    read.1.map Reading.tokens = lexed.map (fun line => Token.ofPieces line.pieces) ∧
      read.1.map (fun reading => reading.next.depth) = lexed.map (fun line => line.next.depth) ∧
      read.2 = (lexed.flatMap LexedLine.decisions).foldl host.receive received := by
  induction texts generalizing ctx received with
  | nil => exact ⟨rfl, rfl, rfl⟩
  | cons text texts ih =>
      let lexed := ctx.lexLine host.tabWidth text.toList
      let next := host.between (ctx.afterSteps (ctx.lineSteps host.tabWidth text.toList))
      have hdepth : next.depth = lexed.next.depth := host.depth_between _
      have hlater := Context.lexLines_eq_of_depth hdepth host.tabWidth texts
      obtain ⟨htokens, hdepths, hreceived⟩ :=
        ih next (lexed.decisions.foldl host.receive received)
      rw [hlater] at htokens hdepths hreceived
      simp only [readLines, readLine_eq, Context.lexLines, List.map_cons, List.flatMap_cons,
        List.foldl_append]
      exact ⟨congrArg (_ :: ·) htokens, congrArg₂ (· :: ·) hdepth hdepths, hreceived⟩

/-- How wide tabs are and what becomes of the decisions makes no difference to what is read. -/
theorem equip_readLines (host : Host σ) (tabWidth : Nat) (receive : τ → Decision → τ)
    (ctx : Context) (texts : List String) (received : σ) (received' : τ) :
    ((host.equip tabWidth receive).readLines ctx texts received').1 =
      (host.readLines ctx texts received).1 := by
  induction texts generalizing ctx received received' with
  | nil => rfl
  | cons text texts ih =>
      have hsteps := ctx.lineSteps_withoutColumn tabWidth host.tabWidth text.toList
      have hpieces := congrArg (List.map Step.piece) hsteps
      have hafter := congrArg ctx.afterSteps hsteps
      rw [Step.map_piece_withoutColumn, Step.map_piece_withoutColumn] at hpieces
      rw [Step.afterSteps_withoutColumn, Step.afterSteps_withoutColumn] at hafter
      simp only [readLines, readLine_eq, equip, Context.lexLine, hpieces, hafter]
      exact congrArg (_ :: ·) (ih _ _ _)

theorem collecting_receive (host : Host σ) (decisions collected : List Decision) :
    decisions.foldl host.collecting.receive collected = collected ++ decisions := by
  induction decisions generalizing collected with
  | nil => simp
  | cons decision decisions ih =>
      rw [List.foldl_cons, ih]
      simp [collecting, equip]

/-- What a host keeps of all decisions are the decisions of the lines. -/
theorem collecting_readLines (host : Host σ) (ctx : Context) (texts : List String) :
    (host.collecting.readLines ctx texts []).2 =
      (ctx.lexLines host.tabWidth texts).flatMap LexedLine.decisions := by
  have hcollected := (host.collecting.readLines_eq ctx texts []).2.2
  rw [collecting_receive, List.nil_append] at hcollected
  exact hcollected

theorem ofSettings_readLines (settings : Settings) (ctx : Context) (texts : List String)
    (log : List Record) :
    ((ofSettings settings).readLines ctx texts log).1 =
      (ctx.lexLines settings.tabWidth texts).map LexedLine.reading := by
  induction texts generalizing ctx log with
  | nil => rfl
  | cons text texts ih =>
      simp only [readLines, readLine_eq, Context.lexLines, List.map_cons]
      exact congrArg (_ :: ·) (ih _ _)

theorem ofSettings_receive (settings : Settings) (decisions : List Decision)
    (log : List Record) :
    decisions.foldl (ofSettings settings).receive log =
      log ++ Record.ofDecisions settings.trace decisions := by
  induction decisions generalizing log with
  | nil => simp [Record.ofDecisions]
  | cons decision decisions ih =>
      rw [List.foldl_cons, ih]
      cases htrace : settings.trace <;> simp [ofSettings, Record.ofDecisions, htrace]

theorem ofSettings_log (settings : Settings) (ctx : Context) (texts : List String) :
    ((ofSettings settings).readLines ctx texts []).2 =
      Record.ofDecisions settings.trace
        ((ctx.lexLines settings.tabWidth texts).flatMap LexedLine.decisions) := by
  have hlog := ((ofSettings settings).readLines_eq ctx texts []).2.2
  rw [ofSettings_receive, List.nil_append] at hlog
  exact hlog

end Host

namespace Context

/-- Nothing is pending after a line. -/
theorem pending_lexLines (tabWidth : Nat) (ctx : Context) (texts : List String) :
    ∀ line ∈ ctx.lexLines tabWidth texts, line.next.pending = none := by
  induction texts generalizing ctx with
  | nil => simp [lexLines]
  | cons text texts ih =>
      rw [lexLines, List.forall_mem_cons]
      exact ⟨rfl, ih _⟩

theorem map_reading_lexLines {ctx other : Context} (h : ctx.depth = other.depth)
    (tabWidth tabWidth' : Nat) (texts : List String) :
    (ctx.lexLines tabWidth texts).map LexedLine.reading =
      (other.lexLines tabWidth' texts).map LexedLine.reading := by
  -- A reading has no columns to lose.
  have hreadings := congrArg (List.map LexedLine.reading)
    (lexLines_withoutColumns h tabWidth tabWidth' texts)
  rw [List.map_map, List.map_map] at hreadings
  exact hreadings

end Context

/-- Of the context before some lines only the depth matters. Whatever was pending there and
however wide tabs are, lexing the lines gives the same tokens and contexts, with nothing pending
after any line; only columns are reported otherwise. The log is what is asked for and tells the
decisions in their order. All other hosts, with nothing done between the lines for example, read
the same tokens and depths and are told the same decisions, and what they do with them has no
influence. -/
theorem lines_carry_depth_only (depth : Nat) (pending pending' : Option Expectation)
    (texts : List String) :
    (∀ settings settings' : Settings,
      let lexed := (Context.mk depth pending).lexLines settings.tabWidth texts
      let other := (Context.mk depth pending').lexLines settings'.tabWidth texts
      let read := (Host.ofSettings settings).readLines ⟨depth, pending⟩ texts []
      let read' := (Host.ofSettings settings').readLines ⟨depth, pending'⟩ texts []
      read.1 = read'.1 ∧ read.1 = lexed.map LexedLine.reading ∧
        (∀ reading ∈ read.1, reading.next.pending = none) ∧
        lexed.map LexedLine.withoutColumns = other.map LexedLine.withoutColumns ∧
        read.2 = Record.ofDecisions settings.trace (lexed.flatMap LexedLine.decisions)) ∧
      ∀ (σ : Type) (host : Host σ) (received : σ),
        let lexed := (Context.mk depth pending).lexLines host.tabWidth texts
        let read := host.readLines ⟨depth, pending'⟩ texts received
        let collected := (host.collecting.readLines ⟨depth, pending'⟩ texts []).2
        read.1.map Reading.tokens = lexed.map (fun line => Token.ofPieces line.pieces) ∧
          read.1.map (fun reading => reading.next.depth) =
            lexed.map (fun line => line.next.depth) ∧
          collected = lexed.flatMap LexedLine.decisions ∧
          read.2 = collected.foldl host.receive received ∧
          ∀ (τ : Type) (tabWidth : Nat) (receive : τ → Decision → τ) (received' : τ),
            ((host.equip tabWidth receive).readLines ⟨depth, pending'⟩ texts received').1 =
              read.1 := by
  have hdepth : (Context.mk depth pending).depth = (Context.mk depth pending').depth := rfl
  refine ⟨?_, ?_⟩
  · intro settings settings' lexed other read read'
    have hread : read.1 = lexed.map LexedLine.reading := Host.ofSettings_readLines settings _ _ _
    have hread' : read'.1 = other.map LexedLine.reading :=
      Host.ofSettings_readLines settings' _ _ _
    have hsame : lexed.map LexedLine.reading = other.map LexedLine.reading :=
      Context.map_reading_lexLines hdepth _ _ texts
    refine ⟨by rw [hread, hread', hsame], hread, ?_,
      Context.lexLines_withoutColumns hdepth _ _ texts, Host.ofSettings_log settings _ texts⟩
    intro reading hreading
    rw [hread] at hreading
    obtain ⟨line, hline, rfl⟩ := List.mem_map.mp hreading
    exact Context.pending_lexLines _ _ _ line hline
  · intro σ host received lexed read collected
    have hlexed : lexed = (Context.mk depth pending').lexLines host.tabWidth texts :=
      Context.lexLines_eq_of_depth hdepth host.tabWidth texts
    obtain ⟨htokens, hdepths, hreceived⟩ := host.readLines_eq ⟨depth, pending'⟩ texts received
    have hcollected : collected = lexed.flatMap LexedLine.decisions := by
      rw [hlexed]
      exact host.collecting_readLines ⟨depth, pending'⟩ texts
    rw [← hlexed] at htokens hdepths hreceived
    refine ⟨htokens, hdepths, hcollected, by rw [hcollected]; exact hreceived, ?_⟩
    intro τ tabWidth receive received'
    exact host.equip_readLines tabWidth receive _ texts received received'

end StitchMarkup
