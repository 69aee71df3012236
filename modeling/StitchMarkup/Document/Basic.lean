import StitchMarkup.Line

/-!
Documents and their log. A document keeps its lines lexed: every line stores its pieces and the
context in which it starts, so lexing can be taken up at any line. It writes one record about
every run of its lexer and, if it is asked to trace, one about each decision of that run, before
the record of the run itself.
-/

namespace StitchMarkup

structure Settings where
  /-- The columns from one tab stop to the next. -/
  tabWidth : Nat := 4
  /-- Whether every decision of the lexer goes to the log. -/
  trace : Bool := false
deriving DecidableEq, Repr

structure Line where
  text : String
  /-- The context in which the line starts. -/
  start : Context
  pieces : List Piece
deriving DecidableEq, Repr

namespace Line

def tokens (line : Line) : List Token := Token.ofPieces line.pieces

end Line

structure Document where
  settings : Settings
  lines : List Line
  /-- The context after the last line. -/
  final : Context
deriving DecidableEq, Repr

namespace Document

def empty (settings : Settings) : Document := ⟨settings, [], .initial⟩

def lineCount (doc : Document) : Nat := doc.lines.length

/-- The context before a line. The line after the last one starts in the final context. -/
def contextBefore? (doc : Document) (index : Nat) : Option Context :=
  if index = doc.lineCount then some doc.final
  else doc.lines[index]?.map Line.start

def line? (doc : Document) (index : Nat) : Option String := doc.lines[index]?.map Line.text

def tokens? (doc : Document) (index : Nat) : Option (List Token) :=
  doc.lines[index]?.map Line.tokens

end Document

inductive Record where
  | decided (decision : Decision)
  /-- Lexed `count` lines from line `start` on, either up to the line `converged`, which starts
  in the context it had before, or to the end of the document. -/
  | relexed (count start : Nat) (converged : Option Nat)
deriving DecidableEq, Repr

namespace Record

def level : Record → String
  | .decided _ => "TRACE"
  | .relexed _ _ _ => "DEBUG"

/-- The part of the program the record is filed under. -/
def target : Record → String
  | .decided _ => "brillink::lexer"
  | .relexed _ _ _ => "brillink::highlight"

def message : Record → String
  | .decided decision => toString decision
  | .relexed count start converged =>
      "re-lexed " ++ toString count ++ " lines from " ++ toString start ++
        match converged with
        | some line => ", converged at " ++ toString line
        | none => " to the end"

instance : ToString Record where
  toString record := record.level ++ " " ++ record.target ++ " " ++ record.message

/-- The records of a run with the given decisions: one each when tracing, none otherwise. -/
def ofDecisions (trace : Bool) (decisions : List Decision) : List Record :=
  if trace then decisions.map .decided else []

end Record

end StitchMarkup
