import Mathlib.Data.List.Infix
import WarpLoop.Shrubbery.Reader
import WarpLoop.Lib.Tokens

/-! The documented grammar of the reader: programs, how they are written down, and the
s-expressions that the grammar comment of shrubbery_to_scheme.py assigns to them. -/
namespace WarpLoop.Shrubbery
open Lib.Tokens

inductive Term
  | atom (text : Text)
  | str (content : Text)
  | call (name : Text) (args : List Term)

inductive LetKind
  | plain
  | star
  | named (name : Text)

mutual

/-- The forms of the grammar. A block is indented by `1 + deeper` more than its
header. -/
inductive Form
  | term (t : Term)
  | define (name : Text) (params : List Text) (deeper : Nat) (body : Forms)
  | letIn (kind : LetKind) (bindings : List (Text × Term)) (deeper : Nat) (body : Forms)
  | cond (deeper : Nat) (clauses : Clauses)

inductive Forms
  | nil
  | cons (form : Form) (rest : Forms)

/-- The clauses `| test: result` of a `cond`. -/
inductive Clauses
  | nil
  | cons (test : Term) (result : Form) (rest : Clauses)

end

/-! Writing a program down. -/

def callText (name : Text) (parts : List Text) : Text := name ++ '('::join ", ".toList parts ++ [')']

mutual

def Term.print : Term → Text
  | .atom text => text
  | .str content => '"'::content ++ ['"']
  | .call name args => callText name (printTerms args)

def printTerms : List Term → List Text
  | [] => []
  | t::rest => t.print::printTerms rest

end

def bindingPart (b : Text × Term) : Text := b.1 ++ ": ".toList ++ b.2.print

def LetKind.header : LetKind → List Text → Text
  | .plain,parts => callText "let".toList parts
  | .star,parts => callText "let*".toList parts
  | .named name,parts => "let ".toList ++ callText name parts

def Form.header : Form → Text
  | .term t => t.print
  | .define name params _ _ => "define ".toList ++ callText name params ++ [':']
  | .letIn kind bindings _ _ => kind.header (bindings.map bindingPart) ++ [':']
  | .cond _ _ => "cond:".toList

def clauseText (test : Term) (result : Form) : Text := "| ".toList ++ test.print ++ ": ".toList ++ result.header

mutual

def Form.inner (indent : Nat) : Form → List Line
  | .term _ => []
  | .define _ _ deeper body => body.lines (indent + 1 + deeper)
  | .letIn _ _ deeper body => body.lines (indent + 1 + deeper)
  | .cond deeper clauses => clauses.lines (indent + 1 + deeper)

def Forms.lines (indent : Nat) : Forms → List Line
  | .nil => []
  | .cons form rest => (indent,form.header)::form.inner indent ++ rest.lines indent

def Clauses.lines (indent : Nat) : Clauses → List Line
  | .nil => []
  | .cons test result rest => (indent,clauseText test result)::result.inner indent ++ rest.lines indent

end

def printLine (line : Line) : Text := List.replicate line.1 ' ' ++ line.2 ++ ['\n']

/-- The text of a program whose top level is indented by `indent`. -/
def Forms.print (indent : Nat) (program : Forms) : Text := (program.lines indent).flatMap printLine

/-! The s-expression of a program. -/

mutual

def Term.sexp : Term → Sexp
  | .atom text => .atom text
  | .str content => .str content
  | .call name args => .list (.atom name::sexpTerms args)

def sexpTerms : List Term → List Sexp
  | [] => []
  | t::rest => t.sexp::sexpTerms rest

end

def LetKind.sexps : LetKind → List Sexp
  | .plain => [.atom "let".toList]
  | .star => [.atom "let*".toList]
  | .named name => [.atom "let".toList,.atom name]

mutual

def Form.sexp : Form → Sexp
  | .term t => t.sexp
  | .define name params _ body => .list (.atom "define".toList::.list (.atom name::params.map .atom)::body.sexps)
  | .letIn kind bindings _ body =>
    .list (kind.sexps ++ .list (bindings.map (fun b => .list [.atom b.1,b.2.sexp]))::body.sexps)
  | .cond _ clauses => .list (.atom "cond".toList::clauses.sexps)

def Forms.sexps : Forms → List Sexp
  | .nil => []
  | .cons form rest => form.sexp::rest.sexps

def Clauses.sexps : Clauses → List Sexp
  | .nil => []
  | .cons test result rest => .list [test.sexp,result.sexp]::rest.sexps

end

/-! The programs that the reader is made for. -/

/-- An atom has no whitespace, brackets, quotes or commas, and does not begin a
comment. -/
def cleanAtom (a : Text) : Bool :=
  a ≠ [] && a.all (fun c => !Python.isSpace c && !isOpen c && !isClose c && c ≠ '"' && c ≠ ',') &&
    !decide ("//".toList <:+: a)

/-- A name is an atom that the reader takes for a name. -/
def cleanName (name : Text) : Bool := cleanAtom name && name.head?.any idStartChar

def cleanStr (s : Text) : Bool := !s.contains '"' && !s.contains '\n'

mutual

def Term.clean : Term → Bool
  | .atom text => cleanAtom text
  | .str content => cleanStr content
  | .call name args => cleanName name && cleanTerms args

def cleanTerms : List Term → Bool
  | [] => true
  | t::rest => t.clean && cleanTerms rest

end

/-- A term that stands for a form of its own: it does not look like a block. -/
def Term.standsAlone (t : Term) : Bool := !Python.isBlockKeyword t.print && t.print.getLast? ≠ some ':'

/-- The test of a clause ends at the first colon outside brackets. -/
def Term.isTest : Term → Bool
  | .atom text => !text.contains ':'
  | .str _ => true
  | .call name _ => !name.contains ':'

def LetKind.clean : LetKind → Bool
  | .plain => true
  | .star => true
  | .named name => cleanName name

def Forms.isNil : Forms → Bool
  | .nil => true
  | .cons _ _ => false

def Clauses.isNil : Clauses → Bool
  | .nil => true
  | .cons _ _ _ => false

mutual

def Form.wellFormed : Form → Bool
  | .term t => t.clean && t.standsAlone
  | .define name params _ body => cleanName name && params.all cleanAtom && !body.isNil && body.wellFormed
  | .letIn kind bindings _ body =>
    kind.clean && bindings.all (fun b => cleanAtom b.1 && !b.1.contains ':' && b.2.clean) && !body.isNil &&
      body.wellFormed
  | .cond _ clauses => !clauses.isNil && clauses.wellFormed

def Forms.wellFormed : Forms → Bool
  | .nil => true
  | .cons form rest => form.wellFormed && rest.wellFormed

def Clauses.wellFormed : Clauses → Bool
  | .nil => true
  | .cons test result rest => test.clean && test.isTest && result.wellFormed && rest.wellFormed

end

end WarpLoop.Shrubbery
