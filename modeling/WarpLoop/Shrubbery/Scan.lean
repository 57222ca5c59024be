import Mathlib.Data.List.DropRight
import WarpLoop.Shrubbery.Letters

/-! The scanners that the two shrubbery readers share
(flow-toolchain/riscv-guests/shrubbery/shrubbery_to_scheme.py and shrubbery-to-scheme.scm): argument
splitting, the first colon outside brackets, call syntax and the block tree. The
readers differ in how they strip, which is a parameter here. Texts are lists of
characters, and loops over indices are recursions. -/
namespace WarpLoop.Shrubbery

abbrev Text := List Char

/-- Strips `front` characters at the beginning and `back` characters at the end. -/
def stripWith (front back : Char → Bool) (t : Text) : Text := (t.dropWhile front).rdropWhile back

def isOpen (c : Char) : Bool := c = '(' || c = '['

def isClose (c : Char) : Bool := c = ')' || c = ']'

def join (sep : Text) : List Text → Text
  | [] => []
  | [t] => t
  | t::u::rest => t ++ sep ++ join sep (u::rest)

section Scanners
variable (strip : Text → Text)

/-- The loop of `split_args`, with the bracket depth, whether a string is open, and
the argument so far. -/
def splitArgsFrom (depth : Int) (inStr : Bool) (cur : Text) : Text → List Text
  | [] => if strip cur = [] then [] else [strip cur]
  | c::rest =>
    if c = '"' then splitArgsFrom depth (!inStr) (cur ++ [c]) rest
    else if inStr then splitArgsFrom depth inStr (cur ++ [c]) rest
    else if isOpen c then splitArgsFrom (depth + 1) inStr (cur ++ [c]) rest
    else if isClose c then splitArgsFrom (depth - 1) inStr (cur ++ [c]) rest
    else if c = ',' ∧ depth = 0 then strip cur::splitArgsFrom depth inStr [] rest
    else splitArgsFrom depth inStr (cur ++ [c]) rest

def splitArgs (s : Text) : List Text := splitArgsFrom strip 0 false [] s

/-- `c` goes in front of what stands before the split. -/
def push (c : Char) (split : Option (Text × Text)) : Option (Text × Text) :=
  split.map (fun parts => (c::parts.1,parts.2))

def splitFirstColonFrom (depth : Int) (inStr : Bool) : Text → Option (Text × Text)
  | [] => none
  | c::rest =>
    if c = '"' then push c (splitFirstColonFrom depth (!inStr) rest)
    else if inStr then push c (splitFirstColonFrom depth inStr rest)
    else if isOpen c then push c (splitFirstColonFrom (depth + 1) inStr rest)
    else if isClose c then push c (splitFirstColonFrom (depth - 1) inStr rest)
    else if c = ':' ∧ depth = 0 then some ([],rest)
    else push c (splitFirstColonFrom depth inStr rest)

/-- What stands before and behind the first colon outside brackets and strings. -/
def splitFirstColonAtDepth0 (s : Text) : Option (Text × Text) := splitFirstColonFrom 0 false s

/-- The characters that a name may begin with. On ASCII texts, the only ones for which the
readers are compared, Python's `isalpha` and s7's `char-alphabetic?` are the same. -/
def idStartChar (c : Char) : Bool := isalpha c || "+-*/<>=!?_".toList.contains c

/-- The scan for the parenthesis that opens the arguments: what stands before it
and behind it. -/
def splitName (depth : Int) : Text → Option (Text × Text)
  | [] => none
  | c::rest =>
    if c = '(' ∧ depth = 0 then some ([],rest)
    else if isOpen c then push c (splitName (depth + 1) rest)
    else if isClose c then push c (splitName (depth - 1) rest)
    else if c = ' ' ∨ c = '\t' then none
    else push c (splitName depth rest)

/-- `name(a, b, c)` as its name and arguments, or nothing if it is not call syntax. -/
def parseCall (text : Text) : Option (Text × List Text) :=
  let text := strip text
  match text.head? with
  | none => none
  | some first =>
    if first = '"' ∨ first = '\'' then none
    else
      match splitName 0 text with
      | none => none
      | some (before,rest) =>
        if text.getLast? ≠ some ')' then none
        else
          match (strip before).head? with
          | none => none
          | some start => if idStartChar start then some (strip before,splitArgs strip rest.dropLast) else none

/-- `term_to_sexpr` on texts of at most the given length. -/
def termWithin : Nat → Text → Text
  | 0,text => strip text
  | fuel+1,text =>
    let text := strip text
    match parseCall strip text with
    | none => text
    | some (name,args) => '('::join [' '] (name::args.map (termWithin fuel)) ++ [')']

/-- A term: call syntax expands, anything else passes through. An argument is
shorter than its call, so the length of the text bounds the nesting. -/
def termToSexpr (text : Text) : Text := termWithin strip text.length text

end Scanners

/-- The block tree: lines with the block that is indented below them, if any. -/
inductive Forest
  | nil
  | leaf (header : Text) (rest : Forest)
  | node (header : Text) (child rest : Forest)
deriving DecidableEq, Repr

/-- A line: its indentation and its content. -/
abbrev Line := Nat × Text

/-- The loop over the siblings at one indentation, with the lines that are left.
Every round takes a line, so the number of lines bounds the rounds. -/
def siblings : Nat → Nat → List Line → Forest × List Line
  | 0,_,lines => (.nil,lines)
  | _+1,_,[] => (.nil,[])
  | fuel+1,indent,(i,header)::rest =>
    if i = indent then
      match rest with
      | [] => (.leaf header .nil,[])
      | (j,next)::more =>
        if j > indent then
          let child := siblings fuel j ((j,next)::more)
          let later := siblings fuel indent child.2
          (.node header child.1 later.1,later.2)
        else
          let later := siblings fuel indent ((j,next)::more)
          (.leaf header later.1,later.2)
    else (.nil,(i,header)::rest)

/-- The first line fixes the indentation of the siblings. -/
def buildBlockTree (lines : List Line) (minIndent : Nat) : Forest × List Line :=
  match lines with
  | [] => (.nil,[])
  | (indent,header)::rest =>
    if indent < minIndent then (.nil,lines) else siblings lines.length indent ((indent,header)::rest)

end WarpLoop.Shrubbery
